import VerilogInterface.Proofs.Resumption

/-! String literals inside modules. The scan passes over a literal whatever its contents are, and
what is behind it is read the same. Outside of modules quotes mean nothing, and inside one a block
that is open to the end of the text takes the closing keyword wherever it stands. -/

namespace VerilogInterface

open Text Verilog Pattern

/-- The text has nothing in it that ends a string literal or hides its end. -/
def Plain (content : String) : Prop :=
  ∀ character ∈ content.toList, character ≠ '"' ∧ character ≠ '\\' ∧ character ≠ '\n'

theorem Plain.of_all {content : String}
    (all : content.toList.all (fun character =>
      character != '"' && character != '\\' && character != '\n') = true) : Plain content := by
  intro character member
  simpa [and_assoc] using List.all_eq_true.1 all character member

def quoting (before content after : String) : String := before ++ "\"" ++ content ++ "\"" ++ after

def ComesTo (text : String) (offset : Nat) (state : State) : Prop :=
  ∃ scanner : Scanner, (Scanner.start text).Reaches table scanner ∧ scanner.failed = false ∧
    scanner.position = offset ∧ scanner.state = state

theorem ComesTo.of_trace {text : String} {offset : Nat} {state : State}
    (found : ((Scanner.start text).trace table).lexemes.any
      (fun step => !step.2.failed && step.2.position == offset && step.2.state == state) = true) :
    ComesTo text offset state := by
  obtain ⟨step, member, fits⟩ := List.any_eq_true.1 found
  rw [Bool.and_eq_true, Bool.and_eq_true, Bool.not_eq_true', beq_iff_eq, beq_iff_eq] at fits
  exact ⟨step.2, Scanner.reaches_of_mem_trace member, fits.1.1, fits.1.2, fits.2⟩

def literalOf (content : String) : List Char := '"' :: content.toList ++ ['"']

variable {content content' : String} {rest : List Char}

theorem stringLiteral_prefers (plain : Plain content) (rest : List Char) :
    stringLiteral.Prefers none (literalOf content) rest [] := by
  have exhausts : ∀ (previous : Option Char) (inner : List Char),
      (∀ character ∈ inner, character ≠ '"' ∧ character ≠ '\\' ∧ character ≠ '\n') →
      Exhausts (.orElse (.one fun inner => inner != '"' && inner != '\\' && inner != '\n')
        (.andThen (symbol '\\') (.one (allBut '\n')))) previous inner ('"' :: rest) [] := by
    intro previous inner all
    induction inner generalizing previous with
    | nil => exact .stop (.of_begins rfl rfl)
    | cons character inner ih =>
      obtain ⟨here, later⟩ := List.forall_mem_cons.1 all
      refine .round (.former (.one ?_)) (List.cons_ne_nil _ _) (ih _ later)
      simp [here]
  exact .chain .literal (.chain (exhausts _ _ plain).prefers .literal rfl) (by simp; rfl)

/-- Inside a module a literal is passed over. -/
theorem Scanner.step_literal {scanner : Scanner} (working : scanner.failed = false)
    (inside : scanner.state = .module) (plain : Plain content)
    (split : scanner.rest = literalOf content ++ rest) :
    ∃ lexeme, lexeme.action = none ∧ scanner.step table =
      .moved lexeme (scanner.past (literalOf content) rest) := by
  have guarded : ∀ rule ∈ guards,
      rule.pattern.nullable = false ∧ rule.pattern.begins '"' = false := by
    decide
  have listed : (table scanner.state)[2]? = some (skip stringLiteral) := by rw [inside]; rfl
  have bars : ∀ rule ∈ (table scanner.state).take 2, rule.pattern.Bars scanner.rest := by
    rw [inside, split]
    exact bars_of_begins guarded (content.toList ++ ['"'] ++ rest)
  exact ⟨_, rfl,
      moved_of_rule 2 listed bars (stringLiteral_prefers plain rest) nofun working split rfl⟩

def quoted (content after : String) : List Char := literalOf content ++ after.toList

theorem toList_quoting (before content after : String) :
    (quoting before content after).toList = before.toList ++ quoted content after := by
  simp [quoting, quoted, literalOf]

variable {before after : String}

theorem ComesTo.exists_scanner (comes : ComesTo (quoting before content after)
    before.utf8ByteSize .module) :
    ∃ scanner : Scanner, (Scanner.start (quoting before content after)).Reaches table scanner ∧
      scanner.failed = false ∧ scanner.position = before.utf8ByteSize ∧
      scanner.rest = quoted content after ∧ scanner.state = .module := by
  obtain ⟨scanner, reached, working, place, inside⟩ := comes
  obtain ⟨passed, split, bytes⟩ := reached.stands
  rw [toList_quoting] at split
  have count : byteCount before.toList = byteCount passed := by
    rw [byteCount_toList, ← place, bytes]
  exact ⟨scanner, reached, working, place,
    (Scanner.append_inj_of_byteCount split count).2.symm, inside⟩

def literalParting (content content' after : String) : Parting where
  one := quoted content after
  two := quoted content' after
  ended := by simp [quoted, literalOf]
  words := rfl

/-- Behind the literals both scans go on in the same way. -/
theorem outlook_literal {scanner other : Scanner} (working : scanner.failed = false)
    (inside : scanner.state = .module) (plain : Plain content) (plain' : Plain content')
    (place : scanner.position = before.utf8ByteSize)
    (stands : scanner.rest = quoted content after)
    (abeam : scanner.Abeam (literalParting content content' after) other) :
    other.outlook ParseError.located (quoting before content' after) =
      scanner.outlook ParseError.located (quoting before content after) := by
  have stands' : other.rest = quoted content' after := by
    obtain ⟨front, rest, rest'⟩ := abeam.rest
    have none : front = [] := List.append_left_eq_self.1 (rest.symm.trans stands)
    rw [rest', none]
    rfl
  have breaks {content : String} (plain : Plain content) :
      (before.toList ++ literalOf content).count '\n' = before.toList.count '\n' := by
    have none : (literalOf content).count '\n' = 0 := by
      rw [List.count_eq_zero, literalOf]
      intro member
      rcases List.mem_append.1 member with first | last
      · rcases List.mem_cons.1 first with same | inner
        · contradiction
        · exact (plain _ inner).2.2 rfl
      · exact absurd last (by decide)
    rw [List.count_append, none, Nat.add_zero]
  obtain ⟨_, silent, moved⟩ := Scanner.step_literal working inside plain stands
  obtain ⟨_, silent', moved'⟩ := Scanner.step_literal (abeam.failed.trans working)
    (abeam.state_eq.trans inside) plain' stands'
  rw [Scanner.outlook_of_silent moved silent, Scanner.outlook_of_silent moved' silent']
  refine Scanner.Resumes.outlook_eq ⟨rfl, abeam.entered, abeam.failed,
    before.toList ++ literalOf content, before.toList ++ literalOf content', ?_, ?_, ?_, ?_, ?_⟩
  · rw [toList_quoting, quoted, List.append_assoc]
    rfl
  · rw [toList_quoting, quoted, List.append_assoc]
    rfl
  · rw [byteCount_append, byteCount_toList, ← place]
    rfl
  · rw [byteCount_append, byteCount_toList, ← place, ← abeam.position]
    rfl
  · rw [breaks plain, breaks plain']

/-- What stands in a string literal inside a module has no effect on the modules of the text, nor on
the kind of its error and the line of it, as long as the scan comes to the literal. -/
theorem parse_quoting (before after : String) (plain : Plain content) (plain' : Plain content')
    (comes : ComesTo (quoting before content after) before.utf8ByteSize .module)
    (comes' : ComesTo (quoting before content' after) before.utf8ByteSize .module) :
    (parse (quoting before content' after)).mapError ParseError.located =
      (parse (quoting before content after)).mapError ParseError.located := by
  obtain ⟨target, reached, working, place, stands, inside⟩ := comes.exists_scanner
  obtain ⟨target', reached', working', place', stands', _⟩ := comes'.exists_scanner
  have split : (quoting before content after).toList =
      before.toList ++ (literalParting content content' after).one := toList_quoting _ _ _
  have split' : (quoting before content' after).toList =
      before.toList ++ (literalParting content content' after).two := toList_quoting _ _ _
  apply parse_parted split split' reached working stands
  · intro other _ abeam
    exact outlook_literal working inside plain plain' place stands abeam
  · -- the other scan comes to the quote as well, so no match of it can go beyond
    intro scanner other onward reached'' abeam ahead crosses
    have before : other.position ≤ target'.position := by
      rw [abeam.position, place', ← place]
      exact onward.onward.position_le
    have later :=
      reached''.of_position_le reached' (abeam.failed.trans (onward.working working)) before
    have distinct : other ≠ target' := by
      rintro rfl
      rw [stands'] at ahead
      exact Nat.lt_irrefl _ ahead
    obtain ⟨_, middle, moved, later⟩ := later.exists_moved working' distinct
    have stays : (quoted content' after).length ≤ middle.rest.length :=
      stands' ▸ later.onward.length_le
    exact (Scanner.not_crosses_of_moved moved stays crosses).elim

/-- A declaration or the beginning of a comment in a literal is nothing but characters. -/
theorem parse_quoting_display :
    (Plain "a" ∧ Plain "input b; /*") ∧
      ComesTo (quoting "module m(input a);initial $display(" "a" ");endmodule")
        "module m(input a);initial $display(".utf8ByteSize .module ∧
      ComesTo (quoting "module m(input a);initial $display(" "input b; /*" ");endmodule")
        "module m(input a);initial $display(".utf8ByteSize .module ∧
      (parse (quoting "module m(input a);initial $display(" "input b; /*" ");endmodule")).mapError
          ParseError.located =
        (parse (quoting "module m(input a);initial $display(" "a" ");endmodule")).mapError
          ParseError.located := by
  have plain : Plain "a" ∧ Plain "input b; /*" := ⟨.of_all (by decide), .of_all (by decide)⟩
  have comes : ComesTo (quoting "module m(input a);initial $display(" "a" ");endmodule")
      "module m(input a);initial $display(".utf8ByteSize .module := .of_trace (by decide +kernel)
  have comes' : ComesTo (quoting "module m(input a);initial $display(" "input b; /*" ");endmodule")
      "module m(input a);initial $display(".utf8ByteSize .module := .of_trace (by decide +kernel)
  exact ⟨plain, comes, comes', parse_quoting _ _ plain.1 plain.2 comes comes'⟩

/-- Outside of modules the contents of quotes are read like anything else. Inside a module, behind
the beginning of a block that does not end, contents that end it hide what is before them. -/
theorem not_parse_quoting :
    (ComesTo (quoting "" "a" "") 0 .root ∧ parse (quoting "" "a" "") = .ok [] ∧
        parse (quoting "" "module m;endmodule" "") = .ok [{ name := "m" }]) ∧
      ComesTo (quoting "module m;function f;input x;" "a" ";endmodule") 28 .module ∧
        parse (quoting "module m;function f;input x;" "a" ";endmodule") =
          .ok [{ name := "m", ports := [{ name := "x", direction := some .input, dataType := "" }] }] ∧
        parse (quoting "module m;function f;input x;" "endfunction" ";endmodule") =
          .ok [{ name := "m" }] := by
  have begins : ComesTo (quoting "" "a" "") 0 .root := ⟨_, .here, rfl, rfl, rfl⟩
  have comes : ComesTo (quoting "module m;function f;input x;" "a" ";endmodule") 28 .module :=
    .of_trace (by decide +kernel)
  refine ⟨⟨begins, ?_, ?_⟩, comes, ?_, ?_⟩ <;> decide +kernel

end VerilogInterface
