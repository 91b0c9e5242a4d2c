import VerilogInterface.Proofs.Crossings

/-! Comments as white space. A comment on one line may stand for a space, unless a match of the text
with the space takes it together with something else. -/

namespace VerilogInterface

open Text Verilog Pattern

/-- What a match may take on both sides of the space without harm. -/
inductive Harmless (behind : List Char) : Option Action → List Char → List Char → Prop where
  /-- Nothing but blanks in front of the space. -/
  | blank {action : Option Action} {near far : List Char} (gap : Gap near) :
      Harmless behind action near far
  /-- A head or a member of a list, and behind the space nothing that could not be left out. -/
  | loose {action : Action} {near far : List Char} (declares : action.behind?.isSome = true)
      (trails : Trails far) : Harmless behind (some action) near far
  /-- A head without a name, and behind the space just its name. -/
  | named {near far said name : List Char} (unnamed : Unnamed said near)
      (names : Names name behind far) : Harmless behind (some .portStart) near far

/-- The matches of the text with a space between the two parts that take the space and something in
front of it. -/
def overlapping (before after : String) : List (Lexeme × Scanner) :=
  ((Scanner.start (spaced before after)).trace table).lexemes.filter fun (lexeme, next) =>
    lexeme.offset < before.utf8ByteSize && before.utf8ByteSize < next.position

def Apart (before after : String) : Prop :=
  ∀ lexeme next passed near far, (lexeme, next) ∈ overlapping before after →
    before.toList = passed ++ near → lexeme.offset = byteCount passed →
      after.toList = far ++ next.rest → Harmless next.rest lexeme.action near far

theorem Apart.of_eq {before after : String} {lexeme : Lexeme} {next : Scanner}
    {passed near far : List Char} (only : overlapping before after = [(lexeme, next)])
    (split : before.toList = passed ++ near) (place : lexeme.offset = byteCount passed)
    (behind : after.toList = far ++ next.rest) (harmless : Harmless next.rest lexeme.action near far) :
    Apart before after := by
  intro lexeme' next' passed' near' far' member split' place' behind'
  rw [only] at member
  cases List.mem_singleton.1 member
  obtain ⟨_, rfl⟩ := Scanner.append_inj_of_byteCount (split.symm.trans split')
    (place.symm.trans place')
  cases List.append_cancel_right (behind.symm.trans behind')
  exact harmless

variable {before comment after : String} {target scanner other : Scanner} {near : List Char}

/-- Inside another comment a run of anything but stars takes the slash as well, and so does not come
to this one. -/
theorem Facing.star_mem (facing : Facing before comment after target)
    (onward : scanner.Reaches table target) (some : near ≠ [])
    (rest : scanner.rest = near ++ (comment.toList ++ after.toList))
    (inside : scanner.state = .blockComment) : '*' ∈ near := by
  by_contra absent
  obtain ⟨behind, opens⟩ := facing.opens
  obtain ⟨first, others, rfl⟩ := List.exists_cons_of_ne_nil some
  have all : ∀ character ∈ first :: others ++ ['/'], allBut '*' character = true := by
    intro character member
    rcases List.mem_append.1 member with before | last
    · exact bne_iff_ne.2 fun same => absent (same ▸ before)
    · cases List.mem_singleton.1 last
      rfl
  have split : scanner.rest = first :: others ++ ['/'] ++ '*' :: behind := by
    rw [rest, opens, List.append_assoc]
    rfl
  have listed : (table scanner.state)[1]? =
      .some (skip (.orElse (run (allBut '*')) (.one fun _ => true))) := by
    rw [inside]
    rfl
  have bars : ∀ rule ∈ (table scanner.state).take 1, rule.pattern.Bars scanner.rest := by
    have other : first ≠ '*' := fun same => absent (same ▸ List.mem_cons_self)
    rw [inside, split]
    refine List.forall_mem_singleton.2 (.of_begins rfl ?_)
    simp [commentEnd, exactly, Pattern.begins, other.symm]
  have ends : Ends (allBut '*') ('*' :: behind) := .cons rfl behind
  have moved := Scanner.moved_of_rule 1 listed bars (.former (.run (by simp) all ends)) (by simp)
    (onward.working facing.working) split rfl
  have distinct : scanner ≠ target := by
    rintro rfl
    have same := congrArg List.length (rest.symm.trans facing.rest)
    simp only [List.length_append, List.length_cons] at same
    omega
  obtain ⟨_, _, moved', later⟩ := onward.exists_moved facing.working distinct
  cases moved.symm.trans moved'
  obtain ⟨taken, further, _⟩ := later.onward
  have length := congrArg List.length further
  rw [facing.rest, opens] at length
  simp only [List.length_append, List.length_cons] at length
  omega

/-- No match that takes the space stands inside another comment. -/
theorem Facing.outside_comment (facing : Facing before comment after target)
    (onward : scanner.Reaches table target) (some : near ≠ [])
    (rest : scanner.rest = near ++ (comment.toList ++ after.toList))
    (crosses : Crosses (' ' :: after.toList)
      (firstMatch (near ++ ' ' :: after.toList) (table scanner.state))) :
    scanner.state ≠ .blockComment := by
  intro inside
  have star := facing.star_mem onward some rest inside
  rw [inside] at crosses
  obtain ⟨rule, found, chosen, less⟩ := crosses
  obtain ⟨listed, matched, _⟩ := firstMatch_eq_some chosen
  have matched : rule.pattern.match? (near ++ ' ' :: after.toList) = .some found := matched
  obtain ⟨taken, _, split, _, takes, _⟩ := match?_takes matched
  obtain ⟨more, rfl⟩ := exists_taken split less
  simp only [table, commentRules, List.mem_cons, List.not_mem_nil, or_false] at listed
  rcases listed with rfl | rfl
  · have same : near ++ ' ' :: more = ['*', '/'] := takes.of_literal
    have space : ' ' ∈ ['*', '/'] := same ▸ List.mem_append_right _ List.mem_cons_self
    exact absurd space (by decide)
  rcases takes.of_orElse with run | one
  · exact absurd ((run_accepted run).2 _ (List.mem_append_left _ star)) (by decide)
  · generalize same : near ++ ' ' :: more = taken at one
    cases one
    have length := congrArg List.length same
    have positive := List.length_pos_iff.2 some
    simp only [List.length_append, List.length_cons, List.length_nil] at length
    omega

/-- A match that takes the space, in the other scan. -/
theorem Facing.exists_crossing (facing : Facing before comment after target)
    (onward : scanner.Reaches table target)
    (reached : (Scanner.start (spaced before after)).Reaches table other)
    (abeam : scanner.Abeam facing.parting other)
    (ahead : facing.parting.two.length < other.rest.length)
    (crosses : Crosses facing.parting.two (firstMatch other.rest (table other.state))) :
    ∃ lexeme next near far, Crossing before comment after target scanner other lexeme next near far := by
  obtain ⟨near, rest, rest'⟩ := abeam.rest
  have some : near ≠ [] := by
    rintro rfl
    rw [rest'] at ahead
    exact Nat.lt_irrefl _ ahead
  have plain : scanner.state ≠ .blockComment := by
    rw [rest', abeam.state_eq] at crosses
    exact facing.outside_comment onward some rest crosses
  obtain ⟨rule, found, first, less⟩ := crosses
  have nested : Nested other.entered := reached.nested .outside
  obtain ⟨stack, enters, _⟩ := nested.shift_of_rule (firstMatch_eq_some first).1
  have working : other.failed = false := abeam.failed.trans (onward.working facing.working)
  have moved := Scanner.step_of_first working first enters
  obtain ⟨taken, split, _⟩ := match?_splits (firstMatch_eq_some first).2.1
  rw [rest'] at split
  obtain ⟨far, rfl⟩ := exists_taken split less
  refine ⟨_, _, near, far, facing, onward, reached, rest, rest', abeam.entered, moved, ?_, plain⟩
  rw [List.append_assoc, List.cons_append] at split
  exact (List.cons.inj (List.append_cancel_left split)).2

section

variable {lexeme : Lexeme} {next : Scanner} {far : List Char}
  (crossing : Crossing before comment after target scanner other lexeme next near far)
include crossing

theorem Crossing.harmless (some : near ≠ []) (apart : Apart before after) :
    Harmless next.rest lexeme.action near far := by
  obtain ⟨passed, split, place⟩ := crossing.reached.stands
  obtain ⟨passed', split', place'⟩ := (crossing.reached.moved crossing.moved).stands
  have offset : lexeme.offset = byteCount passed :=
    (Scanner.onward_of_moved crossing.moved).2.1.trans place
  have whole : (spaced before after).toList = before.toList ++ ' ' :: after.toList := by
    simp [spaced]
  have front : before.toList = passed ++ near := by
    rw [whole, crossing.rest', ← List.append_assoc] at split
    exact List.append_cancel_right split
  have behind : passed' = before.toList ++ ' ' :: far := by
    rw [whole, crossing.far, ← List.cons_append, ← List.append_assoc] at split'
    exact (List.append_cancel_right split').symm
  refine apart lexeme next passed near far (List.mem_filter.2 ⟨?_, ?_⟩) front offset crossing.far
  · exact Scanner.mem_trace_of_reaches crossing.reached crossing.moved
  · have positive := byteCount_pos some
    have positive' : 0 < byteCount (' ' :: far) := byteCount_pos (List.cons_ne_nil _ _)
    rw [← byteCount_toList, Bool.and_eq_true, decide_eq_true_eq, decide_eq_true_eq, offset, place',
      behind, byteCount_append]
    nth_rewrite 1 [front]
    rw [byteCount_append]
    omega

theorem Crossing.outlook_eq (line : '\n' ∉ comment.toList) (apart : Apart before after) :
    other.outlook ParseError.kind (spaced before after) =
      scanner.outlook ParseError.kind (commented before comment after) := by
  by_cases gap : Gap near
  · exact crossing.outlook_of_gap line gap
  have some : near ≠ [] := by
    rintro rfl
    exact gap nofun
  have harmless := crossing.harmless some apart
  generalize means : lexeme.action = action at harmless
  cases harmless with
  | blank all => exact (gap all).elim
  | loose declares trails =>
    obtain ⟨state, behind⟩ := Option.isSome_iff_exists.1 declares
    exact crossing.outlook_eq_of_trails line gap means behind trails
  | named unnamed names => exact crossing.outlook_eq_of_name line gap means unnamed names

end

/-- A comment on one line may be replaced by a space without effect on the modules of the text or on
the kind of its error, if no match of the text with the space is in the way. -/
theorem parse_spaced (before comment after : String) (comments : Commented before comment after)
    (line : '\n' ∉ comment.toList) (apart : Apart before after) :
    (parse (spaced before after)).mapError ParseError.kind =
      (parse (commented before comment after)).mapError ParseError.kind := by
  obtain ⟨target, facing⟩ := comments.exists_facing
  have split : (commented before comment after).toList = before.toList ++ facing.parting.one := by
    simp [commented, Facing.parting]
  have split' : (spaced before after).toList = before.toList ++ facing.parting.two := by
    simp [spaced, Facing.parting]
  apply parse_parted split split' facing.reached facing.working facing.rest
  · intro other reached abeam
    obtain ⟨front, rest, rest'⟩ := abeam.rest
    have none : front = [] := List.append_left_eq_self.1 (rest.symm.trans facing.rest)
    have blank : Gap front := by
      rw [none]
      exact List.forall_mem_nil _
    exact facing.outlook_eq_of_gap line reached (abeam.failed.trans facing.working) abeam.entered blank
      rest'
  · intro scanner other onward reached abeam ahead crosses
    obtain ⟨_, _, _, _, crossing⟩ := facing.exists_crossing onward reached abeam ahead crosses
    exact crossing.outlook_eq line apart

/-- A comment in the midst of a port declaration. -/
theorem parse_spaced_clock :
    (Commented "module m(input " "/* clk */" " a);endmodule" ∧ '\n' ∉ "/* clk */".toList ∧
        Apart "module m(input " " a);endmodule") ∧
      (parse (spaced "module m(input " " a);endmodule")).mapError ParseError.kind =
        (parse (commented "module m(input " "/* clk */" " a);endmodule")).mapError
          ParseError.kind := by
  have comments : Commented "module m(input " "/* clk */" " a);endmodule" := by
    refine ⟨[⟨.moduleStart, [some "m"], 0, 8⟩, ⟨.portStart, [some "input", some " "], 9, 15⟩],
      ⟨.commentStart, [], 15, 17⟩, ⟨.commentEnd, [], 22, 24⟩,
      [⟨.portName, [some "a"], 24, 26⟩, ⟨.moduleEnd, [], 28, 37⟩], ?_, rfl, ?_, rfl, ?_⟩ <;>
    decide +kernel
  have line : '\n' ∉ "/* clk */".toList := by decide
  have apart : Apart "module m(input " " a);endmodule" := by
    have only : overlapping "module m(input " " a);endmodule" =
        [(⟨.module, some .portStart, [some "input", some "   a"], 9, 18⟩,
          { rest := ");endmodule".toList, position := 18, entered := [.modulePort, .module] })] := by
      decide +kernel
    have unnamed : Unnamed [' '] ("".toList ++ "input".toList ++ [' ']) :=
      .intro nofun (by decide) (by decide +kernel)
    have names : Names ['a'] ");endmodule".toList ([' '] ++ ['a'] ++ []) :=
      .intro (List.forall_mem_singleton.2 rfl) nofun (List.forall_mem_singleton.2 rfl) (by decide)
        (Gap.trails nofun) (.cons rfl _)
    have split : "module m(input ".toList =
        "module m(".toList ++ ("".toList ++ "input".toList ++ [' ']) := by decide
    have behind : " a);endmodule".toList = [' '] ++ ['a'] ++ [] ++ ");endmodule".toList := by decide
    exact .of_eq only split (by decide) behind (.named unnamed names)
  exact ⟨⟨comments, line, apart⟩, parse_spaced _ _ _ comments line apart⟩

/-- In front of a comment a net type is taken for the name of a port. -/
theorem not_parse_spaced :
    (Commented "module m(input wire" "/**/" "a);endmodule" ∧ '\n' ∉ "/**/".toList) ∧
      parse (commented "module m(input wire" "/**/" "a);endmodule") =
        .ok [{ name := "m", ports := [
          { name := "a", direction := some .input, dataType := "" },
          { name := "wire", direction := some .input, dataType := "" }] }] ∧
      parse (spaced "module m(input wire" "a);endmodule") =
        .ok [{ name := "m", ports := [
          { name := "a", direction := some .input, dataType := "wire" }] }] := by
  have comments : Commented "module m(input wire" "/**/" "a);endmodule" := by
    refine ⟨[⟨.moduleStart, [some "m"], 0, 8⟩, ⟨.portStart, [some "input", some " wire"], 9, 19⟩],
      ⟨.commentStart, [], 19, 21⟩, ⟨.commentEnd, [], 21, 23⟩,
      [⟨.portName, [some "a"], 23, 24⟩, ⟨.moduleEnd, [], 26, 35⟩], ?_, rfl, ?_, rfl, ?_⟩ <;>
    decide +kernel
  refine ⟨⟨comments, by decide⟩, ?_, ?_⟩ <;> decide +kernel

end VerilogInterface
