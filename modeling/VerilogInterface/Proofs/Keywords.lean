import VerilogInterface.Proofs.Comments
import VerilogInterface.Proofs.Finishing
import VerilogInterface.Proofs.WordEnds

/-! Keywords are whole words. On the left no pattern looks back at the text, but every step leaves
the scan between words; on the right each pattern says itself that its keyword ends. -/

namespace VerilogInterface

open Text Pattern Verilog

namespace Pattern

variable {pattern first second : Pattern} {start : Cursor → Prop} {found : Match} {word : String}
  {previous : Option Char} {taken more rest gap characters : List Char} {writes : Writes}

/-- A match stands between words if the pattern's preferred outcome does. -/
theorem Settles.parted (settles : Settles start pattern) (here : start (pattern.start characters))
    (matched : pattern.match? characters = some found) (split : characters = taken ++ found.rest) :
    Parted taken.getLast? found.rest := by
  rw [match?_eq_head?] at matched
  obtain ⟨last, reached, rfl⟩ := Option.map_eq_some_iff.1 matched
  obtain ⟨passed, _, _, _, moves⟩ := outcome_takes (List.mem_of_head? reached)
  have source : characters = passed ++ last.rest := by
    rw [moves.rest]
    exact moves.source
  cases List.append_cancel_right (split.symm.trans source)
  have behind : last.previous = taken.getLast? := moves.previous.trans Option.or_none
  exact behind ▸ settles _ here last reached

/-- Behind a word character the pattern only goes on where that word ends. -/
def Stops (pattern : Pattern) : Prop :=
  ∀ previous taken rest writes, previous.any isWord = true →
    pattern.Takes previous taken rest writes → Ends isWord (taken ++ rest)

theorem Stops.of_needsEdge (edge : Ansi.NeedsEdge pattern) : Stops pattern := by
  intro previous taken rest writes inside takes character head
  have differs := edge _ _ _ _ takes
  rw [inside, Option.mem_def.1 head] at differs
  simpa using differs.symm

theorem stops_blank : Stops (.one isBlank) := by
  intro previous taken rest writes _ takes
  cases takes with
  | one blank => exact .cons (isWord_of_isBlank blank) rest

theorem Stops.andThen (stops : Stops first) : Stops (.andThen first second) := by
  intro previous taken rest writes inside takes
  obtain ⟨_, _, _, _, rfl, _, one, _⟩ := takes.of_andThen
  rw [List.append_assoc]
  exact stops _ _ _ _ inside one

def Announced (word : String) (taken rest : List Char) : Prop :=
  ∃ gap more, taken = gap ++ (word.toList ++ more) ∧ Gap gap ∧ Ends isWord (more ++ rest)

theorem Announced.append (announced : Announced word taken (more ++ rest)) :
    Announced word (taken ++ more) rest := by
  obtain ⟨gap, behind, rfl, blank, ends⟩ := announced
  refine ⟨gap, behind ++ more, ?_, blank, ?_⟩
  · rw [List.append_assoc, List.append_assoc]
  · rwa [List.append_assoc]

theorem Announced.behind (blank : Gap gap) (announced : Announced word taken rest) :
    Announced word (gap ++ taken) rest := by
  obtain ⟨inner, more, rfl, blank', ends⟩ := announced
  exact ⟨gap ++ inner, more, by rw [List.append_assoc], blank.append blank', ends⟩

theorem announced_of_spells {words : List String} {others : Writes}
    (spells : Ansi.Spells first words)
    (inside : words.all (·.toList.getLast?.any isWord) = true) (stops : Stops second)
    (one : first.Takes previous taken (more ++ rest) writes)
    (two : second.Takes (taken.getLast?.or previous) more rest others) :
    ∃ word ∈ words, taken = word.toList ∧ Announced word (taken ++ more) rest := by
  obtain ⟨word, listed, rfl⟩ := List.mem_map.1 (spells _ _ _ _ one)
  have behind : (word.toList.getLast?.or previous).any isWord = true := by
    obtain ⟨last, final, letter⟩ :=
      (Option.any_eq_true _ _).1 (List.all_eq_true.1 inside word listed)
    rw [final]
    exact letter
  exact ⟨word, listed, rfl, [], more, rfl, List.forall_mem_nil _, stops _ _ _ _ behind two⟩

theorem announced_of_andThen {keyword : String} (inside : keyword.toList.getLast?.any isWord = true)
    (stops : Stops second)
    (takes : (Pattern.andThen (exactly keyword) second).Takes previous taken rest writes) :
    Announced keyword taken rest := by
  obtain ⟨_, _, _, _, rfl, _, one, two⟩ := takes.of_andThen
  obtain ⟨word, only, _, announced⟩ :=
    announced_of_spells (Ansi.spells_exactly keyword) (by simpa using inside) stops one two
  exact List.mem_singleton.1 only ▸ announced

end Pattern

def Action.keywords : Action → List String
  | .moduleStart => ["module"]
  | .moduleEnd => ["endmodule"]
  | .parameterStart => ["parameter"]
  | .portStart => ["input", "inout", "output"]
  | _ => []

namespace Verilog

variable {previous : Option Char} {taken rest : List Char} {writes : Writes} {rule : Rule}
  {action : Action}

theorem blank_of_takes (takes : blanks.Takes previous taken rest writes) : Gap taken := by
  cases takes with
  | most accepted => exact accepted

theorem announced_moduleStart (takes : moduleStart.Takes previous taken rest writes) :
    Announced "module" taken rest :=
  announced_of_andThen rfl stops_blank.andThen.andThen takes

theorem announced_moduleEnd (takes : moduleEnd.Takes previous taken rest writes) :
    Announced "endmodule" taken rest :=
  announced_of_andThen rfl (.of_needsEdge Ansi.needsEdge_wordEdge) takes

theorem announced_parameterHead (takes : parameterHead.Takes previous taken rest writes) :
    Announced "parameter" taken rest :=
  announced_of_andThen rfl (.of_needsEdge (Ansi.needsEdge_andThen _)) takes

/-- A direction is captured besides. -/
theorem announced_portHead (takes : portHead.Takes previous taken rest writes) :
    ∃ word ∈ ["input", "inout", "output"], ∃ head, writes = [(0, word), (1, head)] ∧
      Announced word taken rest := by
  obtain ⟨_, _, _, _, rfl, rfl, one, two⟩ := takes.of_andThen
  obtain ⟨word, listed, rfl, announced⟩ := announced_of_spells (Ansi.spells_oneOf _ 0)
    rfl (.of_needsEdge (Ansi.needsEdge_andThen _)) one two
  obtain ⟨_, rfl, spelled⟩ := one.of_capture
  obtain ⟨_, head, _, _, _, rfl, edge, behind⟩ := two.of_andThen
  obtain ⟨_, rfl, onward⟩ := behind.of_capture
  refine ⟨word, listed, .ofList head, ?_, announced⟩
  rw [spelled.writes_eq_nil rfl, edge.writes_eq_nil rfl, onward.writes_eq_nil rfl,
    String.ofList_toList]
  rfl

theorem announced_furtherHead
    (takes : (sequence [blanks, portHead, blanks, .optional (symbol ',')]).Takes previous taken rest
      writes) :
    ∃ word ∈ ["input", "inout", "output"], ∃ head, writes = [(0, word), (1, head)] ∧
      Announced word taken rest := by
  obtain ⟨_, _, _, _, rfl, rfl, spaces, inner⟩ := takes.of_andThen
  obtain ⟨_, _, _, _, rfl, rfl, opens, others⟩ := inner.of_andThen
  obtain ⟨word, listed, head, rfl, announced⟩ := announced_portHead opens
  refine ⟨word, listed, head, ?_, announced.append.behind (blank_of_takes spaces)⟩
  rw [spaces.writes_eq_nil rfl, others.writes_eq_nil rfl]
  rfl

theorem announced_of_mem (listed : rule ∈ rulesFor action) (named : action.keywords ≠ [])
    (takes : rule.pattern.Takes previous taken rest writes) :
    ∃ word ∈ action.keywords, Announced word taken rest ∧
      (action = .portStart → ∃ head, writes = [(0, word), (1, head)]) := by
  cases action with
  | moduleStart =>
    have rules : rulesFor .moduleStart = [⟨moduleStart, some .moduleStart, some (.push .module)⟩] :=
      rfl
    rw [rules, List.mem_singleton] at listed
    cases listed
    exact ⟨_, List.mem_cons_self, announced_moduleStart takes, nofun⟩
  | moduleEnd =>
    have rules : rulesFor .moduleEnd = [⟨moduleEnd, some .moduleEnd, some .pop⟩] := rfl
    rw [rules, List.mem_singleton] at listed
    cases listed
    exact ⟨_, List.mem_cons_self, announced_moduleEnd takes, nofun⟩
  | parameterStart =>
    have rules : rulesFor .parameterStart =
        [⟨parameterHead, some .parameterStart, some (.push .parameters)⟩,
          ⟨.andThen blanks parameterHead, some .parameterStart, none⟩] := rfl
    rw [rules, List.mem_cons, List.mem_singleton] at listed
    rcases listed with rfl | rfl
    · exact ⟨_, List.mem_cons_self, announced_parameterHead takes, nofun⟩
    · obtain ⟨_, _, _, _, rfl, _, spaces, further⟩ := takes.of_andThen
      exact ⟨_, List.mem_cons_self,
        (announced_parameterHead further).behind (blank_of_takes spaces), nofun⟩
  | portStart =>
    have rules : rulesFor .portStart =
        [⟨portHead, some .portStart, some (.push .modulePort)⟩,
          ⟨.sequence [blanks, portHead, blanks, .optional (symbol ',')], some .portStart, none⟩] :=
      rfl
    rw [rules, List.mem_cons, List.mem_singleton] at listed
    rcases listed with rfl | rfl
    · obtain ⟨word, one, head, captured, announced⟩ := announced_portHead takes
      exact ⟨word, one, announced, fun _ => ⟨head, captured⟩⟩
    · obtain ⟨word, one, head, captured, announced⟩ := announced_furtherHead takes
      exact ⟨word, one, announced, fun _ => ⟨head, captured⟩⟩
  | _ => exact absurd rfl named

end Verilog

variable {text : String} {scanner next : Scanner} {lexeme : Lexeme} {token : Token}

/-- The scan has not left off inside of a word that could be a keyword. -/
def Scanner.BetweenWords (text : String) (scanner : Scanner) : Prop :=
  ∃ passed, text.toList = passed ++ scanner.rest ∧ scanner.position = byteCount passed ∧
    Parted passed.getLast? scanner.rest

theorem Scanner.betweenWords_start (text : String) : (start text).BetweenWords text :=
  ⟨[], rfl, rfl, nofun⟩

theorem Scanner.BetweenWords.moved (between : scanner.BetweenWords text)
    (moved : scanner.step table = .moved lexeme next) : next.BetweenWords text := by
  obtain ⟨passed, stands, place, _⟩ := between
  obtain ⟨_, rule, found, entered, first, _, _, rfl⟩ := first_of_moved moved
  obtain ⟨listed, matched, positive⟩ := firstMatch_eq_some first
  obtain ⟨taken, split, bytes⟩ := Pattern.match?_splits matched
  have some : taken ≠ [] := by
    rintro rfl
    rw [bytes] at positive
    exact absurd positive (Nat.lt_irrefl 0)
  have settles : Settles Cursor.Anywhere rule.pattern := settles_of_mem listed
  refine ⟨passed ++ taken, ?_, ?_, ?_⟩
  · rw [stands, split, List.append_assoc]
  · rw [byteCount_append, ← place, ← bytes]
  · rw [List.getLast?_append_of_ne_nil _ some]
    exact settles.parted trivial matched split

theorem Scanner.Reaches.betweenWords (reached : (start text).Reaches table scanner) :
    scanner.BetweenWords text := by
  induction reached with
  | here => exact betweenWords_start text
  | moved _ moved ih => exact ih.moved moved
  | stopped before stopped ih =>
    obtain ⟨_, _, ⟨_, _, rfl⟩ | ⟨_, _, _, _, rfl, _⟩⟩ := first_of_stopped stopped
    · exact ih
    · exact absurd stopped (step_ne_underflow (before.nested .outside))

/-- The token stands behind this part of the text and begins with blanks and the keyword. -/
structure Token.OpensWith (token : Token) (text : String) (before gap : List Char)
    (keyword : String) (after : List Char) : Prop where
  stands : text.toList = before ++ (gap ++ (keyword.toList ++ after))
  offset : token.offset = byteCount before
  blank : Gap gap
  inside : token.offset + byteCount gap + byteCount keyword.toList ≤ token.stop
  captured : token.action = .portStart → token.group? 0 = some keyword

def WholeWord (before after : List Char) : Prop :=
  (∀ last ∈ before.getLast?, isWord last = false) ∧ ∀ next ∈ after.head?, isWord next = false

theorem wholeWord_of_parted {before gap more after : List Char} {action : Action} {keyword : String}
    (listed : keyword ∈ action.keywords)
    (parted : Parted before.getLast? (gap ++ (keyword.toList ++ more))) (blank : Gap gap)
    (ends : Ends isWord after) : WholeWord (before ++ gap) after := by
  refine ⟨fun last final => ?_, ends⟩
  cases gap using List.reverseRecOn with
  | nil =>
    have plain : ∀ action : Action, ∀ keyword ∈ action.keywords,
        keyword.toList.head?.any plainWord = true := by
      intro action
      cases action <;> decide
    obtain ⟨letter, head, letters⟩ := (Option.any_eq_true _ _).1 (plain action keyword listed)
    obtain ⟨tail, spelled⟩ := List.head?_eq_some_iff.1 head
    rw [List.append_nil] at final
    by_contra inside
    have none := parted last final (Bool.not_eq_false _ ▸ inside) letter (by rw [spelled]; rfl)
    rw [letters] at none
    contradiction
  | append_singleton gap character =>
    rw [← List.append_assoc, List.getLast?_concat] at final
    cases final
    exact isWord_of_isBlank (blank _ (List.mem_append_right _ List.mem_cons_self))

/-- The tokens that open or close modules and those that open lists begin with their keyword, as a
whole word of the text. -/
theorem wholeWord_of_tokens (found : token ∈ tokens text) (named : token.action.keywords ≠ []) :
    ∃ keyword ∈ token.action.keywords, ∃ before gap after,
      token.OpensWith text before gap keyword after ∧ WholeWord (before ++ gap) after := by
  obtain ⟨earlier, later, split⟩ := List.append_of_mem found
  obtain ⟨scanner, lexeme, next, reached, moved, meant, _⟩ := Scanner.exists_of_tokens split
  obtain ⟨before, stands, place, parted⟩ := reached.betweenWords
  obtain ⟨rule, taken, writes, moves⟩ := Scanner.exists_movesBy moved
  obtain ⟨action, means, rfl⟩ := Option.map_eq_some_iff.1 meant
  have listed := mem_rulesFor moves.listed (moves.action.trans means)
  obtain ⟨keyword, one, ⟨gap, more, rfl, blank, ends⟩, captured⟩ :=
    announced_of_mem listed named moves.takes
  have whole : scanner.rest = gap ++ (keyword.toList ++ (more ++ next.rest)) := by
    rw [moves.source, List.append_assoc, List.append_assoc]
  refine ⟨keyword, one, before, gap, more ++ next.rest, ?_,
    wholeWord_of_parted one (whole ▸ parted) blank ends⟩
  refine ⟨whole ▸ stands, moves.offset.trans place, blank, ?_, fun opens => ?_⟩
  · show lexeme.offset + _ + _ ≤ lexeme.stop
    rw [moves.offset, moves.stop, moves.position, byteCount_append, byteCount_append]
    omega
  · obtain ⟨head, written⟩ := captured opens
    have two : ∀ rule ∈ rulesFor .portStart, rule.pattern.captureCount = 2 := by decide
    have opens : action = .portStart := opens
    show (lexeme.groups[0]?).join = some keyword
    rw [moves.groups, written, two rule (opens ▸ listed)]
    rfl

def letteredPorts : String := "module m(input aéinput,\n  output b);\nendmodule\n"

def laterHead : Token :=
  { action := .portStart, groups := [some "output", some " b"], offset := 24, stop := 35 }

theorem wholeWord_output :
    laterHead ∈ tokens letteredPorts ∧ laterHead.action.keywords ≠ [] ∧
      ∃ keyword ∈ laterHead.action.keywords, ∃ before gap after,
        laterHead.OpensWith letteredPorts before gap keyword after ∧
          WholeWord (before ++ gap) after := by
  have found : laterHead ∈ tokens letteredPorts := by decide +kernel
  have named : laterHead.action.keywords ≠ [] := nofun
  exact ⟨found, named, wholeWord_of_tokens found named⟩

end VerilogInterface
