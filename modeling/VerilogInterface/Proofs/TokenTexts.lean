import Mathlib.Data.List.Basic
import VerilogInterface.Proofs.Matching
import VerilogInterface.Proofs.Steps

/-! The captured texts of a token are those of a match of some rule, so what a rule's pattern
demands of its captures holds for every token of a text. -/

namespace VerilogInterface

namespace Pattern

def indices : Pattern → List Nat
  | .andThen first second => first.indices ++ second.indices
  | .capture index body => body.indices ++ [index]
  | _ => []

def certain : Pattern → Bool
  | .andThen first second => first.certain && second.certain
  | .orElse first second => first.captureCount == 0 && second.captureCount == 0
  | .rounds body => body.captureCount == 0
  | .capture _ body => body.certain
  | _ => true

namespace Writes

theorem apply_cons (index : Nat) (text : String) (writes : Writes) (groups : List (Option String)) :
    Writes.apply ((index, text) :: writes) groups =
      Writes.apply writes (groups.set index (some text)) := rfl

/-- Writes below the end of a list leave alone what is behind it. -/
theorem apply_append_right {writes : Writes} {groups : List (Option String)}
    (more : List (Option String)) (inside : ∀ write ∈ writes, write.1 < groups.length) :
    writes.apply (groups ++ more) = writes.apply groups ++ more := by
  induction writes generalizing groups with
  | nil => rfl
  | cons write writes ih =>
    obtain ⟨first, later⟩ := List.forall_mem_cons.1 inside
    obtain ⟨index, text⟩ := write
    rw [apply_cons, apply_cons, List.set_append_left _ _ first, ih]
    simpa using later

/-- Writes to all indices in order fill a list. -/
theorem apply_range {writes : Writes} (ordered : writes.map (·.1) = List.range writes.length) :
    writes.apply (List.replicate writes.length none) = writes.map (some ·.2) := by
  induction writes using List.reverseRecOn with
  | nil => rfl
  | append_singleton writes write ih =>
    obtain ⟨index, text⟩ := write
    rw [List.length_append, List.length_singleton, List.range_succ, List.map_append] at ordered
    obtain ⟨before, last⟩ := List.append_inj' ordered rfl
    have inside : ∀ write ∈ writes, write.1 < (List.replicate writes.length
        (none : Option String)).length := by
      intro write member
      rw [List.length_replicate, ← List.mem_range, ← before]
      exact List.mem_map_of_mem member
    have same : index = writes.length := (List.cons.inj last).1
    rw [List.length_append, List.length_singleton, List.replicate_succ', Writes.apply_append,
      apply_append_right _ inside, ih before, apply_cons, same, List.map_append,
      List.set_append_right _ _ (by simp)]
    simp [Writes.apply]

end Writes

end Pattern

namespace Pattern.Takes

variable {first second body : Pattern} {previous : Option Char} {taken rest : List Char}
  {writes : Writes} {index : Nat}

theorem of_andThen (takes : (Pattern.andThen first second).Takes previous taken rest writes) :
    ∃ some more written others, taken = some ++ more ∧ writes = written ++ others ∧
      first.Takes previous some (more ++ rest) written ∧
      second.Takes (some.getLast?.or previous) more rest others := by
  cases takes with
  | andThen one two => exact ⟨_, _, _, _, rfl, rfl, one, two⟩

theorem of_orElse (takes : (Pattern.orElse first second).Takes previous taken rest writes) :
    first.Takes previous taken rest writes ∨ second.Takes previous taken rest writes := by
  cases takes with
  | former one => exact .inl one
  | latter two => exact .inr two

theorem of_capture (takes : (Pattern.capture index body).Takes previous taken rest writes) :
    ∃ written, writes = written ++ [(index, String.ofList taken)] ∧
      body.Takes previous taken rest written := by
  cases takes with
  | capture inner => exact ⟨_, rfl, inner⟩

theorem of_literal {characters : List Char}
    (takes : (Pattern.literal characters).Takes previous taken rest writes) :
    taken = characters := by
  cases takes
  rfl

theorem writes_eq_nil {pattern : Pattern} (takes : pattern.Takes previous taken rest writes)
    (none : pattern.captureCount = 0) : writes = [] := by
  induction takes with
  | nothing | one | literal | most | fewest | noRound | wordEdge | textEnd => rfl
  | andThen _ _ one two =>
    obtain ⟨left, right⟩ := Nat.add_eq_zero_iff.1 none
    rw [one left, two right]
    rfl
  | former _ one => exact one (Nat.add_eq_zero_iff.1 none).1
  | latter _ two => exact two (Nat.add_eq_zero_iff.1 none).2
  | round _ _ one again =>
    rw [one none, again none]
    rfl
  | capture => contradiction

/-- A match makes all the captures that do not depend on a choice. -/
theorem map_writes {pattern : Pattern} (takes : pattern.Takes previous taken rest writes)
    (certain : pattern.certain = true) : writes.map (·.1) = pattern.indices := by
  induction takes with
  | nothing | one | literal | most | fewest | noRound | wordEdge | textEnd => rfl
  | andThen _ _ one two =>
    obtain ⟨left, right⟩ := (Bool.and_eq_true _ _).mp certain
    rw [List.map_append, one left, two right]
    rfl
  | former one =>
    rw [one.writes_eq_nil (eq_of_beq ((Bool.and_eq_true _ _).mp certain).1)]
    rfl
  | latter two =>
    rw [two.writes_eq_nil (eq_of_beq ((Bool.and_eq_true _ _).mp certain).2)]
    rfl
  | round one again =>
    rw [one.writes_eq_nil (eq_of_beq certain), again.writes_eq_nil (eq_of_beq certain)]
    rfl
  | capture _ inner =>
    rw [List.map_append, inner certain]
    rfl

end Pattern.Takes

def Verilog.rulesFor (action : Action) : List Rule :=
  State.all.flatMap fun state => (Verilog.table state).filter (·.action == some action)

theorem mem_rulesFor {state : State} {rule : Rule} {action : Action}
    (member : rule ∈ Verilog.table state) (meaning : rule.action = some action) :
    rule ∈ Verilog.rulesFor action := by
  rw [Verilog.rulesFor, List.mem_flatMap]
  refine ⟨state, by cases state <;> decide, List.mem_filter.2 ⟨member, ?_⟩⟩
  rw [meaning]
  exact beq_self_eq_true _

/-- A meaning for which all states have the same rule. -/
theorem eq_of_rulesFor {state : State} {rule only : Rule} {action : Action} {count : Nat}
    (same : Verilog.rulesFor action = List.replicate count only)
    (member : rule ∈ Verilog.table state) (meaning : rule.action = some action) : rule = only := by
  have listed := mem_rulesFor member meaning
  rw [same] at listed
  exact List.eq_of_mem_replicate listed

/-- A step by a rule of the state takes the beginning of what remains and captures parts of it. -/
structure Scanner.MovesBy (scanner : Scanner) (rule : Rule) (taken : List Char)
    (writes : Pattern.Writes) (lexeme : Lexeme) (after : Scanner) : Prop where
  listed : rule ∈ Verilog.table scanner.state
  takes : rule.pattern.Takes none taken after.rest writes
  source : scanner.rest = taken ++ after.rest
  position : after.position = scanner.position + Text.byteCount taken
  enters : rule.enters scanner.entered = some after.entered
  state : lexeme.state = scanner.state
  action : rule.action = lexeme.action
  groups : lexeme.groups = writes.apply (List.replicate rule.pattern.captureCount none)
  offset : lexeme.offset = scanner.position
  stop : lexeme.stop = after.position

theorem Scanner.exists_movesBy {scanner after : Scanner} {lexeme : Lexeme}
    (moved : scanner.step Verilog.table = .moved lexeme after) :
    ∃ rule taken writes, scanner.MovesBy rule taken writes lexeme after := by
  obtain ⟨_, rule, matched, entered, first, enters, rfl, rfl⟩ := first_of_moved moved
  obtain ⟨listed, accepted, _⟩ := firstMatch_eq_some first
  obtain ⟨taken, writes, source, bytes, takes, groups⟩ := Pattern.match?_takes accepted
  exact ⟨rule, taken, writes, listed, takes, source, congrArg _ bytes, enters, rfl, rfl, groups, rfl,
    rfl⟩

def Token.Matched (token : Token) : Prop :=
  ∃ rule ∈ Verilog.rulesFor token.action, ∃ taken rest writes,
    rule.pattern.Takes none taken rest writes ∧
      token.groups = writes.apply (List.replicate rule.pattern.captureCount none)

theorem Lexeme.matched_of_step {scanner after : Scanner} {lexeme : Lexeme} {token : Token}
    (moved : scanner.step Verilog.table = .moved lexeme after)
    (found : lexeme.token? = some token) : token.Matched := by
  obtain ⟨rule, taken, writes, moves⟩ := Scanner.exists_movesBy moved
  obtain ⟨action, meaning, rfl⟩ := Option.map_eq_some_iff.1 found
  exact ⟨rule, mem_rulesFor moves.listed (moves.action.trans meaning), taken, _, writes, moves.takes,
    moves.groups⟩

theorem Token.matched {text : String} {token : Token} (member : token ∈ tokens text) :
    token.Matched := by
  have all (scanner : Scanner) : ∀ token ∈ scanner.tokens, token.Matched := by
    induction scanner using Scanner.scan_induction with
    | ended scanner found => simp [(Scanner.tokens_of_ended found).1]
    | stopped scanner error after found => simp [(Scanner.tokens_of_stopped found).1]
    | moved scanner lexeme after moved ih =>
      intro token member
      rw [(Scanner.tokens_of_moved moved).1, List.mem_append, Option.mem_toList] at member
      rcases member with here | later
      · exact Lexeme.matched_of_step moved here
      · exact ih token later
  exact all _ token member

/-- Every token but the head of a parameter list has all its captures. -/
theorem groups_of_tokens {text : String} {token : Token} (member : token ∈ tokens text)
    (fixed : token.action ≠ .parameterStart) :
    ∃ texts : List String, token.groups = texts.map some ∧
      ∃ rule ∈ Verilog.rulesFor token.action, texts.length = rule.pattern.captureCount := by
  obtain ⟨rule, listed, taken, rest, writes, takes, groups⟩ := Token.matched member
  have shape : ∀ action ≠ Action.parameterStart, ∀ rule ∈ Verilog.rulesFor action,
      rule.pattern.certain = true ∧
        rule.pattern.indices = List.range rule.pattern.captureCount := by
    intro action
    cases action <;> decide
  obtain ⟨certain, ordered⟩ := shape _ fixed rule listed
  have indices := (takes.map_writes certain).trans ordered
  have length : writes.length = rule.pattern.captureCount := by
    simpa using congrArg List.length indices
  rw [← length] at groups indices
  refine ⟨writes.map (·.2), ?_, rule, listed, by rw [List.length_map, length]⟩
  rw [groups, Pattern.Writes.apply_range indices, List.map_map]
  rfl

theorem parameterItem_groups {text : String} {token : Token} (member : token ∈ tokens text)
    (action : token.action = .parameterItem) :
    token.groups = [some (token.group 0), some (token.group 1)] := by
  obtain ⟨texts, groups, rule, listed, length⟩ := groups_of_tokens member (by simp [action])
  rw [action] at listed
  have two : ∀ rule ∈ Verilog.rulesFor .parameterItem, rule.pattern.captureCount = 2 := by decide
  rw [two rule listed] at length
  obtain ⟨name, value, rfl⟩ := List.length_eq_two.1 length
  simp [Token.group, Token.group?, groups]

theorem name_groups {text : String} {token : Token} (member : token ∈ tokens text)
    (action : token.action = .moduleStart ∨ token.action = .portName) :
    token.groups = [some (token.group 0)] := by
  obtain ⟨texts, groups, rule, listed, length⟩ :=
    groups_of_tokens member (by rcases action with action | action <;> simp [action])
  have one : ∀ rule ∈ Verilog.rulesFor token.action, rule.pattern.captureCount = 1 := by
    rcases action with action | action <;> rw [action] <;> decide
  rw [one rule listed] at length
  obtain ⟨name, rfl⟩ := List.length_eq_one_iff.1 length
  simp [Token.group, Token.group?, groups]

open Verilog in
/-- A port head begins with its direction and captures it. -/
theorem portHead_takes {previous : Option Char} {taken rest : List Char}
    {writes : Pattern.Writes} (takes : portHead.Takes previous taken rest writes) :
    ∃ direction text more, direction ≠ .into ∧
      taken = (Direction.keyword direction).toList ++ more ∧
      writes = [(0, Direction.keyword direction), (1, text)] := by
  obtain ⟨_, _, _, _, rfl, rfl, captures, onward⟩ := Pattern.Takes.of_andThen takes
  obtain ⟨_, _, _, _, _, rfl, edges, behind⟩ := Pattern.Takes.of_andThen onward
  obtain ⟨inner, rfl, text⟩ := Pattern.Takes.of_capture behind
  obtain ⟨word, rfl, words⟩ := Pattern.Takes.of_capture captures
  rw [words.writes_eq_nil rfl, edges.writes_eq_nil rfl, text.writes_eq_nil rfl]
  rcases Pattern.Takes.of_orElse words with input | others
  · exact ⟨.input, _, _, nofun, by rw [input.of_literal]; rfl, by rw [input.of_literal]; rfl⟩
  rcases Pattern.Takes.of_orElse others with inout | output
  · exact ⟨.inout, _, _, nofun, by rw [inout.of_literal]; rfl, by rw [inout.of_literal]; rfl⟩
  · exact ⟨.output, _, _, nofun, by rw [output.of_literal]; rfl, by rw [output.of_literal]; rfl⟩

/-- The token that opens a port list has captured its direction. -/
theorem portStart_groups {text : String} {token : Token} (member : token ∈ tokens text)
    (action : token.action = .portStart) :
    ∃ direction head, direction ≠ .into ∧
      token.groups = [some (Direction.keyword direction), some head] := by
  obtain ⟨rule, listed, taken, rest, writes, takes, groups⟩ := Token.matched member
  have rules : Verilog.rulesFor .portStart =
      [⟨Verilog.portHead, some .portStart, some (.push .modulePort)⟩,
        ⟨.sequence [Verilog.blanks, Verilog.portHead, Verilog.blanks,
          .optional (Verilog.symbol ',')], some .portStart, none⟩] := rfl
  rw [action, rules, List.mem_cons, List.mem_singleton] at listed
  rcases listed with rfl | rfl
  · obtain ⟨direction, head, _, outward, _, rfl⟩ := portHead_takes takes
    exact ⟨direction, head, outward, groups⟩
  · obtain ⟨_, _, before, _, _, rfl, blanks, inner⟩ := Pattern.Takes.of_andThen takes
    obtain ⟨_, _, opening, _, _, rfl, opens, behind⟩ := Pattern.Takes.of_andThen inner
    obtain ⟨direction, head, _, outward, _, rfl⟩ := portHead_takes opens
    rw [blanks.writes_eq_nil rfl, behind.writes_eq_nil rfl] at groups
    exact ⟨direction, head, outward, groups⟩

end VerilogInterface
