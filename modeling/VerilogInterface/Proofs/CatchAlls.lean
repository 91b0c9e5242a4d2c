import VerilogInterface.Proofs.Acceptance
import VerilogInterface.Proofs.Calls
import VerilogInterface.Proofs.Nesting
import VerilogInterface.Proofs.Outcomes

/-! Only lists are strict. Everywhere else the last rule takes a character of any kind when nothing
before it does, so a scan fails only in a parameter list or a port list, and a text that opens no
list is scanned to its end. -/

namespace VerilogInterface

open Text

def State.strict : State → Bool
  | .parameters | .modulePort => true
  | .root | .module | .blockComment => false

namespace Pattern

variable {pattern first second : Pattern} {characters : List Char}

def Catches (pattern : Pattern) : Prop :=
  ∀ cursor : Cursor, cursor.rest ≠ [] → pattern.outcomes cursor ≠ []

theorem catches_any : Catches (.one fun _ => true) := by
  intro cursor remains
  obtain ⟨character, rest, source⟩ := List.exists_cons_of_ne_nil remains
  rw [outcomes, source]
  exact List.cons_ne_nil _ _

theorem Catches.latter (catches : second.Catches) : (Pattern.orElse first second).Catches :=
  fun cursor remains => List.append_ne_nil_of_right_ne_nil _ (catches cursor remains)

theorem Catches.exists_match (catches : pattern.Catches) (solid : pattern.nullable = false)
    (remains : characters ≠ []) :
    ∃ found, pattern.match? characters = some found ∧ 0 < found.taken := by
  obtain ⟨last, others, reached⟩ :=
    List.exists_cons_of_ne_nil (catches (pattern.start characters) remains)
  have matched : (pattern.match? characters).isSome = true := by
    rw [match?, ← findSome?_outcomes, reached]
    rfl
  obtain ⟨found, matched⟩ := Option.isSome_iff_exists.1 matched
  obtain ⟨taken, _, _, bytes, takes, _⟩ := match?_takes matched
  refine ⟨found, matched, bytes ▸ byteCount_pos fun empty => ?_⟩
  rw [takes.nullable empty] at solid
  contradiction

end Pattern

namespace Verilog

theorem catches_anything : anything.Catches := Pattern.catches_any.latter.latter

/-- Outside of lists the last rule skips whatever comes. -/
theorem exists_catchAll {state : State} (lenient : state.strict = false) :
    ∃ pattern, skip pattern ∈ table state ∧ pattern.Catches ∧ pattern.nullable = false := by
  cases state with
  | root => exact ⟨anything, List.mem_of_getLast? rfl, catches_anything, rfl⟩
  | module => exact ⟨anything, List.mem_of_getLast? rfl, catches_anything, rfl⟩
  | blockComment => exact ⟨_, List.mem_of_getLast? rfl, Pattern.catches_any.latter, rfl⟩
  | parameters | modulePort => contradiction

theorem exists_rule {state : State} {characters : List Char} (lenient : state.strict = false)
    (remains : characters ≠ []) :
    ∃ rule ∈ table state, ∃ found,
      rule.pattern.match? characters = some found ∧ 0 < found.taken := by
  obtain ⟨pattern, listed, catches, solid⟩ := exists_catchAll lenient
  exact ⟨skip pattern, listed, catches.exists_match solid remains⟩

end Verilog

theorem firstMatch_ne_none {characters : List Char} {rules : List Rule} {rule : Rule}
    {found : Pattern.Match} (listed : rule ∈ rules)
    (matched : rule.pattern.match? characters = some found) (nonempty : 0 < found.taken) :
    firstMatch characters rules ≠ none := by
  induction rules with
  | nil => cases listed
  | cons candidate others ih =>
    rw [firstMatch_cons]
    rcases List.mem_cons.1 listed with rfl | later
    · rw [matched]
      simp [nonempty]
    · split
      · split
        · exact Option.some_ne_none _
        · exact ih later
      · exact ih later

/-- A match that opens no list does not lead into one. -/
theorem Shift.lenient {stack after : List State} {action : Option Action}
    (shift : Shift stack action after) (lenient : ∀ state ∈ stack, state.strict = false)
    (noParameters : action ≠ some .parameterStart) (noPorts : action ≠ some .portStart) :
    ∀ state ∈ after, state.strict = false := by
  cases shift with
  | skip | aside | label => exact lenient
  | closeComment => exact fun state member => lenient state (List.mem_cons_of_mem _ member)
  | openModule | closeModule => simp [State.strict]
  | openComment =>
    intro state member
    rcases List.mem_cons.1 member with rfl | outer
    · rfl
    · exact lenient state outer
  | openParameters | moreParameters => exact (noParameters rfl).elim
  | openPorts | morePorts => exact (noPorts rfl).elim
  | parameter | closeParameters | port | closePorts =>
    cases lenient _ List.mem_cons_self

namespace Scanner

variable {scanner after : Scanner} {error : ScanError}

/-- A scan of the grammar stops only in a list, where no rule matches. -/
theorem strict_of_stopped (nested : Nested scanner.entered)
    (stopped : scanner.step Verilog.table = .stopped error after) :
    error = .noRule scanner.state scanner.position ∧ scanner.state.strict = true := by
  obtain ⟨_, remains, ⟨none, rfl, _⟩ | ⟨_, _, _, _, rfl, _⟩⟩ := first_of_stopped stopped
  · refine ⟨rfl, ?_⟩
    by_contra lenient
    rw [Bool.not_eq_true] at lenient
    obtain ⟨rule, listed, found, matched, nonempty⟩ := Verilog.exists_rule lenient remains
    exact firstMatch_ne_none listed matched nonempty none
  · exact (step_ne_underflow nested stopped).elim

/-- A scan that fails comes to a step that stops it. -/
theorem exists_stopped (failed : scanner.ending = .failure error) :
    ∃ middle after, scanner.Reaches Verilog.table middle ∧
      middle.step Verilog.table = .stopped error after := by
  induction scanner using scan_induction with
  | ended scanner found =>
    rw [(tokens_of_ended found).2] at failed
    cases failed
  | stopped scanner other after found =>
    rw [(tokens_of_stopped found).2] at failed
    cases failed
    exact ⟨scanner, after, .here, found⟩
  | moved scanner lexeme after found ih =>
    rw [(tokens_of_moved found).2] at failed
    obtain ⟨middle, last, reached, stopped⟩ := ih failed
    exact ⟨middle, last, .trans (.moved .here found) reached, stopped⟩

/-- The scan is in no list. -/
structure Lenient (scanner : Scanner) : Prop where
  nested : Nested scanner.entered
  states : ∀ state ∈ scanner.entered, state.strict = false

theorem Lenient.state (lenient : scanner.Lenient) : scanner.state.strict = false := by
  obtain ⟨_, states⟩ := lenient
  rw [Scanner.state]
  cases entered : scanner.entered with
  | nil => rfl
  | cons state outer =>
    rw [entered] at states
    exact states state List.mem_cons_self

theorem Lenient.moved {lexeme : Lexeme} (lenient : scanner.Lenient)
    (moved : scanner.step Verilog.table = .moved lexeme after)
    (noParameters : lexeme.action ≠ some .parameterStart)
    (noPorts : lexeme.action ≠ some .portStart) : after.Lenient :=
  have shift := shift_of_step lenient.nested moved
  ⟨lenient.nested.shift shift, shift.lenient lenient.states noParameters noPorts⟩

/-- Without a token that opens a list, a call fails neither itself nor by what it leads to. -/
theorem Lenient.next (lenient : scanner.Lenient)
    (plain : ∀ token, (scanner.next Verilog.table).1 = some (.ok token) →
      token.action ≠ .parameterStart ∧ token.action ≠ .portStart) :
    (scanner.next Verilog.table).2.Lenient ∧
      ∀ error, (scanner.next Verilog.table).1 ≠ some (.error error) := by
  fun_induction scanner.next Verilog.table with
  | case1 scanner ended => exact ⟨lenient, fun _ => (Option.some_ne_none _).symm⟩
  | case2 scanner error after stopped =>
    have strict := (strict_of_stopped lenient.nested stopped).2
    rw [lenient.state] at strict
    contradiction
  | case3 scanner lexeme after moved token meant =>
    obtain ⟨noParameters, noPorts⟩ := plain token rfl
    obtain ⟨action, acts, rfl⟩ := Option.map_eq_some_iff.1 meant
    refine ⟨lenient.moved moved ?_ ?_, fun error same => ?_⟩
    · rw [acts]
      exact fun same => noParameters (Option.some.inj same)
    · rw [acts]
      exact fun same => noPorts (Option.some.inj same)
    · cases same
  | case4 scanner lexeme after moved silent ih =>
    have none : lexeme.action = none := Option.map_eq_none_iff.1 silent
    exact ih (lenient.moved moved (by simp [none]) (by simp [none])) plain

theorem Lenient.called (lenient : scanner.Lenient)
    (plain : ∀ call token, scanner.answer Verilog.table call = some (.ok token) →
      token.action ≠ .parameterStart ∧ token.action ≠ .portStart) (calls : Nat) :
    (scanner.called Verilog.table calls).Lenient := by
  induction calls with
  | zero => exact lenient
  | succ calls ih => exact (ih.next (plain calls)).1

end Scanner

structure Forgiving (text : String) : Prop where
  /-- Whatever remains outside of a list, a rule takes some of it. -/
  covered : ∀ state, state = .root ∨ state = .module ∨ state = .blockComment →
    ∀ characters ≠ [], ∃ rule ∈ Verilog.table state, ∃ found,
      rule.pattern.match? characters = some found ∧ 0 < found.taken
  fails : ∀ call error, (Scanner.start text).answer Verilog.table call = some (.error error) →
    ∃ state offset, error = .noRule state offset ∧ (state = .parameters ∨ state = .modulePort)
  reports : ∀ state offset line, parse text = .error (.lexical state offset line) →
    state = .parameters ∨ state = .modulePort
  /-- A text whose tokens open no list gives tokens until its end. -/
  complete : (∀ call token, (Scanner.start text).answer Verilog.table call = some (.ok token) →
      token.action ≠ .parameterStart ∧ token.action ≠ .portStart) →
    ∃ count,
      (∀ call < count, ∃ token,
        (Scanner.start text).answer Verilog.table call = some (.ok token)) ∧
      (∀ call ≥ count, (Scanner.start text).answer Verilog.table call = none) ∧
      ((Scanner.start text).called Verilog.table (count + 1)).position = text.utf8ByteSize

theorem State.eq_of_strict {state : State} (strict : state.strict = true) :
    state = .parameters ∨ state = .modulePort := by
  cases state <;> simp_all [State.strict]

theorem forgiving (text : String) : Forgiving text where
  covered := by
    rintro state (rfl | rfl | rfl) characters remains <;> exact Verilog.exists_rule rfl remains
  fails := by
    intro call error answered
    obtain ⟨middle, later, stopped⟩ := Scanner.exists_of_error answered
    have reached := (Scanner.reaches_calls (Scanner.start text) call).trans later
    obtain ⟨rfl, strict⟩ := Scanner.strict_of_stopped (reached.nested .outside) stopped
    exact ⟨_, _, rfl, State.eq_of_strict strict⟩
  reports := by
    intro state offset line failed
    generalize same : ParseError.lexical state offset line = error at failed
    cases fails_of_parse failed with
    | token _ _ refused => cases refused <;> cases same
    | openGuard => cases same
    | scan _ ends =>
      obtain ⟨middle, after, reached, stopped⟩ := Scanner.exists_stopped ends
      obtain ⟨rfl, strict⟩ := Scanner.strict_of_stopped (reached.nested .outside) stopped
      cases same
      exact State.eq_of_strict strict
  complete := by
    intro plain
    have advance := advances Verilog.table text
    have start : (Scanner.start text).Lenient := ⟨.outside, nofun⟩
    have clean (call : Nat) (error : ScanError) :
        (Scanner.start text).answer Verilog.table call ≠ some (.error error) :=
      ((start.called plain call).next (plain call)).2 error
    obtain ⟨count, _, answered, silent⟩ := advance.ends
    refine ⟨count, fun call less => ?_, silent, ?_⟩
    · obtain ⟨answer, given⟩ := Option.isSome_iff_exists.1 (answered call less)
      cases answer with
      | ok token => exact ⟨token, given⟩
      | error error => exact (clean call error given).elim
    · exact advance.complete count (silent count (Nat.le_refl _)) fun call _ => clean call

end VerilogInterface
