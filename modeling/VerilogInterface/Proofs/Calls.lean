import Mathlib.Data.Nat.Find
import Mathlib.Data.Nat.Init
import VerilogInterface.Proofs.Steps

/-! Asking a scan for one token after the other, under any rule table. Every answer takes something
from the text or is the last one, so the answers run out, and nothing of the text is lost without an
error. -/

namespace VerilogInterface

open Text

variable {kind : Type} [Matcher kind] {table : RuleTable kind} {scanner after : Scanner}

theorem Lexeme.span_of_token? {lexeme : Lexeme} {token : Token}
    (meant : lexeme.token? = some token) :
    token.offset = lexeme.offset ∧ token.stop = lexeme.stop := by
  obtain ⟨_, _, rfl⟩ := Option.map_eq_some_iff.1 meant
  exact ⟨rfl, rfl⟩

namespace Scanner

def Over (scanner : Scanner) : Prop := scanner.failed = true ∨ scanner.rest = []

theorem next_of_over (ended : scanner.Over) : scanner.next table = (none, scanner) :=
  next_of_ended (step_eq_ended.2 ended)

/-- What one call does to the scan, by its answer: it passes over silent matches and then comes to
the end, fails, or takes the token. -/
inductive Answers (table : RuleTable kind) (scanner : Scanner) :
    Option (Except ScanError Token) × Scanner → Prop where
  | none {after : Scanner} (reached : scanner.Reaches table after) (working : after.failed = false)
      (complete : after.rest = []) : Answers table scanner (none, after)
  | error {middle after : Scanner} {error : ScanError} (reached : scanner.Reaches table middle)
      (stopped : middle.step table = .stopped error after) :
      Answers table scanner (some (.error error), after)
  | token {middle after : Scanner} {lexeme : Lexeme} {token : Token}
      (reached : scanner.Reaches table middle) (moved : middle.step table = .moved lexeme after)
      (meant : lexeme.token? = some token) : Answers table scanner (some (.ok token), after)

theorem answers_next (working : scanner.failed = false) :
    scanner.Answers table (scanner.next table) := by
  fun_induction scanner.next table with
  | case1 scanner ended =>
    have complete := (step_eq_ended.1 ended).resolve_left (by simp [working])
    exact .none .here working complete
  | case2 scanner error after stopped => exact .error .here stopped
  | case3 scanner lexeme after moved token meant => exact .token .here moved meant
  | case4 scanner lexeme after moved silent ih =>
    have silently : scanner.Reaches table after := .moved .here moved
    have answers := ih (working_of_moved moved)
    generalize after.next table = answered at answers
    cases answers with
    | none reached working complete => exact .none (silently.trans reached) working complete
    | error reached stopped => exact .error (silently.trans reached) stopped
    | token reached onward meant => exact .token (silently.trans reached) onward meant

theorem reaches_next (scanner : Scanner) : scanner.Reaches table (scanner.next table).2 := by
  cases working : scanner.failed with
  | true =>
    rw [next_of_over (.inl working)]
    exact .here
  | false =>
    have answers : scanner.Answers table (scanner.next table) := answers_next working
    generalize scanner.next table = answered at answers
    cases answers with
    | none reached _ _ => exact reached
    | error reached stopped => exact reached.stopped stopped
    | token reached moved _ => exact reached.moved moved

def room (scanner : Scanner) : Nat := if scanner.failed then 0 else byteCount scanner.rest

/-- An answer takes from what there is left to take. -/
theorem room_next (scanner : Scanner) (answered : (scanner.next table).1.isSome = true) :
    (scanner.next table).2.room < scanner.room := by
  cases working : scanner.failed with
  | true =>
    rw [next_of_over (.inl working)] at answered
    contradiction
  | false =>
    have answers : scanner.Answers table (scanner.next table) := answers_next working
    have whole : scanner.room = byteCount scanner.rest := if_neg (by simp [working])
    generalize scanner.next table = next at answers answered
    rw [whole]
    cases answers with
    | none => contradiction
    | @error middle after error reached stopped =>
      have nothing : after.room = 0 := by
        obtain ⟨_, _, ⟨_, _, rfl⟩ | ⟨_, _, _, _, _, rfl⟩⟩ := first_of_stopped stopped <;> rfl
      obtain ⟨taken, split, _⟩ := reached.onward
      have some := byteCount_pos (first_of_stopped stopped).2.1
      show after.room < _
      rw [nothing, split, byteCount_append]
      omega
    | @token middle after lexeme token reached moved _ =>
      have left : after.room = byteCount after.rest := if_neg (by simp [working_of_moved moved])
      obtain ⟨onward, begins, ends, positive⟩ := onward_of_moved moved
      have bytes := (reached.onward.trans onward).bytes
      have further := reached.onward.position_le
      show after.room < _
      rw [left]
      omega

def called (table : RuleTable kind) (scanner : Scanner) : Nat → Scanner
  | 0 => scanner
  | calls + 1 => ((scanner.called table calls).next table).2

/-- The answer to the call of this index, the first one being that of index zero. -/
def answer (table : RuleTable kind) (scanner : Scanner) (call : Nat) :
    Option (Except ScanError Token) :=
  ((scanner.called table call).next table).1

theorem reaches_called (scanner : Scanner) {call later : Nat} (order : call ≤ later) :
    (scanner.called table call).Reaches table (scanner.called table later) := by
  induction later, order using Nat.le_induction with
  | base => exact .here
  | succ later _ ih => exact ih.trans (reaches_next _)

/-- Every call is on the way from where the asking begins. -/
theorem reaches_calls (scanner : Scanner) (calls : Nat) :
    scanner.Reaches table (scanner.called table calls) :=
  reaches_called scanner (Nat.zero_le calls)

theorem called_of_over {call later : Nat} (ended : (scanner.called table call).Over)
    (order : call ≤ later) : scanner.called table later = scanner.called table call := by
  induction later, order using Nat.le_induction with
  | base => rfl
  | succ later _ ih => rw [called, ih, next_of_over ended]

/-- After an error, as after the end, nothing more comes. -/
theorem over_of_answer {call : Nat} (last : ∀ token, scanner.answer table call ≠ some (.ok token)) :
    (scanner.called table (call + 1)).Over := by
  rw [called]
  cases working : (scanner.called table call).failed with
  | true =>
    rw [next_of_over (.inl working)]
    exact .inl working
  | false =>
    have answers : (scanner.called table call).Answers table _ := answers_next working
    rw [answer] at last
    generalize (scanner.called table call).next table = next at answers last
    cases answers with
    | none _ _ complete => exact .inr complete
    | error _ stopped =>
      obtain ⟨_, _, ⟨_, _, rfl⟩ | ⟨_, _, _, _, _, rfl⟩⟩ := first_of_stopped stopped <;>
        exact .inl rfl
    | token => exact (last _ rfl).elim

/-- A scan fails only with an error. -/
theorem working_called (working : scanner.failed = false) {calls : Nat}
    (clean : ∀ call < calls, ∀ error, scanner.answer table call ≠ some (.error error)) :
    (scanner.called table calls).failed = false := by
  induction calls with
  | zero => exact working
  | succ calls ih =>
    have earlier := ih fun call less => clean call (Nat.lt_succ_of_lt less)
    have answers : (scanner.called table calls).Answers table _ := answers_next earlier
    have here := clean calls (Nat.lt_succ_self calls)
    rw [answer] at here
    rw [called]
    generalize (scanner.called table calls).next table = next at answers here
    cases answers with
    | none _ working _ => exact working
    | error => exact (here _ rfl).elim
    | token _ moved _ => exact working_of_moved moved

theorem room_called {calls : Nat}
    (answered : ∀ call < calls, (scanner.answer table call).isSome = true) :
    (scanner.called table calls).room + calls ≤ scanner.room := by
  induction calls with
  | zero => exact Nat.le_refl _
  | succ calls ih =>
    have earlier := ih fun call less => answered call (Nat.lt_succ_of_lt less)
    have less := room_next (scanner.called table calls)
      (answered calls (Nat.lt_succ_self calls))
    rw [called]
    omega

/-- The answers run out before the room does. -/
theorem exists_last_call (scanner : Scanner) :
    ∃ count ≤ scanner.room, (∀ call < count, (scanner.answer table call).isSome = true) ∧
      ∀ call ≥ count, scanner.answer table call = none := by
  classical
  have some : ∃ call, scanner.answer table call = none := by
    by_contra all
    have answered : ∀ call < scanner.room + 1, (scanner.answer table call).isSome = true :=
      fun call _ => Option.isSome_iff_ne_none.2 fun none => all ⟨call, none⟩
    have less := room_called answered
    omega
  have answered : ∀ call < Nat.find some, (scanner.answer table call).isSome = true :=
    fun call less => Option.isSome_iff_ne_none.2 (Nat.find_min some less)
  refine ⟨Nat.find some, Nat.le_of_add_left_le (room_called answered), answered, ?_⟩
  intro call order
  rcases Nat.eq_or_lt_of_le order with rfl | later
  · exact Nat.find_spec some
  · have ended : (scanner.called table (Nat.find some + 1)).Over :=
      over_of_answer fun token => by rw [Nat.find_spec some]; nofun
    rw [answer, called_of_over ended later, next_of_over ended]

end Scanner

structure Advances (table : RuleTable kind) (text : String) : Prop where
  /-- There are at most as many answers as the text has bytes. -/
  ends : ∃ count ≤ text.utf8ByteSize,
    (∀ call < count, ((Scanner.start text).answer table call).isSome = true) ∧
      ∀ call ≥ count, (Scanner.start text).answer table call = none
  /-- Every token spans whole characters of the text, at least one. -/
  spans : ∀ call token, (Scanner.start text).answer table call = some (.ok token) →
    token.offset < token.stop ∧
      ∃ before taken behind, text.toList = before ++ taken ++ behind ∧
        token.offset = byteCount before ∧ token.stop = byteCount (before ++ taken)
  ordered : ∀ call later token other, call < later →
    (Scanner.start text).answer table call = some (.ok token) →
    (Scanner.start text).answer table later = some (.ok other) → token.stop ≤ other.offset
  rooted : ∀ calls, ((Scanner.start text).called table calls).stack.getLast? = some .root ∧
    1 ≤ ((Scanner.start text).called table calls).depth
  /-- The stack moves by the rules of its innermost state alone, and its last one is not given
  away. -/
  stacked : ∀ scanner, (Scanner.start text).Reaches table scanner →
    scanner.stack.head? = some scanner.state ∧
    (∀ lexeme after, scanner.step table = .moved lexeme after →
      ∃ rule ∈ table scanner.state, lexeme.action = rule.action ∧
        rule.Moves scanner.stack after.stack) ∧
    ∀ error after, scanner.step table = .stopped error after →
      after.stack = scanner.stack ∧
        ((∃ offset, error = .underflow offset) →
          scanner.depth = 1 ∧ ∃ rule ∈ table scanner.state, rule.transition = some .pop)
  /-- Without an error the scan comes to the end of the text. -/
  complete : ∀ call, (Scanner.start text).answer table call = none →
    (∀ earlier < call, ∀ error,
      (Scanner.start text).answer table earlier ≠ some (.error error)) →
    ((Scanner.start text).called table (call + 1)).position = text.utf8ByteSize
  /-- The first call that gives no token is the last one to do anything. -/
  settled : ∀ call, (∀ token, (Scanner.start text).answer table call ≠ some (.ok token)) →
    ∀ later > call, (Scanner.start text).answer table later = none ∧
      ((Scanner.start text).called table later).position =
        ((Scanner.start text).called table (call + 1)).position ∧
      ((Scanner.start text).called table later).stack =
        ((Scanner.start text).called table (call + 1)).stack

namespace Scanner

/-- A scan that answers still works, so that the answer tells what the call did. -/
theorem answers_of_answer {call : Nat} {given : Except ScanError Token}
    (answered : scanner.answer table call = some given) :
    (scanner.called table call).Answers table (some given, scanner.called table (call + 1)) := by
  rw [answer] at answered
  cases working : (scanner.called table call).failed with
  | true =>
    rw [next_of_over (.inl working)] at answered
    contradiction
  | false =>
    have answers : (scanner.called table call).Answers table _ := answers_next working
    have same : (scanner.called table call).next table =
        (some given, scanner.called table (call + 1)) := Prod.ext answered rfl
    rw [same] at answers
    exact answers

/-- What is behind an answer that is a token. -/
theorem exists_of_answer {call : Nat} {token : Token}
    (answered : scanner.answer table call = some (.ok token)) :
    ∃ middle lexeme, (scanner.called table call).Reaches table middle ∧
      middle.step table = .moved lexeme (scanner.called table (call + 1)) ∧
      lexeme.token? = some token := by
  cases answers_of_answer answered with
  | token reached moved meant => exact ⟨_, _, reached, moved, meant⟩

/-- What is behind an answer that is an error. -/
theorem exists_of_error {call : Nat} {error : ScanError}
    (answered : scanner.answer table call = some (.error error)) :
    ∃ middle, (scanner.called table call).Reaches table middle ∧
      middle.step table = .stopped error (scanner.called table (call + 1)) := by
  cases answers_of_answer answered with
  | error reached stopped => exact ⟨_, reached, stopped⟩

end Scanner

/-- Whatever rules there are, with empty matches, states without rules and states left too often:
asking for tokens goes forward through the text, comes to an end, and leaves nothing out. -/
theorem advances (table : RuleTable kind) (text : String) : Advances table text where
  ends := by
    have room : (Scanner.start text).room = text.utf8ByteSize := byteCount_toList text
    rw [← room]
    exact Scanner.exists_last_call _
  spans := by
    intro call token answered
    obtain ⟨middle, lexeme, reached, moved, meant⟩ := Scanner.exists_of_answer answered
    obtain ⟨begins', ends'⟩ := Lexeme.span_of_token? meant
    obtain ⟨before, split, place⟩ := ((Scanner.reaches_calls _ call).trans reached).stands
    obtain ⟨⟨taken, onward, place'⟩, begins, ends, positive⟩ := Scanner.onward_of_moved moved
    rw [begins', ends']
    refine ⟨positive, before, taken, ((Scanner.start text).called table (call + 1)).rest, ?_,
      begins.trans place, ?_⟩
    · rw [split, onward, List.append_assoc]
    · rw [byteCount_append, ← place, ← place', ends]
  ordered := by
    intro call later token other less answered answered'
    obtain ⟨_, lexeme, _, moved, meant⟩ := Scanner.exists_of_answer answered
    obtain ⟨_, lexeme', reached', moved', meant'⟩ := Scanner.exists_of_answer answered'
    have between : ((Scanner.start text).called table (call + 1)).Reaches table
        ((Scanner.start text).called table later) :=
      Scanner.reaches_called _ (Nat.succ_le_of_lt less)
    have further := (between.trans reached').onward.position_le
    have ends := (Scanner.onward_of_moved moved).2.2.1
    have begins := (Scanner.onward_of_moved moved').2.1
    rw [(Lexeme.span_of_token? meant).2, (Lexeme.span_of_token? meant').1, ends, begins]
    exact further
  rooted := by
    intro calls
    have reached : Scanner.Reaches table _ _ := Scanner.reaches_calls (Scanner.start text) calls
    have last := Scanner.rooted_of_reaches reached
    refine ⟨last, List.length_pos_iff.2 ?_⟩
    intro none
    rw [none] at last
    contradiction
  stacked := by
    intro scanner _
    exact ⟨scanner.head?_stack, fun _ _ => Scanner.moves_of_moved,
      fun _ _ => Scanner.stack_of_stopped⟩
  complete := by
    intro call none clean
    have working := Scanner.working_called rfl clean
    have answers : Scanner.Answers table ((Scanner.start text).called table call) _ :=
      Scanner.answers_next working
    have first : Scanner.Reaches table _ _ := Scanner.reaches_calls (Scanner.start text) call
    rw [Scanner.answer] at none
    rw [Scanner.called]
    generalize ((Scanner.start text).called table call).next table = next at answers none
    cases answers with
    | none reached _ complete =>
      obtain ⟨passed, split, place⟩ := (first.trans reached).stands
      rw [complete, List.append_nil] at split
      rw [place, ← split, byteCount_toList]
    | error => contradiction
    | token => contradiction
  settled := by
    intro call last later less
    have ended := Scanner.over_of_answer last
    rw [Scanner.answer, Scanner.called_of_over ended less, Scanner.next_of_over ended]
    exact ⟨rfl, rfl, rfl⟩

end VerilogInterface
