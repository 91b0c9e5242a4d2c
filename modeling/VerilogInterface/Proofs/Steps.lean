import VerilogInterface.Proofs.Relocation

/-! What a step of a scan can do, under any rule table. From it follows where a scan can come to:
further down its text, behind whole characters, and behind each match by what the match took. -/

namespace VerilogInterface

open Text

variable {kind : Type}

/-- The states entered after a rule's match, if the rule does not leave the outermost state. -/
def Rule.enters (rule : Rule kind) (stack : List State) : Option (List State) :=
  match rule.transition, stack with
  | none, stack => some stack
  | some (.push state), stack => some (state :: stack)
  | some .pop, [] => none
  | some .pop, _ :: outer => some outer

/-- Only the outermost state cannot be left. -/
theorem Rule.exists_enters (rule : Rule kind) (state : State) (outer : List State) :
    ∃ stack, rule.enters (state :: outer) = some stack := by
  obtain ⟨pattern, action, transition⟩ := rule
  cases transition with
  | none => exact ⟨_, rfl⟩
  | some change => cases change <;> exact ⟨_, rfl⟩

/-- What a rule does to the stack of all states, innermost first: nothing, or it puts a state on the
stack, or it takes one off that has another below it. -/
inductive Rule.Moves (rule : Rule kind) : List State → List State → Prop where
  | stays {stack : List State} (changes : rule.transition = none) : rule.Moves stack stack
  | pushes {stack : List State} {state : State} (changes : rule.transition = some (.push state)) :
      rule.Moves stack (state :: stack)
  | pops {stack : List State} {state : State} (changes : rule.transition = some .pop)
      (below : stack ≠ []) : rule.Moves (state :: stack) stack

namespace Rule

variable {rule : Rule kind} {entered stack stack' : List State}

/-- The states entered above the root move as the stack with the root below them. -/
theorem moves_of_enters (enters : rule.enters entered = some stack) :
    rule.Moves (entered ++ [.root]) (stack ++ [.root]) := by
  unfold Rule.enters at enters
  split at enters
  · next changes =>
    cases enters
    exact .stays changes
  · next changes =>
    cases enters
    exact .pushes changes
  · contradiction
  · next changes =>
    cases enters
    apply Moves.pops changes
    simp

theorem pops_of_enters (leaves : rule.enters entered = none) :
    rule.transition = some .pop ∧ entered = [] := by
  unfold Rule.enters at leaves
  split at leaves
  case h_3 changes => exact ⟨changes, rfl⟩
  all_goals contradiction

theorem Moves.rooted (moves : rule.Moves stack stack') (rooted : stack.getLast? = some .root) :
    stack'.getLast? = some .root := by
  cases moves with
  | stays => exact rooted
  | pushes =>
    rw [List.getLast?_cons, rooted]
    rfl
  | pops changes below =>
    obtain ⟨state, outer, rfl⟩ := List.exists_cons_of_ne_nil below
    rwa [List.getLast?_cons_cons] at rooted

end Rule

namespace Scanner

variable {table : RuleTable kind} {scanner middle after : Scanner} {lexeme : Lexeme}
  {error : ScanError}

theorem follow_eq (scanner : Scanner) (rule : Rule kind) (found : Pattern.Match) :
    scanner.follow rule found =
      match rule.enters scanner.entered with
      | some stack =>
        .moved
          { state := scanner.state, action := rule.action, groups := found.groups,
            offset := scanner.position, stop := scanner.position + found.taken }
          { scanner with
            rest := found.rest, position := scanner.position + found.taken, entered := stack }
      | none =>
        .stopped (.underflow scanner.position)
          { scanner with
            rest := found.rest, position := scanner.position + found.taken, failed := true } := by
  unfold follow Rule.enters
  cases rule.transition with
  | none => rfl
  | some change =>
    cases change with
    | push state => rfl
    | pop => cases entered : scanner.entered <;> simp only

variable [Matcher kind]

/-- What a step was made of. -/
theorem first_of_moved (moved : scanner.step table = .moved lexeme after) :
    scanner.failed = false ∧ ∃ (rule : Rule kind) (matched : Pattern.Match) (entered : List State),
      firstMatch scanner.rest (table scanner.state) = some (rule, matched) ∧
        rule.enters scanner.entered = some entered ∧
        lexeme =
          { state := scanner.state, action := rule.action, groups := matched.groups,
            offset := scanner.position, stop := scanner.position + matched.taken } ∧
        after =
          { scanner with
            rest := matched.rest, position := scanner.position + matched.taken, entered } := by
  rw [step] at moved
  split at moved
  · contradiction
  · next going =>
    rw [Bool.not_eq_true, Bool.or_eq_false_iff] at going
    refine ⟨going.1, ?_⟩
    split at moved
    · contradiction
    · next rule matched first =>
      rw [follow_eq] at moved
      split at moved
      · next entered enters =>
        cases moved
        exact ⟨rule, matched, entered, first, enters, rfl, rfl⟩
      · contradiction

theorem working_of_moved (moved : scanner.step table = .moved lexeme after) :
    after.failed = false := by
  obtain ⟨working, _, _, _, _, _, _, rfl⟩ := first_of_moved moved
  exact working

/-- A scan that stops had something left; it stays where it is, or behind the match that it could
not follow. -/
theorem first_of_stopped (stopped : scanner.step table = .stopped error after) :
    scanner.failed = false ∧ scanner.rest ≠ [] ∧
      (firstMatch scanner.rest (table scanner.state) = none ∧
          error = .noRule scanner.state scanner.position ∧
          after = { scanner with failed := true } ∨
        ∃ (rule : Rule kind) (matched : Pattern.Match),
          firstMatch scanner.rest (table scanner.state) = some (rule, matched) ∧
          rule.enters scanner.entered = none ∧ error = .underflow scanner.position ∧
          after =
            { scanner with
              rest := matched.rest, position := scanner.position + matched.taken,
              failed := true }) := by
  rw [step] at stopped
  split at stopped
  · contradiction
  · next going =>
    rw [Bool.not_eq_true, Bool.or_eq_false_iff, List.isEmpty_eq_false_iff] at going
    refine ⟨going.1, going.2, ?_⟩
    split at stopped
    · next none =>
      cases stopped
      exact .inl ⟨none, rfl, rfl⟩
    · next rule matched first =>
      rw [follow_eq] at stopped
      split at stopped
      · contradiction
      · next leaves =>
        cases stopped
        exact .inr ⟨rule, matched, first, leaves, rfl, rfl⟩

theorem head?_stack (scanner : Scanner) : scanner.stack.head? = some scanner.state := by
  rw [stack, state]
  cases scanner.entered <;> rfl

/-- A match moves the stack as its rule says. -/
theorem moves_of_moved {lexeme : Lexeme} (moved : scanner.step table = .moved lexeme after) :
    ∃ rule ∈ table scanner.state, lexeme.action = rule.action ∧
      rule.Moves scanner.stack after.stack := by
  obtain ⟨_, rule, _, _, first, enters, rfl, rfl⟩ := first_of_moved moved
  exact ⟨rule, (firstMatch_eq_some first).1, rfl, Rule.moves_of_enters enters⟩

/-- A failure leaves the stack as it is; to be asked for its last state is one. -/
theorem stack_of_stopped {error : ScanError} (stopped : scanner.step table = .stopped error after) :
    after.stack = scanner.stack ∧
      ((∃ offset, error = .underflow offset) →
        scanner.depth = 1 ∧ ∃ rule ∈ table scanner.state, rule.transition = some .pop) := by
  obtain ⟨_, _, ⟨_, rfl, rfl⟩ | ⟨rule, _, first, leaves, rfl, rfl⟩⟩ := first_of_stopped stopped
  · exact ⟨rfl, nofun⟩
  · obtain ⟨changes, none⟩ := Rule.pops_of_enters leaves
    refine ⟨rfl, fun _ => ⟨?_, rule, (firstMatch_eq_some first).1, changes⟩⟩
    rw [depth, stack, none]
    rfl

theorem step_eq_ended : scanner.step table = .ended ↔ scanner.failed = true ∨ scanner.rest = [] := by
  rw [step]
  split
  · next ended =>
    rw [Bool.or_eq_true, List.isEmpty_iff] at ended
    simp only [ended]
  · next going =>
    rw [Bool.or_eq_true, List.isEmpty_iff] at going
    simp only [going, iff_false]
    split
    · exact Step.noConfusion
    · next rule matched _ =>
      rw [follow_eq]
      split <;> exact Step.noConfusion

inductive Reaches (table : RuleTable kind) (scanner : Scanner) : Scanner → Prop where
  | here : Reaches table scanner scanner
  | moved {middle after : Scanner} {lexeme : Lexeme} (reached : Reaches table scanner middle)
      (moved : middle.step table = .moved lexeme after) : Reaches table scanner after
  | stopped {middle after : Scanner} {error : ScanError} (reached : Reaches table scanner middle)
      (stopped : middle.step table = .stopped error after) : Reaches table scanner after

theorem Reaches.trans (one : scanner.Reaches table middle) (two : middle.Reaches table after) :
    scanner.Reaches table after := by
  induction two with
  | here => exact one
  | moved _ moved ih => exact ih.moved moved
  | stopped _ stopped ih => exact ih.stopped stopped

theorem rooted_of_reaches {text : String} (reached : (start text).Reaches table scanner) :
    scanner.stack.getLast? = some .root := by
  induction reached with
  | here => rfl
  | moved _ moved ih =>
    obtain ⟨rule, _, _, moves⟩ := moves_of_moved moved
    exact moves.rooted ih
  | stopped _ stopped ih => exact (stack_of_stopped stopped).1 ▸ ih

theorem Reaches.cases_head (reaches : scanner.Reaches table after) :
    scanner = after ∨
      (∃ lexeme middle, scanner.step table = .moved lexeme middle ∧ middle.Reaches table after) ∨
      ∃ error middle, scanner.step table = .stopped error middle ∧ middle.Reaches table after := by
  induction reaches with
  | here => exact .inl rfl
  | moved _ moved ih =>
    rcases ih with rfl | ⟨_, _, first, later⟩ | ⟨_, _, first, later⟩
    · exact .inr (.inl ⟨_, _, moved, .here⟩)
    · exact .inr (.inl ⟨_, _, first, later.moved moved⟩)
    · exact .inr (.inr ⟨_, _, first, later.moved moved⟩)
  | stopped _ stopped ih =>
    rcases ih with rfl | ⟨_, _, first, later⟩ | ⟨_, _, first, later⟩
    · exact .inr (.inr ⟨_, _, stopped, .here⟩)
    · exact .inr (.inl ⟨_, _, first, later.stopped stopped⟩)
    · exact .inr (.inr ⟨_, _, first, later.stopped stopped⟩)

theorem reaches_of_mem_trace {step : Lexeme × Scanner}
    (member : step ∈ (scanner.trace table).lexemes) : scanner.Reaches table step.2 := by
  fun_induction scanner.trace table with
  | case1 scanner ended => cases member
  | case2 scanner error after stopped => cases member
  | case3 scanner lexeme after moved others ih =>
    rcases List.mem_cons.1 member with rfl | later
    · exact .moved .here moved
    · exact .trans (.moved .here moved) (ih later)

/-- Every match in a trace was made by a step. -/
theorem exists_of_mem_trace (member : (lexeme, after) ∈ (scanner.trace table).lexemes) :
    ∃ middle, scanner.Reaches table middle ∧ middle.step table = .moved lexeme after := by
  fun_induction scanner.trace table with
  | case1 scanner ended => cases member
  | case2 scanner error after stopped => cases member
  | case3 scanner first next moved others ih =>
    rcases List.mem_cons.1 member with same | later
    · cases same
      exact ⟨scanner, .here, moved⟩
    · obtain ⟨middle, reached, step⟩ := ih later
      exact ⟨middle, .trans (.moved .here moved) reached, step⟩

/-- Nothing comes after a failure. -/
theorem Reaches.eq_of_failed (reaches : scanner.Reaches table after)
    (failed : scanner.failed = true) : after = scanner := by
  have ended : scanner.step table = .ended := step_eq_ended.2 (.inl failed)
  rcases reaches.cases_head with rfl | ⟨_, _, moved, _⟩ | ⟨_, _, stopped, _⟩
  · rfl
  · cases ended.symm.trans moved
  · cases ended.symm.trans stopped

theorem Reaches.working (reaches : scanner.Reaches table after) (working : after.failed = false) :
    scanner.failed = false := by
  by_contra failed
  rw [Bool.not_eq_false] at failed
  rw [reaches.eq_of_failed failed, failed] at working
  contradiction

/-- A scan that comes to one that works and is not itself that one moves towards it. -/
theorem Reaches.exists_moved (reaches : scanner.Reaches table after) (working : after.failed = false)
    (other : scanner ≠ after) :
    ∃ lexeme middle, scanner.step table = .moved lexeme middle ∧ middle.Reaches table after := by
  rcases reaches.cases_head with rfl | moved | ⟨_, middle, stopped, later⟩
  · exact (other rfl).elim
  · exact moved
  · have failed : middle.failed = true := by
      obtain ⟨_, _, ⟨_, _, rfl⟩ | ⟨_, _, _, _, _, rfl⟩⟩ := first_of_stopped stopped <;> rfl
    rw [later.eq_of_failed failed, failed] at working
    contradiction

/-- Induction on the steps that are left until a scan comes to one that works. -/
theorem Reaches.head_induction {motive : ∀ scanner : Scanner, scanner.Reaches table after → Prop}
    (working : after.failed = false) (here : motive after .here)
    (moved : ∀ {scanner middle : Scanner} {lexeme : Lexeme}
      (step : scanner.step table = .moved lexeme middle) (later : middle.Reaches table after),
      motive middle later → motive scanner (.trans (.moved .here step) later))
    (reaches : scanner.Reaches table after) : motive scanner reaches := by
  induction reaches with
  | here => exact here
  | moved _ last ih =>
    exact ih (motive := fun scanner later => motive scanner (later.moved last))
      (first_of_moved last).1 (moved last .here here) fun step later => moved step (later.moved last)
  | stopped _ last _ =>
    obtain ⟨_, _, ⟨_, _, rfl⟩ | ⟨_, _, _, _, _, rfl⟩⟩ := first_of_stopped last <;> cases working

/-- Every step of a scan is in its trace. -/
theorem mem_trace_of_reaches (reaches : scanner.Reaches table middle)
    (moved : middle.step table = .moved lexeme after) :
    (lexeme, after) ∈ (scanner.trace table).lexemes := by
  induction reaches using Reaches.head_induction with
  | working => exact (first_of_moved moved).1
  | here =>
    rw [trace_of_moved moved]
    exact List.mem_cons_self
  | moved step _ ih =>
    rw [trace_of_moved step]
    exact List.mem_cons_of_mem _ ih

/-- Of two scans that one scan becomes one becomes the other. -/
theorem Reaches.total (one : scanner.Reaches table middle) (two : scanner.Reaches table after) :
    middle.Reaches table after ∨ after.Reaches table middle := by
  induction one with
  | here => exact .inl two
  | moved _ moved ih =>
    rcases ih with later | before
    · rcases later.cases_head with rfl | ⟨_, _, moved', later⟩ | ⟨_, _, stopped, _⟩
      · exact .inr (.moved .here moved)
      · cases moved.symm.trans moved'
        exact .inl later
      · cases moved.symm.trans stopped
    · exact .inr (before.moved moved)
  | stopped _ stopped ih =>
    rcases ih with later | before
    · rcases later.cases_head with rfl | ⟨_, _, moved, _⟩ | ⟨_, _, stopped', later⟩
      · exact .inr (.stopped .here stopped)
      · cases stopped.symm.trans moved
      · cases stopped.symm.trans stopped'
        exact .inl later
    · exact .inr (before.stopped stopped)

/-- The second scan stands further down the same text. -/
def Onward (scanner after : Scanner) : Prop :=
  ∃ taken, scanner.rest = taken ++ after.rest ∧ after.position = scanner.position + byteCount taken

theorem Onward.refl (scanner : Scanner) : scanner.Onward scanner := ⟨[], rfl, rfl⟩

theorem Onward.trans (one : scanner.Onward middle) (two : middle.Onward after) :
    scanner.Onward after := by
  obtain ⟨taken, split, place⟩ := one
  obtain ⟨more, split', place'⟩ := two
  refine ⟨taken ++ more, ?_, ?_⟩
  · rw [split, split', List.append_assoc]
  · rw [place', place, byteCount_append, Nat.add_assoc]

theorem Onward.bytes (onward : scanner.Onward after) :
    after.position + byteCount after.rest = scanner.position + byteCount scanner.rest := by
  obtain ⟨taken, split, place⟩ := onward
  rw [split, byteCount_append, place, Nat.add_assoc]

theorem Onward.position_le (onward : scanner.Onward after) : scanner.position ≤ after.position := by
  obtain ⟨taken, _, place⟩ := onward
  rw [place]
  exact Nat.le_add_right _ _

theorem Onward.length_le (onward : scanner.Onward after) :
    after.rest.length ≤ scanner.rest.length := by
  obtain ⟨taken, split, _⟩ := onward
  rw [split, List.length_append]
  exact Nat.le_add_left _ _

/-- A lexeme spans what its step took, which is not empty. -/
theorem onward_of_moved (moved : scanner.step table = .moved lexeme after) :
    scanner.Onward after ∧ lexeme.offset = scanner.position ∧ lexeme.stop = after.position ∧
      lexeme.offset < lexeme.stop := by
  obtain ⟨_, rule, matched, entered, first, _, rfl, rfl⟩ := first_of_moved moved
  obtain ⟨_, accepted, positive⟩ := firstMatch_eq_some first
  obtain ⟨taken, split, bytes⟩ := Matcher.splits accepted
  exact ⟨⟨taken, split, congrArg _ bytes⟩, rfl, rfl, Nat.lt_add_of_pos_right positive⟩

theorem onward_of_stopped (stopped : scanner.step table = .stopped error after) :
    scanner.Onward after := by
  obtain ⟨_, _, ⟨_, _, rfl⟩ | ⟨rule, matched, first, _, _, rfl⟩⟩ := first_of_stopped stopped
  · exact .refl scanner
  · obtain ⟨taken, split, bytes⟩ := Matcher.splits (firstMatch_eq_some first).2.1
    exact ⟨taken, split, congrArg _ bytes⟩

theorem Reaches.onward (reaches : scanner.Reaches table after) : scanner.Onward after := by
  induction reaches with
  | here => exact .refl scanner
  | moved _ moved ih => exact ih.trans (onward_of_moved moved).1
  | stopped _ stopped ih => exact ih.trans (onward_of_stopped stopped)

/-- Two scans that one scan becomes and that both work are told apart by their positions. -/
theorem Reaches.of_position_le (one : scanner.Reaches table middle)
    (two : scanner.Reaches table after) (working : middle.failed = false)
    (less : middle.position ≤ after.position) : middle.Reaches table after := by
  rcases one.total two with later | before
  · exact later
  · by_cases same : after = middle
    · exact same ▸ .here
    · obtain ⟨_, next, moved, later⟩ := before.exists_moved working same
      obtain ⟨_, begins, ends, positive⟩ := onward_of_moved moved
      obtain ⟨_, _, place⟩ := later.onward
      omega

/-- A scan that works and has nothing more behind it is the same one. -/
theorem Reaches.eq_of_rest (reaches : scanner.Reaches table after) (working : after.failed = false)
    (rest : scanner.rest = after.rest) : scanner = after := by
  by_contra other
  obtain ⟨_, middle, moved, later⟩ := reaches.exists_moved working other
  have less := length_rest_lt_of_step moved
  rw [rest] at less
  exact Nat.not_le_of_lt less later.onward.length_le

def past (taken rest : List Char) (scanner : Scanner) : Scanner :=
  { scanner with rest, position := scanner.position + byteCount taken }

theorem past_past (scanner : Scanner) (first second rest : List Char) :
    (scanner.past first (second ++ rest)).past second rest = scanner.past (first ++ second) rest := by
  rw [past, past, past, byteCount_append, Nat.add_assoc]

theorem append_inj_of_byteCount {first second front behind : List Char}
    (same : first ++ second = front ++ behind) (count : byteCount first = byteCount front) :
    first = front ∧ second = behind := by
  have begins : first = front := by
    rw [← firstBytes_append first second, ← firstBytes_append front behind, count, same]
  exact ⟨begins, List.append_cancel_left (begins ▸ same)⟩

/-- Of two beginnings of a text the longer one goes on from the shorter one. -/
theorem append_split_of_byteCount {first second front behind : List Char}
    (same : first ++ second = front ++ behind) (less : byteCount first ≤ byteCount front) :
    ∃ middle, front = first ++ middle ∧ second = middle ++ behind := by
  rcases List.append_eq_append_iff.1 same with ⟨middle, rfl, rest⟩ | ⟨middle, rfl, rest⟩
  · exact ⟨middle, rfl, rest⟩
  · have none : middle = [] := by
      by_contra some
      have positive := byteCount_pos some
      rw [byteCount_append] at less
      omega
    subst none
    exact ⟨[], (List.append_nil _).symm ▸ (List.append_nil _).symm, rest.symm⟩

/-- The scan stands behind as many bytes of the text as its position says. -/
def Stands (text : String) (scanner : Scanner) : Prop :=
  ∃ passed, text.toList = passed ++ scanner.rest ∧ scanner.position = byteCount passed

theorem Reaches.stands {text : String} (reaches : (start text).Reaches table after) :
    after.Stands text := by
  obtain ⟨passed, split, place⟩ := reaches.onward
  exact ⟨passed, split, place.trans (Nat.zero_add _)⟩

theorem Stands.past {text : String} {taken rest : List Char} (stands : scanner.Stands text)
    (split : scanner.rest = taken ++ rest) : (scanner.past taken rest).Stands text := by
  obtain ⟨passed, whole, place⟩ := stands
  refine ⟨passed ++ taken, ?_, ?_⟩
  · rw [whole, split, List.append_assoc]
    rfl
  · rw [byteCount_append, ← place]
    rfl

theorem Stands.rest_eq {front behind : String} (stands : scanner.Stands (front ++ behind))
    (place : scanner.position = front.utf8ByteSize) : scanner.rest = behind.toList := by
  obtain ⟨passed, split, bytes⟩ := stands
  rw [String.toList_append] at split
  have count : byteCount front.toList = byteCount passed := by
    rw [byteCount_toList, ← place, bytes]
  exact (append_inj_of_byteCount split count).2.symm

/-- Where a scan stands is known from what remains. -/
theorem Stands.eq {text : String} (stands : scanner.Stands text) (stands' : after.Stands text)
    (rest : after.rest = scanner.rest) (entered : after.entered = scanner.entered)
    (failed : after.failed = scanner.failed) : after = scanner := by
  obtain ⟨passed, split, place⟩ := stands
  obtain ⟨passed', split', place'⟩ := stands'
  rw [split, rest] at split'
  cases List.append_cancel_right split'
  cases scanner
  cases after
  cases rest
  cases entered
  cases failed
  cases place
  cases place'
  rfl

end Scanner

end VerilogInterface
