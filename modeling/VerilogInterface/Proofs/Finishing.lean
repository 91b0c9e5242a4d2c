import VerilogInterface.Proofs.AnsiScan
import VerilogInterface.Proofs.Confinement

/-! Scans that finish a module. As long as the end of the module is still to come, a step of the scan
does not depend on what stands behind the text, because any match that could look so far would keep
the module from ending. -/

namespace VerilogInterface

open Text Verilog

/-- The scan comes to a last token, which ends a module and leaves only the gap. -/
inductive Scanner.Finishes (gap : List Char) : Scanner → Prop where
  | last {scanner after : Scanner} {lexeme : Lexeme}
      (moved : scanner.step table = .moved lexeme after) (stop : lexeme.action = some .moduleEnd)
      (left : after.rest = gap) : Finishes gap scanner
  | step {scanner after : Scanner} {lexeme : Lexeme}
      (moved : scanner.step table = .moved lexeme after) (onward : Finishes gap after) :
      Finishes gap scanner

def Scanner.prolonged (extra : List Char) (scanner : Scanner) : Scanner :=
  { scanner with rest := scanner.rest ++ extra }

structure Finished (gap characters : List Char) : Prop where
  blank : ∀ character ∈ gap, isBlank character = true
  last : gap.getLast? = some '\n'
  noFunction : ¬ "function".toList <:+: characters
  noTask : ¬ "task".toList <:+: characters

variable {scanner after : Scanner} {lexeme : Lexeme} {gap extra characters : List Char}
  {rule : Rule} {found : Pattern.Match}

theorem Finished.suffix {behind : List Char} (finished : Finished gap characters)
    (suffix : behind <:+ characters) : Finished gap behind where
  blank := finished.blank
  last := finished.last
  noFunction := fun inside => finished.noFunction (inside.trans suffix.isInfix)
  noTask := fun inside => finished.noTask (inside.trans suffix.isInfix)

theorem pattern_of_moduleEnd {state : State} (member : rule ∈ table state)
    (ends : rule.action = some .moduleEnd) : rule.pattern = moduleEnd := by
  have same : rulesFor .moduleEnd = List.replicate 1 ⟨moduleEnd, some .moduleEnd, some .pop⟩ := rfl
  rw [eq_of_rulesFor same member ends]

namespace Scanner

/-- The last token of the scan is the closing keyword in front of the gap. -/
theorem Finishes.exists_split (finishes : scanner.Finishes gap) :
    ∃ before, scanner.rest = before ++ "endmodule".toList ++ gap := by
  induction finishes with
  | last moved stop left =>
    obtain ⟨rule, taken, _, moves⟩ := exists_movesBy moved
    have takes := moves.takes
    rw [pattern_of_moduleEnd moves.listed (moves.action.trans stop)] at takes
    obtain ⟨keyword, edge, _, _, rfl, _, one, two⟩ := Pattern.Takes.of_andThen takes
    cases one.of_literal
    cases two with
    | wordEdge =>
      have split := moves.source
      rw [List.append_nil, left] at split
      exact ⟨[], split⟩
  | step moved _ ih =>
    obtain ⟨_, taken, _, moves⟩ := exists_movesBy moved
    obtain ⟨before, behind⟩ := ih
    exact ⟨taken ++ before, by rw [moves.source, behind]; simp⟩

theorem Finishes.remains (finishes : scanner.Finishes gap)
    (finished : Finished gap characters) : Remains gap scanner.rest := by
  refine ⟨finishes.exists_split, finished.blank, ?_⟩
  obtain ⟨before, split⟩ := finishes.exists_split
  have some : gap ≠ [] := List.ne_nil_of_mem (List.mem_of_getLast? finished.last)
  rw [split, List.getLast?_append_of_ne_nil _ some, finished.last]

/-- A match behind which a state is no longer entered leaves it. -/
theorem pop_of_enters {before behind : List State} {state : State}
    (enters : rule.enters before = some behind) (inside : state ∈ before)
    (outside : state ∉ behind) : rule.transition = some .pop ∧ before.headD .root = state := by
  unfold Rule.enters at enters
  split at enters
  · cases enters
    contradiction
  · cases enters
    exact (outside (List.mem_cons_of_mem _ inside)).elim
  · contradiction
  · next leaves =>
    cases enters
    exact ⟨leaves, ((List.mem_cons.1 inside).resolve_right outside).symm⟩

/-- A state that the scan is to leave needs a match that leaves it. -/
theorem Finishes.exists_mark {state : State} {mark : Char → Bool}
    (finishes : scanner.Finishes gap) (nested : Nested scanner.entered)
    (inside : state ∈ scanner.entered) (inner : state ≠ .module)
    (leaves : ∀ rule ∈ table state, rule.transition = some .pop → ∀ taken rest writes,
      rule.pattern.Takes none taken rest writes → ∃ character ∈ taken, mark character = true) :
    ∃ character ∈ scanner.rest, mark character = true := by
  induction finishes with
  | @last scanner after lexeme moved stop _ =>
    have shift := shift_of_step nested moved
    rw [stop] at shift
    generalize scanner.entered = stack at shift inside
    generalize after.entered = outer at shift
    cases shift with
    | closeModule => exact (inner (List.mem_singleton.1 inside)).elim
    | aside _ kind => simp at kind
  | @step scanner after lexeme moved _ ih =>
    obtain ⟨rule, taken, writes, moves⟩ := exists_movesBy moved
    rw [moves.source]
    by_cases still : state ∈ after.entered
    · obtain ⟨character, later, marked⟩ := ih (nested.shift (shift_of_step nested moved)) still
      exact ⟨character, List.mem_append_right _ later, marked⟩
    · obtain ⟨pops, here⟩ := pop_of_enters moves.enters inside still
      have listed := moves.listed
      rw [Scanner.state, here] at listed
      obtain ⟨character, now, marked⟩ := leaves rule listed pops taken _ writes moves.takes
      exact ⟨character, List.mem_append_left _ now, marked⟩

/-- Every list ends with a parenthesis or a semicolon. -/
theorem Finishes.listed {state : State} (finishes : scanner.Finishes gap)
    (nested : Nested scanner.entered) (inside : state ∈ scanner.entered)
    (list : state = .parameters ∨ state = .modulePort) :
    ')' ∈ scanner.rest ∨ ';' ∈ scanner.rest := by
  have inner : state ≠ .module := by rcases list with rfl | rfl <;> nofun
  have ends : (table state).filter (·.transition == some .pop) = [⟨listEnd, none, some .pop⟩] := by
    rcases list with rfl | rfl <;> rfl
  have leaves : ∀ rule ∈ table state, rule.transition = some .pop → ∀ taken rest writes,
      rule.pattern.Takes none taken rest writes →
        ∃ character ∈ taken, (character == ')' || character == ';') = true := by
    intro rule member pops taken rest writes takes
    have only : rule ∈ (table state).filter (·.transition == some .pop) :=
      List.mem_filter.2 ⟨member, beq_iff_eq.2 pops⟩
    rw [ends, List.mem_singleton] at only
    cases only
    obtain ⟨_, _, _, _, rfl, _, _, mark⟩ := Pattern.Takes.of_andThen takes
    cases mark with
    | one accepted => exact ⟨_, List.mem_append_right _ (List.mem_singleton_self _), accepted⟩
  obtain ⟨character, member, marked⟩ := finishes.exists_mark nested inside inner leaves
  rw [Bool.or_eq_true, beq_iff_eq, beq_iff_eq] at marked
  rcases marked with rfl | rfl
  · exact .inl member
  · exact .inr member

/-- Every comment over lines ends with a star and a slash. -/
theorem Finishes.commented (finishes : scanner.Finishes gap) (nested : Nested scanner.entered)
    (inside : .blockComment ∈ scanner.entered) : '*' ∈ scanner.rest := by
  have ends : (table .blockComment).filter (·.transition == some .pop) =
      [⟨commentEnd, some .commentEnd, some .pop⟩] := rfl
  have leaves : ∀ rule ∈ table .blockComment, rule.transition = some .pop → ∀ taken rest writes,
      rule.pattern.Takes none taken rest writes →
        ∃ character ∈ taken, (character == '*') = true := by
    intro rule member pops taken rest writes takes
    have only : rule ∈ (table .blockComment).filter (·.transition == some .pop) :=
      List.mem_filter.2 ⟨member, beq_iff_eq.2 pops⟩
    rw [ends, List.mem_singleton] at only
    cases only
    cases Pattern.Takes.of_literal takes
    exact ⟨'*', List.mem_cons_self, rfl⟩
  obtain ⟨character, member, marked⟩ := finishes.exists_mark nested inside nofun leaves
  rwa [beq_iff_eq.1 marked] at member

/-- No rule that could be tried looks behind the text, unless with it the module does not end. -/
theorem Finishes.confined (finishes : scanner.Finishes gap) (nested : Nested scanner.entered)
    (finished : Finished gap scanner.rest) :
    ∀ rule ∈ table scanner.state, Confined scanner.rest rule := by
  have remains := finishes.remains finished
  have inside : scanner.state = .root ∨ scanner.state ∈ scanner.entered := by
    rw [Scanner.state]
    cases scanner.entered with
    | nil => exact .inl rfl
    | cons state outer => exact .inr List.mem_cons_self
  cases here : scanner.state with
  | root => exact rootRules_confined remains
  | module => exact moduleRules_confined remains finished.noFunction finished.noTask
  | parameters =>
    rw [here] at inside
    exact parameterRules_confined remains
      (finishes.listed nested (inside.resolve_left (by simp)) (.inl rfl))
  | modulePort =>
    rw [here] at inside
    exact portRules_confined remains
      (finishes.listed nested (inside.resolve_left (by simp)) (.inr rfl))
  | blockComment =>
    rw [here] at inside
    exact commentRules_confined remains (finishes.commented nested (inside.resolve_left (by simp)))

end Scanner

/-- More text behind changes nothing about the first match among confined rules, unless that match
strands. -/
theorem firstMatch_prolonged {rules : List Rule} (confined : ∀ rule ∈ rules, Confined characters rule)
    (first : firstMatch characters rules = some (rule, found)) (some : found.rest ≠ [])
    (free : rule.action = .some .parameterStart → found.rest.head? ≠ .some '[')
    (extra : List Char) :
    firstMatch (characters ++ extra) rules =
      .some (rule, { found with rest := found.rest ++ extra }) := by
  induction rules with
  | nil => contradiction
  | cons candidate rules ih =>
    obtain ⟨here, later⟩ := List.forall_mem_cons.1 confined
    rw [firstMatch_cons] at first ⊢
    rcases here with within | ⟨stranded, matched, positive, stuck⟩
    · rw [within.match?_append]
      cases matched : candidate.pattern.match? characters with
      | none =>
        rw [matched] at first
        exact ih later first
      | some other =>
        rw [matched] at first
        rw [Option.map_some]
        by_cases positive : 0 < other.taken
        · simp only [positive, if_true] at first ⊢
          cases first
          rfl
        · simp only [positive, if_false] at first ⊢
          exact ih later first
    · rw [matched] at first
      simp only [positive, if_true] at first
      cases first
      rcases stuck with ended | ⟨starts, bracket⟩
      · exact (some ended).elim
      · exact (free starts bracket).elim

namespace Scanner

/-- No rule of a parameter list begins with a bracket. -/
theorem head?_ne_bracket (moved : scanner.step table = .moved lexeme after)
    (here : scanner.state = .parameters) : scanner.rest.head? ≠ some '[' := by
  intro bracket
  obtain ⟨_, rule, matched, _, first, _⟩ := first_of_moved moved
  cases remaining : scanner.rest with
  | nil =>
    rw [remaining] at bracket
    contradiction
  | cons character rest =>
    rw [remaining] at bracket
    cases bracket
    have facts : ∀ rule ∈ parameterRules,
        rule.pattern.nullable = false ∧ rule.pattern.begins '[' = false := by decide
    have none := firstMatch_append (bars_of_begins facts rest) []
    rw [here, remaining, table, ← List.append_nil parameterRules, none] at first
    contradiction

theorem Finishes.rest_ne_nil (finishes : scanner.Finishes gap)
    (finished : Finished gap characters) : scanner.rest ≠ [] :=
  List.ne_nil_of_mem (List.mem_of_getLast? (finishes.remains finished).last)

theorem Finishes.head?_ne_bracket (finishes : scanner.Finishes gap)
    (here : scanner.state = .parameters) : scanner.rest.head? ≠ some '[' := by
  cases finishes with
  | last moved _ _ => exact Scanner.head?_ne_bracket moved here
  | step moved _ => exact Scanner.head?_ne_bracket moved here

/-- A step up to the end of the module is the same with more text behind. -/
theorem Finishes.step_prolonged (finishes : scanner.Finishes gap) (nested : Nested scanner.entered)
    (finished : Finished gap scanner.rest) (moved : scanner.step table = .moved lexeme after)
    (onward : after.Finishes gap ∨ lexeme.action = some .moduleEnd ∧ after.rest = gap)
    (extra : List Char) :
    (scanner.prolonged extra).step table = .moved lexeme (after.prolonged extra) := by
  have shift := shift_of_step nested moved
  obtain ⟨working, rule, matched, entered, first, enters, rfl, rfl⟩ := first_of_moved moved
  have more : matched.rest ≠ [] := by
    rcases onward with finishes | ⟨_, left⟩
    · exact finishes.rest_ne_nil finished
    · have some := List.ne_nil_of_mem (List.mem_of_getLast? finished.last)
      rwa [← left] at some
  have free : rule.action = some .parameterStart → matched.rest.head? ≠ some '[' := by
    intro starts
    rcases onward with finishes | ⟨stop, _⟩
    · have opened : entered.headD .root = .parameters := by
        have shift : Shift scanner.entered rule.action entered := shift
        rw [starts] at shift
        generalize scanner.entered = stack at shift
        cases shift with
        | aside _ kind => simp at kind
        | openParameters => rfl
        | moreParameters => rfl
      exact finishes.head?_ne_bracket opened
    · cases starts.symm.trans stop
  have longer := firstMatch_prolonged (finishes.confined nested finished) first more free extra
  have working' : (scanner.prolonged extra).failed = false := working
  exact step_of_first working' longer enters

/-- With more text behind, a scan that finishes a module finds the same tokens up to the module's
end and goes on behind the gap. -/
theorem Finishes.tokens_prolonged (finishes : scanner.Finishes gap)
    (nested : Nested scanner.entered) (finished : Finished gap scanner.rest) (extra : List Char) :
    ∃ (after : Scanner) (passed : List Token), after.failed = false ∧ after.entered = [] ∧
      after.rest = gap ∧
      after.position + byteCount gap = scanner.position + byteCount scanner.rest ∧
      scanner.tokens = passed ++ after.tokens ∧
      (scanner.prolonged extra).tokens = passed ++ (after.prolonged extra).tokens ∧
      (scanner.prolonged extra).ending = (after.prolonged extra).ending := by
  induction finishes with
  | @last scanner after lexeme moved stop left =>
    have longer :=
      (Finishes.last moved stop left).step_prolonged nested finished moved (.inr ⟨stop, left⟩) extra
    obtain ⟨_, taken, _, moves⟩ := exists_movesBy moved
    obtain ⟨more, ends⟩ := tokens_of_moved longer
    refine ⟨after, _, working_of_moved moved, ?_, left, ?_, (tokens_of_moved moved).1, more, ends⟩
    · have shift := shift_of_step nested moved
      rw [stop] at shift
      generalize scanner.entered = stack at shift
      generalize after.entered = outer at shift ⊢
      cases shift with
      | closeModule => rfl
      | aside _ kind => simp at kind
    · rw [moves.source, byteCount_append, moves.position, left, Nat.add_assoc]
  | @step scanner middle lexeme moved onward ih =>
    have longer := (onward.step moved).step_prolonged nested finished moved (.inl onward) extra
    obtain ⟨_, taken, _, moves⟩ := exists_movesBy moved
    obtain ⟨more, ends⟩ := tokens_of_moved longer
    obtain ⟨after, passed, working, outside, left, count, later, moreLater, endsLater⟩ :=
      ih (nested.shift (shift_of_step nested moved)) (finished.suffix ⟨taken, moves.source.symm⟩)
    refine ⟨after, lexeme.token?.toList ++ passed, working, outside, left, ?_, ?_, ?_, ?_⟩
    · rw [count, moves.source, byteCount_append, moves.position, Nat.add_assoc]
    · rw [(tokens_of_moved moved).1, later, List.append_assoc]
    · rw [more, moreLater, List.append_assoc]
    · rw [ends, endsLater]

end Scanner

end VerilogInterface
