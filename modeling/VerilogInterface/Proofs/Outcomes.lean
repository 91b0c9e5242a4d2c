import Mathlib.Data.List.Forall2
import VerilogInterface.Proofs.Preference

/-! All the ways of matching, in the order in which a search tries them. A search gives what the
first of them gives whose continuation succeeds, and it passes over no way that the pattern has. -/

namespace VerilogInterface.Pattern

open Text

/-- Where the rounds of a step can end, as many rounds as possible first. -/
def roundOutcomes (step : Cursor → List Cursor) : Nat → Cursor → List Cursor
  | 0, cursor => [cursor]
  | bound + 1, cursor =>
    ((step cursor).filter (cursor.taken < ·.taken)).flatMap (roundOutcomes step bound) ++ [cursor]

/-- Where a match can end, the preferred end first. -/
def outcomes : Pattern → Cursor → List Cursor
  | .nothing, cursor => [cursor]
  | .one accept, cursor =>
    match cursor.rest with
    | [] => []
    | character :: rest => if accept character then [cursor.advance character rest] else []
  | .literal characters, cursor => (cursor.literal? characters).toList
  | .most accept, cursor => cursor.furthestFirst accept cursor.rest []
  | .fewest accept, cursor => (cursor.furthestFirst accept cursor.rest []).reverse
  | .andThen first second, cursor => (first.outcomes cursor).flatMap second.outcomes
  | .orElse first second, cursor => first.outcomes cursor ++ second.outcomes cursor
  | .rounds body, cursor => roundOutcomes body.outcomes cursor.rest.length cursor
  | .capture index body, cursor => (body.outcomes cursor).map (·.remember index cursor)
  | .wordEdge, cursor => if cursor.atWordEdge then [cursor] else []
  | .textEnd, cursor => if cursor.rest.isEmpty then [cursor] else []

variable {pattern body first second : Pattern} {cursor next last : Cursor}
  {continuation : Cursor → Option Cursor} {taken rest characters : List Char} {writes : Writes}
  {accept : Char → Bool}

theorem findSome?_flatMap {others : Cursor → List Cursor} (cursors : List Cursor) :
    (cursors.flatMap others).findSome? continuation =
      cursors.findSome? fun next => (others next).findSome? continuation := by
  induction cursors with
  | nil => rfl
  | cons cursor cursors ih =>
    rw [List.flatMap_cons, List.findSome?_append, ih, List.findSome?_cons]
    cases (others cursor).findSome? continuation <;> rfl

theorem findSome?_filter {keep : Cursor → Bool} (cursors : List Cursor) :
    (cursors.filter keep).findSome? continuation =
      cursors.findSome? fun next => if keep next then continuation next else none := by
  induction cursors with
  | nil => rfl
  | cons cursor cursors ih =>
    rw [List.filter_cons, List.findSome?_cons]
    cases keep cursor with
    | false => exact ih
    | true => simp only [if_true, List.findSome?_cons, ih]

namespace Cursor

theorem furthestFirst_append (cursor : Cursor) (characters : List Char) (passed : List Cursor) :
    cursor.furthestFirst accept characters passed =
      cursor.furthestFirst accept characters [] ++ passed := by
  induction characters generalizing cursor passed with
  | nil => rfl
  | cons character characters ih =>
    rw [furthestFirst, furthestFirst]
    split
    · rw [ih, ih _ [cursor], List.append_assoc]
      rfl
    · rfl

theorem furthestFirst_cons (cursor : Cursor) (character : Char) (rest : List Char) :
    cursor.furthestFirst accept (character :: rest) [] =
      (if accept character then (cursor.advance character rest).furthestFirst accept rest []
        else []) ++ [cursor] := by
  rw [furthestFirst]
  split
  · rw [furthestFirst_append]
  · rfl

theorem findSome?_reverse_furthestFirst (cursor : Cursor) (characters : List Char) :
    (cursor.furthestFirst accept characters []).reverse.findSome? continuation =
      cursor.nearestFirst accept continuation characters := by
  induction characters generalizing cursor with
  | nil =>
    rw [furthestFirst, nearestFirst, List.reverse_singleton, List.findSome?_singleton]
  | cons character characters ih =>
    rw [furthestFirst_cons, nearestFirst, List.reverse_append, List.findSome?_append,
      List.reverse_singleton, List.findSome?_singleton]
    cases continuation cursor with
    | some last => rfl
    | none =>
      rw [Option.none_or]
      split
      · exact ih _
      · rfl

end Cursor

private theorem findSome?_roundOutcomes
    (same : ∀ cursor continuation,
      (body.outcomes cursor).findSome? continuation = body.search cursor continuation)
    (bound : Nat) (cursor : Cursor) :
    (roundOutcomes body.outcomes bound cursor).findSome? continuation =
      searchRounds body.search bound cursor continuation := by
  induction bound generalizing cursor with
  | zero => rw [roundOutcomes, searchRounds, List.findSome?_singleton]
  | succ bound ih =>
    rw [roundOutcomes, searchRounds, List.findSome?_append, findSome?_flatMap, findSome?_filter,
      same, List.findSome?_singleton]
    simp only [ih, decide_eq_true_eq]
    split <;> simp_all

/-- A search tries the outcomes in their order. -/
theorem findSome?_outcomes (pattern : Pattern) (cursor : Cursor)
    (continuation : Cursor → Option Cursor) :
    (pattern.outcomes cursor).findSome? continuation = pattern.search cursor continuation := by
  induction pattern generalizing cursor continuation with
  | nothing => rw [outcomes, search, List.findSome?_singleton]
  | one accept =>
    rw [outcomes, search]
    cases cursor.rest with
    | nil => rfl
    | cons character rest =>
      by_cases accepted : accept character = true
      · simp only [accepted, if_true, List.findSome?_singleton]
      · simp only [accepted]
        rfl
  | literal characters =>
    rw [outcomes, search]
    cases cursor.literal? characters with
    | none => rfl
    | some next => exact List.findSome?_singleton
  | most accept => rfl
  | fewest accept => exact cursor.findSome?_reverse_furthestFirst cursor.rest
  | andThen first second ihFirst ihSecond =>
    rw [outcomes, search, findSome?_flatMap, ihFirst]
    simp only [ihSecond]
  | orElse first second ihFirst ihSecond =>
    rw [outcomes, search, List.findSome?_append, ihFirst, ihSecond]
    cases first.search cursor continuation <;> rfl
  | rounds body ih => exact findSome?_roundOutcomes ih _ cursor
  | capture index body ih =>
    rw [outcomes, search, List.findSome?_map, ih]
    rfl
  | wordEdge =>
    rw [outcomes, search]
    split
    · rw [List.findSome?_singleton]
    · rfl
  | textEnd =>
    rw [outcomes, search]
    split
    · rw [List.findSome?_singleton]
    · rfl

/-- Every outcome is the end of a match. -/
theorem outcome_takes (reached : next ∈ pattern.outcomes cursor) :
    ∃ taken rest writes, pattern.Takes cursor.previous taken rest writes ∧
      cursor.Moves taken rest writes next := by
  classical
  have some : ((pattern.outcomes cursor).findSome? fun other =>
      if other = next then some other else none).isSome := by
    rw [List.findSome?_isSome_iff]
    exact ⟨next, reached, by rw [if_pos rfl]; rfl⟩
  obtain ⟨last, found⟩ := Option.isSome_iff_exists.1 some
  rw [findSome?_outcomes] at found
  obtain ⟨taken, rest, writes, other, takes, moves, succeeds⟩ := search_takes found
  split at succeeds
  · next same => exact ⟨taken, rest, writes, takes, same ▸ moves⟩
  · contradiction

theorem outcome_ahead (reached : next ∈ pattern.outcomes cursor) : cursor.Ahead next := by
  obtain ⟨taken, rest, writes, _, moves⟩ := outcome_takes reached
  exact ⟨taken, moves.source.trans (by rw [moves.rest]), moves.bytes⟩

/-- An outcome with something taken has fewer characters before it. -/
theorem length_rest_lt_of_outcome (reached : next ∈ pattern.outcomes cursor)
    (onward : cursor.taken < next.taken) : next.rest.length < cursor.rest.length := by
  obtain ⟨taken, split, bytes⟩ := outcome_ahead reached
  cases taken with
  | nil =>
    rw [bytes] at onward
    exact (Nat.lt_irrefl _ onward).elim
  | cons character taken =>
    rw [split, List.length_append, List.length_cons]
    omega

theorem taken_lt_of_outcome (reached : next ∈ pattern.outcomes cursor)
    (fewer : next.rest.length < cursor.rest.length) : cursor.taken < next.taken := by
  obtain ⟨taken, split, bytes⟩ := outcome_ahead reached
  cases taken with
  | nil =>
    rw [split] at fewer
    exact (Nat.lt_irrefl _ fewer).elim
  | cons character taken =>
    have positive := character.utf8Size_pos
    rw [bytes, byteCount]
    omega

private theorem roundOutcomes_of_nil (none : cursor.rest = []) (bound : Nat) :
    roundOutcomes body.outcomes bound cursor = [cursor] := by
  cases bound with
  | zero => rfl
  | succ bound =>
    have refused : (body.outcomes cursor).filter (cursor.taken < ·.taken) = [] := by
      rw [List.filter_eq_nil_iff]
      intro next reached onward
      have fewer := length_rest_lt_of_outcome reached (of_decide_eq_true onward)
      rw [none] at fewer
      contradiction
    rw [roundOutcomes, refused]
    rfl

/-- Since each round takes something, any bound will do that is as large as what remains. -/
private theorem roundOutcomes_eq {bound other : Nat} (enough : cursor.rest.length ≤ bound)
    (enough' : cursor.rest.length ≤ other) :
    roundOutcomes body.outcomes bound cursor = roundOutcomes body.outcomes other cursor := by
  induction bound generalizing cursor other with
  | zero =>
    have none := List.eq_nil_of_length_eq_zero (Nat.le_zero.1 enough)
    rw [roundOutcomes_of_nil none, roundOutcomes_of_nil none]
  | succ bound ih =>
    cases other with
    | zero =>
      have none := List.eq_nil_of_length_eq_zero (Nat.le_zero.1 enough')
      rw [roundOutcomes_of_nil none, roundOutcomes_of_nil none]
    | succ other =>
      refine congrArg (· ++ [cursor]) (List.flatMap_congr fun next reached => ?_)
      obtain ⟨reached, onward⟩ := List.mem_filter.1 reached
      have fewer := length_rest_lt_of_outcome reached (of_decide_eq_true onward)
      exact ih (by omega) (by omega)

/-- A round and then any rounds, if it takes something; finally no round at all. -/
theorem outcomes_rounds (body : Pattern) (cursor : Cursor) :
    (Pattern.rounds body).outcomes cursor =
      ((body.outcomes cursor).filter (cursor.taken < ·.taken)).flatMap
        (Pattern.rounds body).outcomes ++ [cursor] := by
  have further : roundOutcomes body.outcomes cursor.rest.length cursor =
      roundOutcomes body.outcomes (cursor.rest.length + 1) cursor :=
    roundOutcomes_eq (Nat.le_refl _) (Nat.le_succ _)
  rw [outcomes, further, roundOutcomes]
  refine congrArg (· ++ [cursor]) (List.flatMap_congr fun next reached => ?_)
  obtain ⟨reached, onward⟩ := List.mem_filter.1 reached
  have fewer := length_rest_lt_of_outcome reached (of_decide_eq_true onward)
  exact roundOutcomes_eq (Nat.le_of_lt fewer) (Nat.le_refl _)

theorem search_rounds (body : Pattern) (cursor : Cursor) (continuation : Cursor → Option Cursor) :
    (Pattern.rounds body).search cursor continuation =
      (body.search cursor fun next =>
        if cursor.taken < next.taken then (Pattern.rounds body).search next continuation
        else none).or (continuation cursor) := by
  rw [← findSome?_outcomes, outcomes_rounds, List.findSome?_append, findSome?_flatMap,
    findSome?_filter, List.findSome?_singleton, findSome?_outcomes]
  simp only [findSome?_outcomes, decide_eq_true_eq]

def unfailing : Pattern → Bool
  | .nothing | .most _ | .fewest _ | .rounds _ => true
  | .andThen first second => first.unfailing && second.unfailing
  | .orElse first second => first.unfailing || second.unfailing
  | .capture _ body => body.unfailing
  | _ => false

theorem mem_furthestFirst_self (accept : Char → Bool) (cursor : Cursor) (rest : List Char) :
    cursor ∈ cursor.furthestFirst accept rest [] := by
  cases rest with
  | nil => exact List.mem_singleton_self _
  | cons character rest =>
    rw [Cursor.furthestFirst_cons]
    exact List.mem_append_right _ (List.mem_singleton_self _)

theorem outcomes_ne_nil (unfailing : pattern.unfailing = true) (cursor : Cursor) :
    pattern.outcomes cursor ≠ [] := by
  induction pattern generalizing cursor with
  | nothing => exact List.cons_ne_nil _ _
  | most accept => exact List.ne_nil_of_mem (mem_furthestFirst_self _ _ _)
  | fewest accept =>
    exact List.ne_nil_of_mem (List.mem_reverse.2 (mem_furthestFirst_self _ _ _))
  | rounds body _ =>
    rw [outcomes_rounds]
    exact List.append_ne_nil_of_right_ne_nil _ (List.cons_ne_nil _ _)
  | andThen first second ihFirst ihSecond =>
    obtain ⟨left, right⟩ := (Bool.and_eq_true _ _).mp unfailing
    obtain ⟨next, others, found⟩ := List.exists_cons_of_ne_nil (ihFirst left cursor)
    rw [outcomes, found, List.flatMap_cons]
    exact List.append_ne_nil_of_left_ne_nil (ihSecond right next) _
  | orElse first second ihFirst ihSecond =>
    rcases (Bool.or_eq_true _ _).mp unfailing with left | right
    · exact List.append_ne_nil_of_left_ne_nil (ihFirst left cursor) _
    · exact List.append_ne_nil_of_right_ne_nil _ (ihSecond right cursor)
  | capture index body ih =>
    rw [outcomes, Ne, List.map_eq_nil_iff]
    exact ih unfailing cursor
  | _ => contradiction

theorem search_orElse (first second : Pattern) (cursor : Cursor)
    (continuation : Cursor → Option Cursor) :
    (Pattern.orElse first second).search cursor continuation =
      (first.search cursor continuation).or (second.search cursor continuation) := by
  rw [search]
  cases first.search cursor continuation <;> rfl

theorem mem_furthestFirst (accepted : ∀ character ∈ taken, accept character = true)
    (source : cursor.rest = taken ++ rest) :
    ∃ next ∈ cursor.furthestFirst accept cursor.rest [], next.rest = rest := by
  rw [source]
  induction taken generalizing cursor with
  | nil =>
    rw [List.nil_append] at source ⊢
    exact ⟨cursor, mem_furthestFirst_self accept cursor rest, source⟩
  | cons character taken ih =>
    obtain ⟨here, later⟩ := List.forall_mem_cons.1 accepted
    have onward : (cursor.advance character (taken ++ rest)).rest = taken ++ rest := rfl
    obtain ⟨next, reached, same⟩ := ih later onward
    refine ⟨next, ?_, same⟩
    rw [List.cons_append, Cursor.furthestFirst_cons, if_pos here]
    exact List.mem_append_left _ reached

/-- What stands before an outcome is told by what remains there. -/
theorem outcome_previous (reached : next ∈ pattern.outcomes cursor) (same : next.rest = rest)
    (source : cursor.rest = taken ++ rest) : next.previous = taken.getLast?.or cursor.previous := by
  obtain ⟨taken', rest', writes, _, moves⟩ := outcome_takes reached
  cases same.symm.trans moves.rest
  rw [moves.previous, List.append_cancel_right (source.symm.trans moves.source)]

/-- Every match has an outcome where it ends. -/
theorem Takes.exists_outcome {previous : Option Char}
    (takes : pattern.Takes previous taken rest writes) (behind : cursor.previous = previous)
    (source : cursor.rest = taken ++ rest) : ∃ next ∈ pattern.outcomes cursor, next.rest = rest := by
  induction takes generalizing cursor with
  | nothing => exact ⟨cursor, List.mem_singleton_self _, source⟩
  | @one accept character previous rest accepted =>
    have source : cursor.rest = character :: rest := source
    refine ⟨cursor.advance character rest, ?_, rfl⟩
    simp only [outcomes, source, accepted, if_true, List.mem_singleton]
  | @literal characters previous rest =>
    obtain ⟨next, moves, prefers⟩ := Prefers.literal cursor behind source
    have found := prefers some next rfl
    rw [← findSome?_outcomes] at found
    obtain ⟨other, reached, same⟩ := List.exists_of_findSome?_eq_some found
    cases same
    exact ⟨next, reached, moves.rest⟩
  | most accepted => exact mem_furthestFirst accepted source
  | fewest accepted =>
    obtain ⟨next, reached, same⟩ := mem_furthestFirst accepted source
    exact ⟨next, List.mem_reverse.2 reached, same⟩
  | andThen one two ihOne ihTwo =>
    rw [List.append_assoc] at source
    obtain ⟨middle, reached, same⟩ := ihOne behind source
    have before := outcome_previous reached same source
    rw [behind] at before
    obtain ⟨next, reached', same'⟩ := ihTwo before same
    exact ⟨next, List.mem_flatMap.2 ⟨middle, reached, reached'⟩, same'⟩
  | former _ ih =>
    obtain ⟨next, reached, same⟩ := ih behind source
    exact ⟨next, List.mem_append_left _ reached, same⟩
  | latter _ ih =>
    obtain ⟨next, reached, same⟩ := ih behind source
    exact ⟨next, List.mem_append_right _ reached, same⟩
  | noRound =>
    refine ⟨cursor, ?_, source⟩
    rw [outcomes_rounds]
    exact List.mem_append_right _ (List.mem_singleton_self _)
  | @round body previous taken more rest writes others one again ihOne ihAgain =>
    rw [List.append_assoc] at source
    cases taken with
    | nil => exact ihAgain behind source
    | cons character taken =>
      obtain ⟨middle, reached, same⟩ := ihOne behind source
      have before := outcome_previous reached same source
      rw [behind] at before
      obtain ⟨next, reached', same'⟩ := ihAgain before same
      have onward : cursor.taken < middle.taken := by
        refine taken_lt_of_outcome reached ?_
        simp only [source, same, List.length_append, List.length_cons]
        omega
      refine ⟨next, ?_, same'⟩
      rw [outcomes_rounds]
      exact List.mem_append_left _ (List.mem_flatMap.2
        ⟨middle, List.mem_filter.2 ⟨reached, decide_eq_true onward⟩, reached'⟩)
  | capture _ ih =>
    obtain ⟨next, reached, same⟩ := ih behind source
    exact ⟨_, List.mem_map_of_mem reached, same⟩
  | @wordEdge previous rest edge =>
    cases behind
    cases source
    refine ⟨cursor, ?_, rfl⟩
    rw [outcomes, if_pos (cursor.atWordEdge_iff.2 edge)]
    exact List.mem_singleton_self _
  | textEnd =>
    refine ⟨cursor, ?_, source⟩
    rw [outcomes, source]
    exact List.mem_singleton_self _

end VerilogInterface.Pattern
