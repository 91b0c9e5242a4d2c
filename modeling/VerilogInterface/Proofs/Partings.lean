import VerilogInterface.Proofs.Outcomes

/-! Searches in two texts that part somewhere. Up to there the search of the one text has the same
outcomes in the same order as the search of the other; only beyond can they differ. -/

namespace VerilogInterface

open Text

/-- Two ways for a text to go on. Either both end at once or neither does, and they begin with a
word character both or neither. -/
structure Parting where
  one : List Char
  two : List Char
  ended : one = [] ↔ two = []
  words : two.head?.any isWord = one.head?.any isWord

namespace Pattern

/-- The cursors stand in front of the same characters up to the parting. The second may have come
further down its text, behind other characters. -/
structure Cursor.Beside (parting : Parting) (bytes : Nat) (cursor other : Cursor) : Prop where
  rest : ∃ front, cursor.rest = front ++ parting.one ∧ other.rest = front ++ parting.two
  taken : other.taken = cursor.taken + bytes
  previous : other.previous.any isWord = cursor.previous.any isWord
  groups : other.captures.map captured = cursor.captures.map captured

def earlier (limit : Nat) (cursors : List Cursor) : List Cursor :=
  cursors.filter (limit ≤ ·.rest.length)

def Alike (parting : Parting) (bytes : Nat) (cursor : Cursor) (reached others : List Cursor) :
    Prop :=
  List.Forall₂ (fun next other => cursor.Ahead next ∧ next.Beside parting bytes other)
    (earlier parting.one.length reached) (earlier parting.two.length others)

variable {pattern body first second : Pattern} {cursor further next other : Cursor}
  {parting : Parting} {bytes limit : Nat} {accept : Char → Bool}

theorem earlier_append (one two : List Cursor) :
    earlier limit (one ++ two) = earlier limit one ++ earlier limit two :=
  List.filter_append _ _

theorem earlier_outcomes_of_lt (pattern : Pattern) (short : cursor.rest.length < limit) :
    earlier limit (pattern.outcomes cursor) = [] := by
  rw [earlier, List.filter_eq_nil_iff]
  intro next reached
  obtain ⟨taken, split, _⟩ := outcome_ahead reached
  rw [split, List.length_append] at short
  simp only [decide_eq_true_eq]
  omega

/-- From a cursor that is too far no way leads back. -/
theorem earlier_flatMap (cursors : List Cursor) :
    earlier limit (cursors.flatMap pattern.outcomes) =
      (earlier limit cursors).flatMap fun next => earlier limit (pattern.outcomes next) := by
  induction cursors with
  | nil => rfl
  | cons cursor cursors ih =>
    rw [List.flatMap_cons, earlier_append, ih, earlier, earlier, earlier, List.filter_cons]
    by_cases far : limit ≤ cursor.rest.length
    · rw [if_pos (decide_eq_true far)]
      rfl
    · rw [if_neg (by simpa using far)]
      have none := earlier_outcomes_of_lt pattern (Nat.lt_of_not_le far)
      rw [earlier] at none
      rw [none]
      rfl

namespace Cursor.Beside

theorem advance {front : List Char} (beside : cursor.Beside parting bytes other) (character : Char) :
    (cursor.advance character (front ++ parting.one)).Beside parting bytes
      (other.advance character (front ++ parting.two)) where
  rest := ⟨front, rfl, rfl⟩
  taken := by
    show other.taken + character.utf8Size = cursor.taken + character.utf8Size + bytes
    rw [beside.taken, Nat.add_right_comm]
  previous := rfl
  groups := beside.groups

theorem cases_rest (beside : cursor.Beside parting bytes other) :
    (cursor.rest = parting.one ∧ other.rest = parting.two) ∨
      ∃ character front, cursor.rest = character :: (front ++ parting.one) ∧
        other.rest = character :: (front ++ parting.two) := by
  obtain ⟨front, split, split'⟩ := beside.rest
  cases front with
  | nil => exact .inl ⟨split, split'⟩
  | cons character front => exact .inr ⟨character, front, split, split'⟩

/-- What a capture holds was taken before the texts part. -/
theorem remember (beside : cursor.Beside parting bytes further) (ahead : cursor.Ahead next)
    (beside' : next.Beside parting bytes other) (index : Nat) :
    (next.remember index cursor).Beside parting bytes (other.remember index further) where
  rest := beside'.rest
  taken := beside'.taken
  previous := beside'.previous
  groups := by
    obtain ⟨taken, split, count⟩ := ahead
    obtain ⟨front, rest, rest'⟩ := beside.rest
    obtain ⟨front', onward, onward'⟩ := beside'.rest
    have longer : front = taken ++ front' := by
      rw [rest, onward, ← List.append_assoc] at split
      exact List.append_cancel_right split
    have size : other.taken - further.taken = byteCount taken := by
      rw [beside'.taken, beside.taken, count]
      omega
    have size' : next.taken - cursor.taken = byteCount taken := by
      rw [count, Nat.add_sub_cancel_left]
    have text : captured (some (further.rest, other.taken - further.taken)) =
        captured (some (cursor.rest, next.taken - cursor.taken)) := by
      rw [size, size', rest, rest', longer, List.append_assoc, List.append_assoc, captured,
        captured, Option.map_some, Option.map_some, firstBytes_append, firstBytes_append]
    rw [Cursor.remember, Cursor.remember, List.map_set, List.map_set, beside'.groups, text]

theorem atWordEdge_eq (beside : cursor.Beside parting bytes other) :
    other.atWordEdge = cursor.atWordEdge := by
  have heads : other.rest.head?.any isWord = cursor.rest.head?.any isWord := by
    rcases beside.cases_rest with ⟨here, here'⟩ | ⟨character, front, split, split'⟩
    · rw [here, here', parting.words]
    · rw [split, split', List.head?_cons, List.head?_cons]
  rw [Bool.eq_iff_iff, atWordEdge_iff, atWordEdge_iff, beside.previous, heads]

theorem rest_eq_nil_iff (beside : cursor.Beside parting bytes other) :
    other.rest = [] ↔ cursor.rest = [] := by
  rcases beside.cases_rest with ⟨here, here'⟩ | ⟨character, front, split, split'⟩
  · rw [here, here', parting.ended]
  · simp [split, split']

end Cursor.Beside

namespace Alike

theorem singleton (ahead : cursor.Ahead next) (beside : next.Beside parting bytes other) :
    Alike parting bytes cursor [next] [other] := by
  obtain ⟨front, split, split'⟩ := beside.rest
  have here : parting.one.length ≤ next.rest.length := by
    rw [split, List.length_append]
    omega
  have here' : parting.two.length ≤ other.rest.length := by
    rw [split', List.length_append]
    omega
  rw [Alike, earlier, earlier, List.filter_cons_of_pos (by simpa using here),
    List.filter_cons_of_pos (by simpa using here')]
  exact .cons ⟨ahead, beside⟩ .nil

theorem append {one two one' two' : List Cursor} (left : Alike parting bytes cursor one one')
    (right : Alike parting bytes cursor two two') :
    Alike parting bytes cursor (one ++ two) (one' ++ two') := by
  rw [Alike, earlier_append, earlier_append]
  exact List.rel_append left right

theorem behind {one one' : List Cursor} (ahead : cursor.Ahead next)
    (alike : Alike parting bytes next one one') : Alike parting bytes cursor one one' :=
  List.Forall₂.imp (fun _ _ both => both.imp_left ahead.trans) alike

/-- Beyond the parting there is nothing to compare. -/
theorem beyond {one two : List Cursor} (far : ∀ next ∈ one, next.rest.length < parting.one.length)
    (far' : ∀ other ∈ two, other.rest.length < parting.two.length) :
    Alike parting bytes cursor one two := by
  have none : earlier parting.one.length one = [] := by
    rw [earlier, List.filter_eq_nil_iff]
    intro next member
    have less := far next member
    simp only [decide_eq_true_eq]
    omega
  have none' : earlier parting.two.length two = [] := by
    rw [earlier, List.filter_eq_nil_iff]
    intro next member
    have less := far' next member
    simp only [decide_eq_true_eq]
    omega
  rw [Alike, none, none']
  exact .nil

theorem literal (beside : cursor.Beside parting bytes other) (characters : List Char) :
    Alike parting bytes cursor (cursor.literal? characters).toList
      (other.literal? characters).toList := by
  induction characters generalizing cursor other with
  | nil => exact .singleton (.refl cursor) beside
  | cons expected others ih =>
    rcases beside.cases_rest with ⟨here, here'⟩ | ⟨character, front, split, split'⟩
    · have far {cursor next : Cursor}
          (reached : next ∈ (cursor.literal? (expected :: others)).toList) :
          next.rest.length < cursor.rest.length := by
        obtain ⟨rest, moves⟩ := Cursor.Moves.literal (Option.mem_toList.1 reached)
        rw [moves.rest, moves.source, List.length_append, List.length_cons]
        omega
      exact .beyond (fun next reached => here ▸ far reached) fun next reached => here' ▸ far reached
    · simp only [Cursor.literal?, split, split']
      by_cases same : character = expected
      · rw [if_pos same, if_pos same]
        exact (ih (beside.advance character)).behind (Cursor.ahead_advance split)
      · rw [if_neg same, if_neg same]
        exact .beyond (List.forall_mem_nil _) (List.forall_mem_nil _)

theorem furthestFirst (beside : cursor.Beside parting bytes other) {front : List Char}
    (split : cursor.rest = front ++ parting.one) (split' : other.rest = front ++ parting.two) :
    Alike parting bytes cursor (cursor.furthestFirst accept (front ++ parting.one) [])
      (other.furthestFirst accept (front ++ parting.two) []) := by
  induction front generalizing cursor other with
  | nil =>
    simp only [List.nil_append] at split split' ⊢
    have only {cursor : Cursor} {rest : List Char} (split : cursor.rest = rest) :
        ∃ far, cursor.furthestFirst accept rest [] = far ++ [cursor] ∧
          ∀ next ∈ far, next.rest.length < rest.length := by
      cases rest with
      | nil => exact ⟨[], rfl, nofun⟩
      | cons character rest =>
        refine ⟨_, Cursor.furthestFirst_cons cursor character rest, ?_⟩
        intro next reached
        split at reached
        · have reached : next ∈ (Pattern.most accept).outcomes (cursor.advance character rest) :=
            reached
          obtain ⟨taken, ahead, _⟩ := outcome_ahead reached
          have ahead : rest = taken ++ next.rest := ahead
          rw [ahead, List.length_cons, List.length_append]
          omega
        · cases reached
    obtain ⟨far, same, short⟩ := only split
    obtain ⟨far', same', short'⟩ := only split'
    rw [same, same']
    exact (beyond short short').append (.singleton (.refl cursor) beside)
  | cons character front ih =>
    rw [List.cons_append, List.cons_append, Cursor.furthestFirst_cons, Cursor.furthestFirst_cons]
    refine append ?_ (.singleton (.refl cursor) beside)
    by_cases accepted : accept character = true
    · rw [if_pos accepted, if_pos accepted]
      exact (ih (beside.advance character) rfl rfl).behind (Cursor.ahead_advance split)
    · rw [if_neg accepted, if_neg accepted]
      exact .beyond (List.forall_mem_nil _) (List.forall_mem_nil _)

theorem flatMap {one two : List Cursor} (left : Alike parting bytes cursor one two)
    (right : ∀ next ∈ one, ∀ other, next.Beside parting bytes other →
      Alike parting bytes next (pattern.outcomes next) (pattern.outcomes other)) :
    Alike parting bytes cursor (one.flatMap pattern.outcomes) (two.flatMap pattern.outcomes) := by
  have inside : ∀ next ∈ earlier parting.one.length one, next ∈ one :=
    fun next => List.mem_of_mem_filter
  unfold Alike at left ⊢
  rw [earlier_flatMap, earlier_flatMap]
  generalize earlier parting.one.length one = nexts at left inside
  generalize earlier parting.two.length two = others at left
  induction left with
  | nil => exact .nil
  | @cons next other nexts others both _ ih =>
    obtain ⟨ahead, beside⟩ := both
    obtain ⟨here, later⟩ := List.forall_mem_cons.1 inside
    rw [List.flatMap_cons, List.flatMap_cons]
    exact List.rel_append ((right next here other beside).behind ahead) (ih later)

theorem filter {one two : List Cursor} (beside : cursor.Beside parting bytes other)
    (alike : Alike parting bytes cursor one two) :
    Alike parting bytes cursor (one.filter (cursor.taken < ·.taken))
      (two.filter (other.taken < ·.taken)) := by
  unfold Alike earlier at alike ⊢
  rw [List.filter_comm, @List.filter_comm _ _ _ two]
  refine List.rel_filter ?_ alike
  rintro next further ⟨_, beside'⟩
  simp only [beside.taken, beside'.taken, Nat.add_lt_add_iff_right]

end Alike

private theorem alike_rounds
    (alike : ∀ {cursor other}, cursor.Beside parting bytes other →
      Alike parting bytes cursor (body.outcomes cursor) (body.outcomes other))
    {bound : Nat} (enough : cursor.rest.length ≤ bound) (beside : cursor.Beside parting bytes other) :
    Alike parting bytes cursor ((Pattern.rounds body).outcomes cursor)
      ((Pattern.rounds body).outcomes other) := by
  induction bound generalizing cursor other with
  | zero =>
    have none {cursor : Cursor} (ended : cursor.rest = []) :
        (Pattern.rounds body).outcomes cursor = [cursor] := by
      rw [outcomes_rounds, List.filter_eq_nil_iff.2]
      · rfl
      · intro next reached onward
        have fewer := length_rest_lt_of_outcome reached (of_decide_eq_true onward)
        rw [ended] at fewer
        contradiction
    have ended := List.eq_nil_of_length_eq_zero (Nat.le_zero.1 enough)
    rw [none ended, none (beside.rest_eq_nil_iff.2 ended)]
    exact .singleton (.refl cursor) beside
  | succ bound ih =>
    rw [outcomes_rounds, outcomes_rounds]
    refine .append (.flatMap ((alike beside).filter beside) ?_) (.singleton (.refl cursor) beside)
    intro next member other beside'
    obtain ⟨reached, onward⟩ := List.mem_filter.1 member
    have fewer := length_rest_lt_of_outcome reached (of_decide_eq_true onward)
    exact ih (by omega) beside'

/-- How the texts go on makes no difference to the outcomes up to where they part. -/
theorem alike_outcomes (pattern : Pattern) (beside : cursor.Beside parting bytes other) :
    Alike parting bytes cursor (pattern.outcomes cursor) (pattern.outcomes other) := by
  induction pattern generalizing cursor other with
  | nothing => exact .singleton (.refl cursor) beside
  | one accept =>
    rcases beside.cases_rest with ⟨here, here'⟩ | ⟨character, front, split, split'⟩
    · have far {cursor next : Cursor} (reached : next ∈ (Pattern.one accept).outcomes cursor) :
          next.rest.length < cursor.rest.length := by
        obtain ⟨taken, rest, _, takes, moves⟩ := outcome_takes reached
        cases takes with
        | one =>
          rw [moves.rest, moves.source, List.length_append, List.length_singleton]
          omega
      exact .beyond (fun next reached => here ▸ far reached) fun next reached => here' ▸ far reached
    · simp only [outcomes, split, split']
      by_cases accepted : accept character = true
      · rw [if_pos accepted, if_pos accepted]
        exact .singleton (Cursor.ahead_advance split) (beside.advance character)
      · rw [if_neg accepted, if_neg accepted]
        exact .beyond (List.forall_mem_nil _) (List.forall_mem_nil _)
  | literal characters => exact .literal beside characters
  | most accept =>
    obtain ⟨front, split, split'⟩ := beside.rest
    rw [outcomes, outcomes, split, split']
    exact .furthestFirst beside split split'
  | fewest accept =>
    obtain ⟨front, split, split'⟩ := beside.rest
    rw [Alike, earlier, earlier, outcomes, outcomes, split, split', List.filter_reverse,
      List.filter_reverse, List.forall₂_reverse_iff]
    exact Alike.furthestFirst beside split split'
  | andThen first second ihFirst ihSecond =>
    exact .flatMap (ihFirst beside) fun next _ other beside' => ihSecond beside'
  | orElse first second ihFirst ihSecond => exact (ihFirst beside).append (ihSecond beside)
  | rounds body ih => exact alike_rounds ih (Nat.le_refl _) beside
  | capture index body ih =>
    have alike := ih beside
    unfold Alike earlier at alike ⊢
    rw [outcomes, outcomes, List.filter_map, List.filter_map, List.forall₂_map_left_iff,
      List.forall₂_map_right_iff]
    exact List.Forall₂.imp
      (fun next other both => ⟨both.1, beside.remember both.1 both.2 index⟩) alike
  | wordEdge =>
    rw [outcomes, outcomes, beside.atWordEdge_eq]
    split
    · exact .singleton (.refl cursor) beside
    · exact .beyond (List.forall_mem_nil _) (List.forall_mem_nil _)
  | textEnd =>
    have same : other.rest.isEmpty = cursor.rest.isEmpty := by
      rw [Bool.eq_iff_iff, List.isEmpty_iff, List.isEmpty_iff, beside.rest_eq_nil_iff]
    rw [outcomes, outcomes, same]
    split
    · exact .singleton (.refl cursor) beside
    · exact .beyond (List.forall_mem_nil _) (List.forall_mem_nil _)

structure Match.Beside (parting : Parting) (found other : Match) : Prop where
  rest : ∃ front, found.rest = front ++ parting.one ∧ other.rest = front ++ parting.two
  taken : other.taken = found.taken
  groups : other.groups = found.groups

theorem match?_eq_head? (pattern : Pattern) (characters : List Char) :
    pattern.match? characters =
      (pattern.outcomes (pattern.start characters)).head?.map fun last =>
        { taken := last.taken, rest := last.rest, groups := last.captures.map captured } := by
  rw [match?, ← findSome?_outcomes]
  cases pattern.outcomes (pattern.start characters) <;> rfl

/-- A match is the same in both texts, unless in one of them it goes beyond the parting. -/
theorem match?_beside (pattern : Pattern) (parting : Parting) (front : List Char) :
    Option.Rel (Match.Beside parting) (pattern.match? (front ++ parting.one))
        (pattern.match? (front ++ parting.two)) ∨
      (∃ found, pattern.match? (front ++ parting.one) = some found ∧
        found.rest.length < parting.one.length) ∨
      ∃ found, pattern.match? (front ++ parting.two) = some found ∧
        found.rest.length < parting.two.length := by
  have beside : (pattern.start (front ++ parting.one)).Beside parting 0
      (pattern.start (front ++ parting.two)) := ⟨⟨front, rfl, rfl⟩, rfl, rfl, rfl⟩
  have alike := alike_outcomes pattern beside
  rw [match?_eq_head?, match?_eq_head?]
  generalize pattern.outcomes (pattern.start (front ++ parting.one)) = reached at alike
  generalize pattern.outcomes (pattern.start (front ++ parting.two)) = others at alike
  unfold Alike earlier at alike
  cases reached with
  | nil =>
    cases others with
    | nil => exact .inl .none
    | cons other others =>
      refine .inr (.inr ⟨_, rfl, ?_⟩)
      by_contra near
      rw [List.filter_cons_of_pos (by simpa using near)] at alike
      cases alike
  | cons next reached =>
    by_cases near : parting.one.length ≤ next.rest.length
    · rw [List.filter_cons_of_pos (by simpa using near)] at alike
      cases others with
      | nil => cases alike
      | cons other others =>
        by_cases near' : parting.two.length ≤ other.rest.length
        · rw [List.filter_cons_of_pos (by simpa using near')] at alike
          cases alike with
          | cons both _ => exact .inl (.some ⟨both.2.rest, both.2.taken, both.2.groups⟩)
        · exact .inr (.inr ⟨_, rfl, Nat.lt_of_not_le near'⟩)
    · exact .inr (.inl ⟨_, rfl, Nat.lt_of_not_le near⟩)

end Pattern

open Pattern

variable {parting : Parting} {front : List Char} {rules : List Rule} {rule : Rule} {found : Match}

def Crosses (rest : List Char) (first : Option (Rule × Match)) : Prop :=
  ∃ rule found, first = some (rule, found) ∧ found.rest.length < rest.length

theorem taken_pos_of_length_lt {pattern : Pattern} {characters : List Char}
    (matched : pattern.match? characters = some found)
    (less : found.rest.length < characters.length) : 0 < found.taken := by
  obtain ⟨taken, split, bytes⟩ := match?_splits matched
  rw [bytes]
  apply byteCount_pos
  rintro rfl
  rw [split] at less
  exact Nat.lt_irrefl _ less

/-- The first match is the same in both texts, unless in one of them it goes beyond the parting. -/
theorem firstMatch_beside (rules : List Rule) (parting : Parting) (front : List Char) :
    Option.Rel (fun first other => other.1 = first.1 ∧ first.2.Beside parting other.2)
        (firstMatch (front ++ parting.one) rules) (firstMatch (front ++ parting.two) rules) ∨
      Crosses parting.one (firstMatch (front ++ parting.one) rules) ∨
      Crosses parting.two (firstMatch (front ++ parting.two) rules) := by
  have chosen {rest : List Char} {candidate : Rule} {others : List Rule} {found : Match}
      (matched : candidate.pattern.match? (front ++ rest) = some found)
      (less : found.rest.length < rest.length) :
      Crosses rest (firstMatch (front ++ rest) (candidate :: others)) := by
    have positive := taken_pos_of_length_lt matched (by rw [List.length_append]; omega)
    rw [firstMatch_cons, matched]
    simp only [positive, if_true]
    exact ⟨candidate, found, rfl, less⟩
  induction rules with
  | nil => exact .inl .none
  | cons candidate others ih =>
    rcases candidate.pattern.match?_beside parting front with same | ⟨other, matched, less⟩ |
      ⟨other, matched, less⟩
    · rw [firstMatch_cons, firstMatch_cons]
      generalize candidate.pattern.match? (front ++ parting.one) = one at same
      generalize candidate.pattern.match? (front ++ parting.two) = two at same
      cases same with
      | none => exact ih
      | @some one two beside =>
        simp only [beside.taken]
        by_cases positive : 0 < one.taken
        · simp only [positive, if_true]
          exact .inl (.some ⟨rfl, beside⟩)
        · simp only [positive, if_false]
          exact ih
    · exact .inr (.inl (chosen matched less))
    · exact .inr (.inr (chosen matched less))

/-- If the first text's first match does not go beyond the parting, then no rule listed before that
of the second text's first match has a match in the first text. -/
theorem firstMatch_of_stays
    (first : firstMatch (front ++ parting.two) rules = some (rule, found))
    (stays : ¬ Crosses parting.one (firstMatch (front ++ parting.one) rules)) :
    rule.pattern.match? (front ++ parting.two) = some found ∧
      ∃ before after, rules = before ++ rule :: after ∧
        firstMatch (front ++ parting.one) rules =
          firstMatch (front ++ parting.one) (rule :: after) := by
  induction rules with
  | nil => cases first
  | cons candidate others ih =>
    have skips (matched : ¬ ∃ other, candidate.pattern.match? (front ++ parting.two) = some other ∧
        0 < other.taken) :
        firstMatch (front ++ parting.two) (candidate :: others) =
            firstMatch (front ++ parting.two) others ∧
          firstMatch (front ++ parting.one) (candidate :: others) =
            firstMatch (front ++ parting.one) others := by
      rw [firstMatch_cons, firstMatch_cons]
      rw [firstMatch_cons] at stays
      rcases candidate.pattern.match?_beside parting front with same | ⟨other, reached, less'⟩ |
        ⟨other, reached, less'⟩
      · generalize candidate.pattern.match? (front ++ parting.one) = one at same
        generalize candidate.pattern.match? (front ++ parting.two) = two at same matched
        cases same with
        | none => exact ⟨rfl, rfl⟩
        | @some one two beside =>
          have empty : ¬ 0 < two.taken := fun positive => matched ⟨two, rfl, positive⟩
          have empty' : ¬ 0 < one.taken := by rwa [← beside.taken]
          simp only [empty, empty', if_false, and_self]
      · have positive := taken_pos_of_length_lt reached (by rw [List.length_append]; omega)
        rw [reached] at stays
        simp only [positive, if_true] at stays
        exact (stays ⟨candidate, other, rfl, less'⟩).elim
      · have positive := taken_pos_of_length_lt reached (by rw [List.length_append]; omega)
        exact (matched ⟨other, reached, positive⟩).elim
    by_cases matched : ∃ other, candidate.pattern.match? (front ++ parting.two) = some other ∧
        0 < other.taken
    · obtain ⟨other, reached, positive⟩ := matched
      rw [firstMatch_cons, reached] at first
      simp only [positive, if_true] at first
      cases first
      exact ⟨reached, [], others, rfl, rfl⟩
    · obtain ⟨same, same'⟩ := skips matched
      rw [same] at first
      rw [same'] at stays ⊢
      obtain ⟨reached, before, after, split, onward⟩ := ih first stays
      exact ⟨reached, candidate :: before, after, by rw [split]; rfl, onward⟩

end VerilogInterface
