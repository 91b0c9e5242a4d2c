/-! Lists taken apart in two ways. Where a list is cut in two, an entry of it stands in one of the
parts; and of two entries one stands in front of the other, unless they are the same. -/

namespace VerilogInterface

variable {α : Type}

/-- Of two parts of a list one has the entry that stands at a given place. -/
theorem split_either {one two before more : List α} {entry : α}
    (split : one ++ two = before ++ entry :: more) :
    (∃ later, one = before ++ entry :: later ∧ more = later ++ two) ∨
      ∃ earlier, before = one ++ earlier ∧ two = earlier ++ entry :: more := by
  rcases List.append_eq_append_iff.1 split with ⟨earlier, front, behind⟩ | ⟨later, front, behind⟩
  · exact .inr ⟨earlier, front, behind⟩
  · cases later with
    | nil => exact .inr ⟨[], by rw [front, List.append_nil, List.append_nil], behind.symm⟩
    | cons next later =>
      obtain ⟨rfl, rest⟩ := List.cons.inj behind
      exact .inl ⟨later, front, rest⟩

/-- Two entries of a list are the same, or one of them stands behind the other. -/
theorem split_apart {before after before' after' : List α} {entry entry' : α}
    (same : before ++ entry :: after = before' ++ entry' :: after') :
    (before = before' ∧ entry = entry' ∧ after = after') ∨
      (∃ between, before' = before ++ entry :: between ∧ after = between ++ entry' :: after') ∨
        ∃ between, before = before' ++ entry' :: between ∧ after' = between ++ entry :: after := by
  rcases split_either same with later | ⟨between, rfl, behind⟩
  · exact .inr (.inr later)
  · cases between with
    | nil =>
      obtain ⟨rfl, rfl⟩ := List.cons.inj behind
      exact .inl ⟨(List.append_nil _).symm, rfl, rfl⟩
    | cons next between =>
      obtain ⟨rfl, rfl⟩ := List.cons.inj behind
      exact .inr (.inl ⟨between, rfl, rfl⟩)

/-- In a list with one more entry behind it, a place is that of the new entry or one of the list. -/
theorem split_concat {entries before after : List α} {entry last : α}
    (split : entries ++ [last] = before ++ entry :: after) :
    (entries = before ∧ last = entry ∧ after = []) ∨
      ∃ middle, entries = before ++ entry :: middle ∧ after = middle ++ [last] := by
  rcases split_either split with inside | ⟨earlier, rfl, ends⟩
  · exact .inr inside
  · cases earlier with
    | nil =>
      obtain ⟨rfl, rfl⟩ := List.cons.inj ends
      exact .inl ⟨(List.append_nil _).symm, rfl, rfl⟩
    | cons next earlier => simp at ends

/-- An entry with only others of a kind behind it: one more entry takes its place or is of that
kind. -/
theorem exists_last_concat {entries : List α} {entry last : α} {other : α → Prop} :
    (∃ before after, entries ++ [last] = before ++ entry :: after ∧ ∀ later ∈ after, other later) ↔
      last = entry ∨ other last ∧
        ∃ before after, entries = before ++ entry :: after ∧ ∀ later ∈ after, other later := by
  constructor
  · rintro ⟨before, after, split, others⟩
    rcases split_concat split with ⟨-, same, -⟩ | ⟨middle, rfl, rfl⟩
    · exact .inl same
    · obtain ⟨inside, ends⟩ := List.forall_mem_append.1 others
      exact .inr ⟨List.forall_mem_singleton.1 ends, before, middle, rfl, inside⟩
  · rintro (rfl | ⟨ends, before, after, rfl, others⟩)
    · exact ⟨entries, [], rfl, fun _ member => absurd member List.not_mem_nil⟩
    · refine ⟨before, after ++ [last], by simp, List.forall_mem_append.2 ⟨others, ?_⟩⟩
      exact List.forall_mem_singleton.2 ends

end VerilogInterface
