/-! Lists in order. Entries that are neither before nor after each other keep their places, and
nothing is added or lost. -/

namespace VerilogInterface.Ordered

/-- Puts an entry before the first one that it may stand before. -/
def insert (before : α → α → Bool) (entry : α) : List α → List α
  | [] => [entry]
  | first :: rest =>
    if before entry first then entry :: first :: rest else first :: insert before entry rest

def sort (before : α → α → Bool) : List α → List α
  | [] => []
  | first :: rest => insert before first (sort before rest)

theorem insert_perm (before : α → α → Bool) (entry : α) (entries : List α) :
    (insert before entry entries).Perm (entry :: entries) := by
  induction entries with
  | nil => exact .refl _
  | cons first rest ih =>
    rw [insert]
    split
    · exact .refl _
    · exact (ih.cons first).trans (.swap entry first rest)

theorem sort_perm (before : α → α → Bool) (entries : List α) :
    (sort before entries).Perm entries := by
  induction entries with
  | nil => exact .refl _
  | cons first rest ih => exact (insert_perm before first _).trans (ih.cons first)

theorem insert_pairwise {before : α → α → Bool}
    (total : ∀ first second, before first second = false → before second first = true)
    (trans : ∀ first second third, before first second = true → before second third = true →
      before first third = true)
    {entry : α} {entries : List α} (ordered : entries.Pairwise (before · ·)) :
    (insert before entry entries).Pairwise (before · ·) := by
  induction entries with
  | nil => exact List.pairwise_singleton _ _
  | cons first rest ih =>
    obtain ⟨head, tail⟩ := List.pairwise_cons.1 ordered
    rw [insert]
    split
    · next here =>
      refine List.pairwise_cons.2 ⟨fun other member => ?_, ordered⟩
      rcases List.mem_cons.1 member with rfl | later
      · exact here
      · exact trans _ _ _ here (head other later)
    · next later =>
      refine List.pairwise_cons.2 ⟨fun other member => ?_, ih tail⟩
      rcases List.mem_cons.1 ((insert_perm before entry rest).mem_iff.1 member) with rfl | old
      · exact total _ _ ((Bool.not_eq_true _).mp later)
      · exact head other old

theorem sort_pairwise {before : α → α → Bool}
    (total : ∀ first second, before first second = false → before second first = true)
    (trans : ∀ first second third, before first second = true → before second third = true →
      before first third = true)
    (entries : List α) : (sort before entries).Pairwise (before · ·) := by
  induction entries with
  | nil => exact .nil
  | cons first rest ih => exact insert_pairwise total trans ih

theorem sort_of_pairwise {before : α → α → Bool} {entries : List α}
    (ordered : entries.Pairwise (before · ·)) : sort before entries = entries := by
  induction entries with
  | nil => rfl
  | cons first rest ih =>
    obtain ⟨head, tail⟩ := List.pairwise_cons.1 ordered
    rw [sort, ih tail]
    cases rest with
    | nil => rfl
    | cons second rest => rw [insert, if_pos (head second List.mem_cons_self)]

end VerilogInterface.Ordered
