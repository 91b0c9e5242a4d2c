import Mathlib.Data.List.Basic
import VerilogInterface.Proofs.PathOrder

/-! Sorted lists of paths. Leaving paths out before or after sorting comes to the same, and a sorted
list is determined by the paths that it has in some spelling. -/

namespace VerilogInterface

namespace Ordered

variable {before : α → α → Bool} {entry : α} {entries : List α}

theorem insert_of_before (first : ∀ other ∈ entries, before entry other = true) :
    insert before entry entries = entry :: entries := by
  cases entries with
  | nil => rfl
  | cons other rest => rw [insert, if_pos (first other List.mem_cons_self)]

theorem filter_insert
    (trans : ∀ first second third, before first second = true → before second third = true →
      before first third = true)
    (keep : α → Bool) (ordered : entries.Pairwise (before · ·)) :
    (insert before entry entries).filter keep =
      if keep entry then insert before entry (entries.filter keep) else entries.filter keep := by
  induction entries with
  | nil => cases kept : keep entry <;> simp [insert, kept]
  | cons first rest ih =>
    obtain ⟨head, tail⟩ := List.pairwise_cons.1 ordered
    rw [insert]
    split
    · next here =>
      have all : ∀ other ∈ (first :: rest).filter keep, before entry other = true := by
        intro other member
        rcases List.mem_cons.1 (List.mem_of_mem_filter member) with rfl | later
        · exact here
        · exact trans _ _ _ here (head other later)
      rw [List.filter_cons, insert_of_before all]
    · next there =>
      rw [List.filter_cons, ih tail, List.filter_cons]
      split
      · split
        · rw [insert, if_neg there]
        · rfl
      · rfl

theorem filter_sort
    (total : ∀ first second, before first second = false → before second first = true)
    (trans : ∀ first second third, before first second = true → before second third = true →
      before first third = true)
    (keep : α → Bool) (entries : List α) :
    (sort before entries).filter keep = sort before (entries.filter keep) := by
  induction entries with
  | nil => rfl
  | cons first rest ih =>
    rw [sort, filter_insert trans keep (sort_pairwise total trans rest), ih, List.filter_cons]
    split <;> rfl

end Ordered

namespace Path

/-- Drops every path that is the same as the one before it, from the first path on. -/
def distinct : List Path → List Path
  | [] => []
  | path :: rest => path :: distinctAfter path rest

theorem sorted_eq (paths : List Path) :
    sorted paths = distinct (Ordered.sort (fun first second => (first.order second).isLE) paths) := by
  unfold sorted
  split
  · next none => rw [none, distinct]
  · next some => rw [some, distinct]

theorem distinctAfter_of_apart {last : Path} {paths : List Path}
    (apart : ∀ path ∈ paths, path.same last = false) : distinctAfter last paths = distinct paths := by
  cases paths with
  | nil => rfl
  | cons path rest =>
    rw [distinctAfter, if_neg (Bool.eq_false_iff.1 (apart path List.mem_cons_self)), distinct]

variable {keep : Path → Bool}

theorem filter_distinctAfter {last : Path} {paths : List Path}
    (respects : ∀ {first second : Path}, first.same second = true → keep first = keep second)
    (ordered : (last :: paths).Pairwise fun first second => (first.order second).isLE = true) :
    (distinctAfter last paths).filter keep =
      if keep last then distinctAfter last (paths.filter keep) else distinct (paths.filter keep) := by
  induction paths generalizing last with
  | nil => split <;> rfl
  | cons path rest ih =>
    obtain ⟨head, tail⟩ := List.pairwise_cons.1 ordered
    rw [distinctAfter]
    by_cases same : path.same last = true
    · have skipped : (last :: rest).Pairwise fun first second => (first.order second).isLE = true :=
        List.pairwise_cons.2 ⟨fun other member => head other (.tail _ member), tail.of_cons⟩
      rw [if_pos same, ih skipped, List.filter_cons, respects same]
      split
      · rw [distinctAfter, if_pos same]
      · rfl
    · rw [if_neg same, List.filter_cons, ih tail, List.filter_cons]
      by_cases kept : keep path = true
      · rw [if_pos kept, if_pos kept, if_pos kept]
        split
        · rw [distinctAfter, if_neg same]
        · rfl
      · rw [if_neg kept, if_neg kept, if_neg kept]
        split
        · -- What follows is after the path that is left out, so it differs from the last one.
          refine (distinctAfter_of_apart ?_).symm
          intro other member
          have later := (List.pairwise_cons.1 tail).1 other (List.mem_of_mem_filter member)
          have before : last.order path = .lt := order_lt (head path List.mem_cons_self) same
          have between : last.order other = .lt := Std.TransCmp.lt_of_lt_of_isLE before later
          apply Bool.eq_false_iff.2
          intro equal
          rw [same_comm, ← order_eq_iff, between] at equal
          contradiction
        · rfl

theorem filter_sorted
    (respects : ∀ {first second : Path}, first.same second = true → keep first = keep second)
    (paths : List Path) : (sorted paths).filter keep = sorted (paths.filter keep) := by
  have trans (first second third : Path) := @Std.TransCmp.isLE_trans _ Path.order _ first second third
  have ordered := Ordered.sort_pairwise order_total trans paths
  rw [sorted_eq, sorted_eq, ← Ordered.filter_sort order_total trans keep]
  generalize Ordered.sort (fun first second : Path => (first.order second).isLE) paths = list at ordered
  cases list with
  | nil => rfl
  | cons path rest =>
    rw [distinct, List.filter_cons, filter_distinctAfter respects ordered, List.filter_cons]
    split <;> rfl

theorem exists_mem_distinctAfter {last path : Path} {paths : List Path} (member : path ∈ paths) :
    ∃ listed ∈ last :: distinctAfter last paths, listed.same path = true := by
  induction paths generalizing last with
  | nil => contradiction
  | cons first rest ih =>
    rw [distinctAfter]
    split
    · next same =>
      rcases List.mem_cons.1 member with rfl | later
      · exact ⟨last, List.mem_cons_self, (same_comm _ _).trans same⟩
      · exact ih later
    · rcases List.mem_cons.1 member with rfl | later
      · exact ⟨path, List.mem_cons_of_mem _ List.mem_cons_self, path.same_refl⟩
      · obtain ⟨listed, inside, same⟩ :
            ∃ listed ∈ first :: distinctAfter first rest, listed.same path = true := ih later
        exact ⟨listed, List.mem_cons_of_mem _ inside, same⟩

/-- Every path is listed in some spelling. -/
theorem exists_mem_sorted {path : Path} {paths : List Path} (member : path ∈ paths) :
    ∃ listed ∈ sorted paths, listed.same path = true := by
  rw [← (Ordered.sort_perm (fun first second : Path => (first.order second).isLE) paths).mem_iff]
    at member
  unfold sorted
  split
  · next none =>
    rw [none] at member
    contradiction
  · next first rest some =>
    rw [some] at member
    rcases List.mem_cons.1 member with rfl | later
    · exact ⟨path, List.mem_cons_self, path.same_refl⟩
    · exact exists_mem_distinctAfter later

def SameList (first second : List Path) : Prop :=
  first.map components = second.map components

theorem Ascending.nodup {paths : List Path} (ascending : Ascending paths) :
    (paths.map components).Nodup := by
  apply List.pairwise_map.2
  refine List.Pairwise.imp ?_ ascending
  intro first second before equal
  have same := order_eq_iff.2 (same_iff.2 equal)
  rw [before] at same
  contradiction

theorem mem_map_components {path : Path} {paths : List Path} :
    path.components ∈ paths.map components ↔ ∃ listed ∈ paths, listed.same path = true := by
  simp only [List.mem_map, same_iff]

theorem Ascending.sameList {first second : List Path} (ascending : Ascending first)
    (other : Ascending second)
    (members : ∀ path : Path, (∃ listed ∈ first, listed.same path = true) ↔
      ∃ listed ∈ second, listed.same path = true) : SameList first second := by
  have perm : (first.map components).Perm (second.map components) := by
    apply (List.perm_ext_iff_of_nodup ascending.nodup other.nodup).2
    intro entry
    constructor
    · intro member
      obtain ⟨path, _, rfl⟩ := List.mem_map.1 member
      exact mem_map_components.2 ((members path).1 (mem_map_components.1 member))
    · intro member
      obtain ⟨path, _, rfl⟩ := List.mem_map.1 member
      exact mem_map_components.2 ((members path).2 (mem_map_components.1 member))
  have ordered : (first.map components).Pairwise (List.compareLex Component.order · · = .lt) :=
    List.pairwise_map.2 ascending
  refine perm.eq_of_pairwise ?_ ordered (List.pairwise_map.2 other)
  intro entry further _ _ before after
  have swapped : List.compareLex Component.order entry further = .gt :=
    Std.OrientedCmp.gt_of_lt after
  rw [before] at swapped
  contradiction

end Path

end VerilogInterface
