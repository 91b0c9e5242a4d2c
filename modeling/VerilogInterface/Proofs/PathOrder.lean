import Mathlib.Order.Compare
import VerilogInterface.Path

/-! The order of paths. Two paths are neither before nor after each other exactly when they are the
same, so a sorted list of paths is strictly ascending and has one spelling of every path. -/

namespace VerilogInterface.Path

instance : Std.TransCmp Component.order :=
  inferInstanceAs (Std.TransCmp (compareLex (compareOn Component.rank) (compareOn Component.text)))

instance : Std.LawfulEqCmp Component.order where
  eq_of_compare {first second} equal := by
    obtain ⟨ranks, texts⟩ := Ordering.then_eq_eq.1 equal
    have ranks : first.rank = second.rank := Std.LawfulEqOrd.eq_of_compare ranks
    have texts : first.text = second.text := Std.LawfulEqOrd.eq_of_compare texts
    cases first <;> cases second
    case name.name => exact congrArg Component.name texts
    all_goals first | rfl | contradiction

instance : Std.TransCmp Path.order where
  eq_swap := (inferInstance : Std.OrientedCmp (List.compareLex Component.order)).eq_swap
  isLE_trans := (inferInstance : Std.TransCmp (List.compareLex Component.order)).isLE_trans

theorem same_iff {first second : Path} :
    first.same second = true ↔ first.components = second.components := beq_iff_eq

theorem same_refl (path : Path) : path.same path = true := same_iff.2 rfl

theorem same_comm (first second : Path) : first.same second = second.same first :=
  Bool.eq_iff_iff.2 (by rw [same_iff, same_iff]; exact eq_comm)

theorem order_eq_iff {first second : Path} :
    first.order second = .eq ↔ first.same second = true := by
  rw [same_iff]
  exact @Std.LawfulEqCmp.compare_eq_iff_eq _ (List.compareLex Component.order) _ _ _

theorem order_lt {first second : Path} (notAfter : (first.order second).isLE = true)
    (different : second.same first ≠ true) : first.order second = .lt := by
  rcases Ordering.isLE_iff_eq_lt_or_eq_eq.1 notAfter with before | equal
  · exact before
  · rw [order_eq_iff, same_comm] at equal
    exact absurd equal different

theorem order_total (first second : Path) (after : (first.order second).isLE = false) :
    (second.order first).isLE = true := by
  have swapped : first.order second = (second.order first).swap := Std.OrientedCmp.eq_swap
  rw [swapped] at after
  cases order : second.order first with
  | gt =>
    rw [order] at after
    contradiction
  | lt | eq => rfl

def Different (paths : List Path) : Prop :=
  paths.Pairwise fun first second => first.same second = false

def Ascending (paths : List Path) : Prop := paths.Pairwise (·.order · = .lt)

theorem Ascending.different {paths : List Path} (ascending : Ascending paths) :
    Different paths := by
  refine List.Pairwise.imp ?_ ascending
  intro first second before
  apply Bool.eq_false_iff.2
  intro same
  have equal := order_eq_iff.2 same
  rw [before] at equal
  contradiction

theorem ascending_distinctAfter {last : Path} {paths : List Path}
    (ordered : (last :: paths).Pairwise fun first second => (first.order second).isLE = true) :
    Ascending (last :: distinctAfter last paths) := by
  induction paths generalizing last with
  | nil => exact List.pairwise_singleton _ _
  | cons path rest ih =>
    obtain ⟨head, tail⟩ := List.pairwise_cons.1 ordered
    rw [distinctAfter]
    split
    · apply ih
      exact List.pairwise_cons.2
        ⟨fun other member => head other (List.mem_cons_of_mem _ member), tail.of_cons⟩
    · next different =>
      have here : last.order path = .lt := order_lt (head path List.mem_cons_self) different
      have later := ih tail
      refine List.pairwise_cons.2 ⟨?_, later⟩
      intro other member
      rcases List.mem_cons.1 member with rfl | further
      · exact here
      · exact Std.TransCmp.lt_trans here ((List.pairwise_cons.1 later).1 other further)

theorem sorted_ascending (paths : List Path) : Ascending (sorted paths) := by
  have ordered := Ordered.sort_pairwise order_total (fun _ _ _ => Std.TransCmp.isLE_trans) paths
  unfold sorted
  split
  · exact List.Pairwise.nil
  · next listed =>
    rw [listed] at ordered
    exact ascending_distinctAfter ordered

theorem mem_of_mem_distinctAfter {last path : Path} {paths : List Path}
    (member : path ∈ distinctAfter last paths) : path ∈ paths := by
  induction paths generalizing last with
  | nil => exact member
  | cons first rest ih =>
    rw [distinctAfter] at member
    split at member
    · exact List.mem_cons_of_mem _ (ih member)
    · rcases List.mem_cons.1 member with rfl | later
      · exact List.mem_cons_self
      · exact List.mem_cons_of_mem _ (ih later)

theorem mem_of_mem_sorted {path : Path} {paths : List Path} (member : path ∈ sorted paths) :
    path ∈ paths := by
  rw [← (Ordered.sort_perm (fun first second : Path => (first.order second).isLE) paths).mem_iff]
  unfold sorted at member
  split at member
  · contradiction
  · next listed =>
    rw [listed]
    rcases List.mem_cons.1 member with rfl | later
    · exact List.mem_cons_self
    · exact List.mem_cons_of_mem _ (mem_of_mem_distinctAfter later)

theorem distinctAfter_of_different {last : Path} {paths : List Path}
    (different : Different (last :: paths)) : distinctAfter last paths = paths := by
  induction paths generalizing last with
  | nil => rfl
  | cons path rest ih =>
    obtain ⟨head, tail⟩ := List.pairwise_cons.1 different
    have here := head path List.mem_cons_self
    rw [same_comm] at here
    rw [distinctAfter, if_neg (Bool.eq_false_iff.1 here), ih tail]

theorem sorted_perm {paths : List Path} (different : Different paths) :
    (sorted paths).Perm paths := by
  have perm := Ordered.sort_perm (fun first second : Path => (first.order second).isLE) paths
  have kept := (perm.pairwise_iff fun apart => (same_comm _ _).trans apart).2 different
  unfold sorted
  split
  · next listed => exact listed ▸ perm
  · next listed =>
    rw [listed] at perm kept
    rw [distinctAfter_of_different kept]
    exact perm

end VerilogInterface.Path
