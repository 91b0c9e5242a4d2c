import VerilogInterface.Proofs.Lookahead
import VerilogInterface.Proofs.Splits

/-! Where a match takes a character. A character that a pattern takes nowhere but in one of its
captures lies in the captured text, and what a capture wrote is found in the groups of the match. -/

namespace VerilogInterface.Pattern

/-- Whether a match can take the character in a place outside of the capture with the index. -/
def takesOutside (index : Nat) : Pattern → Char → Bool
  | .andThen first second, character | .orElse first second, character =>
    first.takesOutside index character || second.takesOutside index character
  | .rounds body, character => body.takesOutside index character
  | .capture other body, character => other != index && body.takesOutside index character
  | pattern, character => pattern.mayTake character

/-- The captures that a match can make; those of a repeated pattern count as made twice. -/
def possible : Pattern → List Nat
  | .andThen first second | .orElse first second => first.possible ++ second.possible
  | .rounds body => body.possible ++ body.possible
  | .capture index body => body.possible ++ [index]
  | _ => []

namespace Writes

theorem length_apply (writes : Writes) (groups : List (Option String)) :
    (Writes.apply writes groups).length = groups.length := by
  induction writes generalizing groups with
  | nil => rfl
  | cons write writes ih => exact (ih _).trans List.length_set

/-- What is written once stays. -/
theorem getElem?_apply {writes : Writes} {groups : List (Option String)} {index : Nat}
    {text : String} (member : (index, text) ∈ writes) (once : (writes.map (·.1)).Nodup)
    (inside : index < groups.length) : (Writes.apply writes groups)[index]? = some (some text) := by
  induction writes using List.reverseRecOn with
  | nil => contradiction
  | append_singleton writes write ih =>
    rw [List.map_append, List.nodup_append] at once
    obtain ⟨before, _, apart⟩ := once
    have last : Writes.apply [write] (Writes.apply writes groups) =
        (Writes.apply writes groups).set write.1 (some write.2) := rfl
    rw [apply_append, last]
    rcases List.mem_append.1 member with early | late
    · have other : index ≠ write.1 :=
        apart index (List.mem_map_of_mem early) write.1 List.mem_cons_self
      rw [List.getElem?_set_ne other.symm]
      exact ih early before
    · cases List.mem_singleton.1 late
      rw [List.getElem?_set_self]
      rw [length_apply]
      exact inside

end Writes

namespace Takes

variable {pattern : Pattern} {previous : Option Char} {taken rest : List Char} {writes : Writes}

/-- A match makes each capture that is possible once at most once. -/
theorem writes_sublist (takes : pattern.Takes previous taken rest writes)
    (once : pattern.possible.Nodup) : (writes.map (·.1)).Sublist pattern.possible := by
  induction takes with
  | nothing | one | literal | most | fewest | noRound | wordEdge | textEnd =>
    exact List.nil_sublist _
  | andThen _ _ ihOne ihTwo =>
    obtain ⟨one, two, _⟩ := List.nodup_append.1 once
    rw [List.map_append]
    exact (ihOne one).append (ihTwo two)
  | former _ ih =>
    exact (ih (List.nodup_append.1 once).1).trans (List.sublist_append_left _ _)
  | latter _ ih =>
    exact (ih (List.nodup_append.1 once).2.1).trans (List.sublist_append_right _ _)
  | @round body _ _ _ _ _ _ _ _ ihOne ihAgain =>
    obtain ⟨one, _, apart⟩ := List.nodup_append.1 once
    -- a repeated pattern without captures adds nothing in a round
    have none : body.possible = [] := by
      rw [List.eq_nil_iff_forall_not_mem]
      intro index member
      exact apart index member index member rfl
    have made := ihOne one
    rw [none, List.sublist_nil] at made
    rw [List.map_append, made]
    exact ihAgain once
  | capture _ ih =>
    rw [List.map_append]
    exact (ih (List.nodup_append.1 once).1).append (.refl _)

theorem lacks {character : Char} (takes : pattern.Takes previous taken rest writes)
    (never : pattern.mayTake character = false) : character ∉ taken := by
  intro member
  have may := takes.mayTake member
  rw [never] at may
  contradiction

/-- The character between two parts of what was taken is part of what a capture wrote. -/
def Wrote (index : Nat) (character : Char) (before more : List Char) (writes : Writes) : Prop :=
  ∃ front within further behind, before = front ++ within ∧ more = further ++ behind ∧
    (index, String.ofList (within ++ character :: further)) ∈ writes

variable {index : Nat} {character : Char} {before more one two : List Char} {others : Writes}

theorem Wrote.former (wrote : Wrote index character before more writes) (two : List Char)
    (others : Writes) : Wrote index character before (more ++ two) (writes ++ others) := by
  obtain ⟨front, within, further, behind, rfl, rfl, member⟩ := wrote
  exact ⟨front, within, further, behind ++ two, rfl, List.append_assoc ..,
    List.mem_append_left _ member⟩

theorem Wrote.latter (wrote : Wrote index character before more others) (one : List Char)
    (writes : Writes) : Wrote index character (one ++ before) more (writes ++ others) := by
  obtain ⟨front, within, further, behind, rfl, rfl, member⟩ := wrote
  exact ⟨one ++ front, within, further, behind, (List.append_assoc ..).symm, rfl,
    List.mem_append_right _ member⟩

/-- What holds of each of two parts for a character in it holds of both together. -/
theorem Wrote.either
    (inOne : ∀ {before more}, one = before ++ character :: more →
      Wrote index character before more writes)
    (inTwo : ∀ {before more}, two = before ++ character :: more →
      Wrote index character before more others)
    (split : one ++ two = before ++ character :: more) :
    Wrote index character before more (writes ++ others) := by
  rcases split_either split with ⟨later, part, rfl⟩ | ⟨earlier, rfl, part⟩
  · exact (inOne part).former two others
  · exact (inTwo part).latter one writes

/-- A character that is taken nowhere else is part of what the capture wrote. -/
theorem in_capture (takes : pattern.Takes previous taken rest writes)
    (only : pattern.takesOutside index character = false)
    (split : taken = before ++ character :: more) : Wrote index character before more writes := by
  have here : character ∈ taken := by
    rw [split]
    exact List.mem_append_right _ List.mem_cons_self
  have lacks : pattern.mayTake character = false → character ∉ taken := takes.lacks
  induction takes generalizing before more with
  | nothing | noRound | wordEdge | textEnd => contradiction
  | one | literal | most | fewest => exact absurd here (lacks only)
  | andThen one two ihOne ihTwo =>
    obtain ⟨first, second⟩ := Bool.or_eq_false_iff.1 only
    refine Wrote.either ?_ ?_ split
    · intro before more part
      exact ihOne first part (by simp [part]) one.lacks
    · intro before more part
      exact ihTwo second part (by simp [part]) two.lacks
  | former one ih => exact ih (Bool.or_eq_false_iff.1 only).1 split here one.lacks
  | latter two ih => exact ih (Bool.or_eq_false_iff.1 only).2 split here two.lacks
  | round one again ihOne ihAgain =>
    refine Wrote.either ?_ ?_ split
    · intro before more part
      exact ihOne only part (by simp [part]) one.lacks
    · intro before more part
      exact ihAgain only part (by simp [part]) again.lacks
  | @capture other body _ _ _ _ inner ih =>
    by_cases same : other = index
    · subst same
      refine ⟨[], before, more, [], rfl, (List.append_nil _).symm, ?_⟩
      rw [split]
      exact List.mem_append_right _ List.mem_cons_self
    · have only : (other != index && body.takesOutside index character) = false := only
      rw [bne_iff_ne.2 same, Bool.true_and] at only
      obtain ⟨front, within, further, behind, rfl, rfl, member⟩ := ih only split here inner.lacks
      exact ⟨front, within, further, behind, rfl, rfl, List.mem_append_left _ member⟩

end Takes

end VerilogInterface.Pattern
