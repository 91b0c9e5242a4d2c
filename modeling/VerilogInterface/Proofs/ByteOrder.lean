import Mathlib.Tactic.ByContra
import Mathlib.Tactic.SplitIfs

/-! Texts compare as their bytes do. The bytes of a smaller character are smaller at the first place
where they differ, whatever follows them, so the first different character decides in both
orders. -/

namespace VerilogInterface.Text

def bytes (text : String) : List UInt8 := text.toByteArray.data.toList

theorem bytes_eq_flatMap (text : String) :
    bytes text = text.toList.flatMap String.utf8EncodeChar := by
  rw [bytes, ← String.utf8Encode_toList, List.utf8Encode, List.data_toByteArray]

/-- A smaller number is smaller at the first of its digits to the base sixty-four that differs. -/
theorem digits_lt {first second : Nat} (less : first < second) (below : second < 1114112) :
    first / 262144 % 8 < second / 262144 % 8 ∨
      first / 262144 % 8 = second / 262144 % 8 ∧
        (first / 4096 % 64 < second / 4096 % 64 ∨
          first / 4096 % 64 = second / 4096 % 64 ∧
            (first / 64 % 64 < second / 64 % 64 ∨
              first / 64 % 64 = second / 64 % 64 ∧ first % 64 < second % 64)) := by
  have digit {first second : Nat} (less : first < second) :
      first / 64 < second / 64 ∨ first / 64 = second / 64 ∧ first % 64 < second % 64 := by omega
  have two (number : Nat) : number / 64 / 64 = number / 4096 := by omega
  have three (number : Nat) : number / 4096 / 64 = number / 262144 := by omega
  rcases digit less with less | ⟨same, last⟩
  · rcases digit less with less | ⟨same, third⟩
    · rw [two, two] at less
      rcases digit less with less | ⟨same, second⟩
      · rw [three, three] at less
        exact .inl (by omega)
      · rw [three, three] at same
        exact .inr ⟨by rw [same], .inl second⟩
    · rw [two, two] at same
      have high := congrArg (· / 64) same
      simp only [three] at high
      exact .inr ⟨by rw [high], .inr ⟨by rw [same], .inl third⟩⟩
  · have middle := congrArg (· / 64) same
    simp only [two] at middle
    have high := congrArg (· / 64) middle
    simp only [three] at high
    exact .inr ⟨by rw [high], .inr ⟨by rw [middle], .inr ⟨by rw [same], last⟩⟩⟩

theorem utf8EncodeChar_append_lt {first second : Char} (less : first < second)
    (behind behind' : List UInt8) :
    String.utf8EncodeChar first ++ behind < String.utf8EncodeChar second ++ behind' := by
  have below : first.toNat < second.toNat := less
  have valid : second.toNat.isValidChar := second.valid
  unfold Nat.isValidChar at valid
  have tail (number : Nat) : (number % 64 + 128) % 256 = number % 64 + 128 := by omega
  have head (number : Nat) : (number % 8 + 240) % 256 = number % 8 + 240 := by omega
  unfold String.utf8EncodeChar
  simp only [Char.toNat_val]
  split_ifs <;>
    simp [List.cons_lt_cons_iff, UInt8.lt_iff_toNat_lt, ← UInt8.toNat_inj, tail, head]
  -- only two characters of four bytes differ as late as their last digit but one
  all_goals try omega
  have digits := digits_lt below (by omega)
  omega

theorem flatMap_utf8EncodeChar_lt {first second : List Char} (less : first < second) :
    first.flatMap String.utf8EncodeChar < second.flatMap String.utf8EncodeChar := by
  induction less with
  | @nil character rest =>
    obtain ⟨byte, others, begins⟩ :=
      List.exists_cons_of_ne_nil (@String.utf8EncodeChar_ne_nil character)
    rw [List.flatMap_nil, List.flatMap_cons, begins]
    exact List.nil_lt_cons _ _
  | rel less => exact utf8EncodeChar_append_lt less _ _
  | @cons character first second _ ih =>
    rw [List.flatMap_cons, List.flatMap_cons]
    exact List.append_left_lt ih

theorem bytes_lt {first second : String} (less : first < second) : bytes first < bytes second := by
  rw [bytes_eq_flatMap, bytes_eq_flatMap]
  exact flatMap_utf8EncodeChar_lt less

end VerilogInterface.Text
