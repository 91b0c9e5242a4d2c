import Mathlib.Tactic.SplitIfs
import VerilogInterface.Json.Value
import VerilogInterface.Json.Reader

/-! What is printed as JSON is read as what it was. Characters come first, then strings, then
values, each from the values inside it, so that only the lists in containers need an induction. -/

namespace VerilogInterface.Json

/-- A character is written with a letter behind a backslash, with its code, or as it is. -/
theorem escape_cases (character : Char) :
    (∃ letter, escape character = ['\\', letter] ∧ letter ≠ 'u' ∧
        letterEscape? letter = some character) ∨
      (character.toNat < 32 ∧ escape character = ['\\', 'u', '0', '0',
        hexDigit (character.toNat / 16), hexDigit (character.toNat % 16)]) ∨
      (escape character = [character] ∧ character ≠ '"' ∧ character ≠ '\\' ∧
        ¬ character < ' ') := by
  unfold escape
  split_ifs with quote slash line tab back bell feed control
  iterate 7
    subst character
    exact .inl ⟨_, rfl, by decide, rfl⟩
  · exact .inr (.inl ⟨control, rfl⟩)
  · exact .inr (.inr ⟨rfl, quote, slash, control⟩)

theorem digit?_hexDigit : ∀ digit < 16, digit? (hexDigit digit) = some digit := by decide

theorem code?_hexDigits {code : Nat} (small : code < 256) :
    code? ['0', '0', hexDigit (code / 16), hexDigit (code % 16)] = some code := by
  have zero : digit? '0' = some 0 := rfl
  rw [code?, zero, digit?_hexDigit _ (by omega), digit?_hexDigit _ (by omega)]
  exact congrArg some (by omega)

/-- What stands for a character inside quotation marks is read as that character. -/
theorem readCharacter_escape (character : Char) (rest : List Char) :
    readCharacter (escape character ++ rest) = some (character, rest) := by
  rcases escape_cases character with
    ⟨letter, escaped, other, named⟩ | ⟨small, escaped⟩ | ⟨escaped, quote, slash, plain⟩
  · rw [escaped, List.cons_append, List.singleton_append, readCharacter, named]
    · rfl
    · exact other
  · have low : ¬ (0xD800 ≤ character.toNat) := by omega
    have valid : character.toNat.isValidChar := .inl (by omega)
    rw [escaped]
    simp [readCharacter, code?_hexDigits (Nat.lt_trans small (by decide)), low, valid]
  · rw [escaped, List.singleton_append, readCharacter]
    · simp [quote, slash, plain]
    · intro _ same
      exact (slash same).elim
    · intro _ _ same
      exact (slash same).elim

theorem escape_begins (character : Char) :
    ∃ first others, escape character = first :: others ∧ first ≠ '"' := by
  rcases escape_cases character with ⟨_, escaped, _⟩ | ⟨_, escaped⟩ | ⟨escaped, quote, _⟩
  · exact ⟨_, _, escaped, by decide⟩
  · exact ⟨_, _, escaped, by decide⟩
  · exact ⟨_, _, escaped, quote⟩

theorem readTextRest_escape {content : List Char} {bound : Nat} (enough : content.length < bound)
    (read rest : List Char) :
    readTextRest bound read (content.flatMap escape ++ '"' :: rest) =
      some (String.ofList (read.reverse ++ content), rest) := by
  induction content generalizing bound read with
  | nil =>
    obtain ⟨bound, rfl⟩ := Nat.exists_eq_add_one.2 enough
    rw [List.flatMap_nil, List.nil_append, readTextRest, List.append_nil]
  | cons character content ih =>
    obtain ⟨bound, rfl⟩ := Nat.exists_eq_add_one.2 (Nat.zero_lt_of_lt enough)
    obtain ⟨first, others, begins, inside⟩ := escape_begins character
    have step := readCharacter_escape character (content.flatMap escape ++ '"' :: rest)
    have onward := ih (Nat.lt_of_succ_lt_succ enough) (character :: read)
    rw [List.reverse_cons, List.append_assoc, List.singleton_append] at onward
    rw [begins, List.cons_append] at step
    rw [List.flatMap_cons, List.append_assoc, begins, List.cons_append, readTextRest, step]
    · exact onward
    · intro _ same
      exact inside (List.cons.inj same).1

theorem length_le_flatMap_escape (content : List Char) :
    content.length ≤ (content.flatMap escape).length := by
  induction content with
  | nil => exact Nat.le_refl 0
  | cons character content ih =>
    obtain ⟨first, others, begins, _⟩ := escape_begins character
    rw [List.flatMap_cons, begins, List.length_append, List.length_cons, List.length_cons]
    omega

theorem readText_printText (content : String) (rest : List Char) :
    readText (printText content ++ rest) = some (content, rest) := by
  have enough : content.toList.length <
      (content.toList.flatMap escape ++ '"' :: rest).length + 1 := by
    have less := length_le_flatMap_escape content.toList
    rw [List.length_append]
    omega
  rw [printText, List.append_assoc, List.cons_append, List.singleton_append, readText,
    readTextRest_escape enough, List.reverse_nil, List.nil_append, String.ofList_toList]

theorem skipBlanks_append {blank : List Char} (all : ∀ character ∈ blank, isBlank character = true)
    (rest : List Char) : skipBlanks (blank ++ rest) = skipBlanks rest := by
  rw [skipBlanks, List.dropWhile_append_of_pos all, skipBlanks]

theorem skipBlanks_cons {first : Char} (solid : isBlank first = false) (rest : List Char) :
    skipBlanks (first :: rest) = first :: rest :=
  List.dropWhile_cons_of_neg (by rw [solid]; decide)

theorem skipBlanks_newLine (depth : Nat) (rest : List Char) :
    skipBlanks (newLine depth ++ rest) = skipBlanks rest := by
  refine skipBlanks_append (fun character member => ?_) rest
  rcases List.mem_cons.1 member with rfl | indent
  · rfl
  · rw [List.eq_of_mem_replicate indent]
    rfl

/-- Blanks before a value do not matter. -/
theorem readValue_congr {first second : List Char} (same : skipBlanks first = skipBlanks second)
    (bound : Nat) : readValue bound first = readValue bound second := by
  cases bound with
  | zero => rfl
  | succ bound => rw [readValue, readValue, same]

theorem readMember_congr {value : Reader Json} {first second : List Char}
    (same : skipBlanks first = skipBlanks second) :
    readMember value first = readMember value second := by
  rw [readMember, readMember, same]

/-- Whatever comes behind the printed value, it is read and the rest is left. -/
structure Reads (value : Json) : Prop where
  begins : ∀ depth, ∃ first others, value.print depth = first :: others ∧ isBlank first = false ∧
    first ≠ ']'
  read : ∀ {depth bound : Nat}, (value.print depth).length < bound → ∀ rest : List Char,
    readValue bound (value.print depth ++ rest) = some (value, rest)

namespace Reads

theorem null : Reads .null where
  begins := fun _ => ⟨_, _, rfl, rfl, by decide⟩
  read := by
    intro depth bound enough rest
    obtain ⟨bound, rfl⟩ := Nat.exists_eq_add_one.2 (Nat.zero_lt_of_lt enough)
    rfl

theorem text (content : String) : Reads (.text content) where
  begins := fun _ => ⟨_, _, rfl, rfl, by decide⟩
  read := by
    intro depth bound enough rest
    obtain ⟨bound, rfl⟩ := Nat.exists_eq_add_one.2 (Nat.zero_lt_of_lt enough)
    have read := readText_printText content rest
    rw [printText, List.append_assoc, List.cons_append] at read
    rw [print, printText, List.append_assoc, List.cons_append, readValue, skipBlanks_cons rfl]
    simp only
    rw [read, Option.map_some]

variable {value : Json} {depth bound : Nat}

/-- A value stands on a line of its own. -/
theorem read_line (reads : Reads value) (line : Nat) (enough : (value.print depth).length < bound)
    (rest : List Char) :
    readValue bound (newLine line ++ (value.print depth ++ rest)) = some (value, rest) :=
  (readValue_congr (skipBlanks_newLine line _) bound).trans (reads.read enough rest)

/-- The items behind the first one are read up to the end of their array. -/
theorem items {items : List Json} (reads : ∀ item ∈ items, Reads item) {count : Nat}
    (counted : (printItems depth items).length < count)
    (enough : (printItems depth items).length ≤ bound) (line : Nat) (found : List Json)
    (rest : List Char) :
    readItems (readValue bound) count found
        (printItems depth items ++ (newLine line ++ ']' :: rest)) =
      some (found.reverse ++ items, rest) := by
  induction items generalizing count found with
  | nil =>
    obtain ⟨count, rfl⟩ := Nat.exists_eq_add_one.2 counted
    rw [printItems, List.nil_append, readItems, skipBlanks_newLine, skipBlanks_cons rfl]
    simp only [List.append_nil]
  | cons item items ih =>
    obtain ⟨count, rfl⟩ := Nat.exists_eq_add_one.2 (Nat.zero_lt_of_lt counted)
    obtain ⟨first, others⟩ := List.forall_mem_cons.1 reads
    rw [printItems] at counted enough ⊢
    simp only [List.length_append, List.length_cons, List.append_assoc, List.cons_append]
      at counted enough ⊢
    have onward := ih others (by omega : _ < count) (by omega) (item :: found)
    rw [List.reverse_cons, List.append_assoc, List.singleton_append] at onward
    rw [readItems, skipBlanks_cons rfl]
    simp only
    rw [first.read_line depth (by omega)]
    exact onward

theorem array {items : List Json} (reads : ∀ item ∈ items, Reads item) : Reads (.array items) where
  begins := by
    intro depth
    cases items <;> exact ⟨_, _, rfl, rfl, by decide⟩
  read := by
    intro depth bound enough rest
    obtain ⟨bound, rfl⟩ := Nat.exists_eq_add_one.2 (Nat.zero_lt_of_lt enough)
    cases items with
    | nil => rfl
    | cons item items =>
      obtain ⟨first, others⟩ := List.forall_mem_cons.1 reads
      rw [print] at enough ⊢
      simp only [List.length_append, List.length_cons, List.append_assoc, List.cons_append,
        List.nil_append] at enough ⊢
      rw [readValue, skipBlanks_cons rfl]
      simp only
      rw [skipBlanks_newLine]
      obtain ⟨head, behind, begins, solid, inside⟩ := first.begins (depth + 1)
      have read := @Reads.read _ first (depth + 1) bound (by omega)
        (printItems (depth + 1) items ++ (newLine depth ++ ']' :: rest))
      rw [begins, List.cons_append] at read ⊢
      rw [skipBlanks_cons solid]
      split
      · next same => exact (inside (List.cons.inj same).1).elim
      · rw [read]
        simp only [Option.bind_eq_bind, Option.bind_some]
        rw [Reads.items others (by rw [List.length_append]; omega) (by omega)]
        rfl

theorem member (reads : Reads value) (enough : (value.print depth).length < bound) (name : String)
    (rest : List Char) :
    readMember (readValue bound)
        (printText name ++ ':' :: ' ' :: (value.print depth ++ rest)) =
      some ((name, value), rest) := by
  have spaced : readValue bound (' ' :: (value.print depth ++ rest)) = some (value, rest) := by
    have same : skipBlanks (' ' :: (value.print depth ++ rest)) =
        skipBlanks (value.print depth ++ rest) := rfl
    rw [readValue_congr same, reads.read enough]
  have named := readText_printText name (':' :: ' ' :: (value.print depth ++ rest))
  rw [readMember]
  rw [printText, List.append_assoc, List.cons_append] at named ⊢
  rw [skipBlanks_cons rfl, named]
  simp only [Option.bind_eq_bind, Option.bind_some]
  rw [skipBlanks_cons rfl]
  simp only
  rw [spaced]
  rfl

/-- The members behind the first one are read up to the end of their object. -/
theorem members {members : List (String × Json)} (reads : ∀ entry ∈ members, Reads entry.2)
    {count : Nat} (counted : (printMembers depth members).length < count)
    (enough : (printMembers depth members).length ≤ bound) (line : Nat)
    (found : List (String × Json)) (rest : List Char) :
    readMembers (readValue bound) count found
        (printMembers depth members ++ (newLine line ++ '\x7d' :: rest)) =
      some (found.reverse ++ members, rest) := by
  induction members generalizing count found with
  | nil =>
    obtain ⟨count, rfl⟩ := Nat.exists_eq_add_one.2 counted
    rw [printMembers, List.nil_append, readMembers, skipBlanks_newLine, skipBlanks_cons rfl]
    simp only [List.append_nil]
  | cons entry members ih =>
    obtain ⟨name, value⟩ := entry
    obtain ⟨count, rfl⟩ := Nat.exists_eq_add_one.2 (Nat.zero_lt_of_lt counted)
    obtain ⟨first, others⟩ : Reads value ∧ ∀ entry ∈ members, Reads entry.2 :=
      List.forall_mem_cons.1 reads
    rw [printMembers] at counted enough ⊢
    simp only [List.length_append, List.length_cons, List.append_assoc, List.cons_append]
      at counted enough ⊢
    have onward := ih others (by omega : _ < count) (by omega) ((name, value) :: found)
    rw [List.reverse_cons, List.append_assoc, List.singleton_append] at onward
    rw [readMembers, skipBlanks_cons rfl]
    simp only
    rw [readMember_congr (skipBlanks_newLine _ _), first.member (by omega)]
    exact onward

theorem object {members : List (String × Json)} (reads : ∀ entry ∈ members, Reads entry.2) :
    Reads (.object members) where
  begins := by
    intro depth
    cases members <;> exact ⟨_, _, rfl, rfl, by decide⟩
  read := by
    intro depth bound enough rest
    obtain ⟨bound, rfl⟩ := Nat.exists_eq_add_one.2 (Nat.zero_lt_of_lt enough)
    cases members with
    | nil => rfl
    | cons entry members =>
      obtain ⟨name, value⟩ := entry
      obtain ⟨first, others⟩ : Reads value ∧ ∀ entry ∈ members, Reads entry.2 :=
        List.forall_mem_cons.1 reads
      rw [print] at enough ⊢
      simp only [List.length_append, List.length_cons, List.append_assoc, List.cons_append,
        List.nil_append] at enough ⊢
      have read := @member value (depth + 1) bound first (by omega) name
        (printMembers (depth + 1) members ++ (newLine depth ++ '\x7d' :: rest))
      rw [readValue, skipBlanks_cons rfl]
      simp only
      rw [skipBlanks_newLine]
      rw [printText, List.append_assoc, List.cons_append] at read ⊢
      rw [skipBlanks_cons rfl]
      split
      · next same => exact absurd (List.cons.inj same).1 (by decide)
      · rw [read]
        simp only [Option.bind_eq_bind, Option.bind_some]
        rw [Reads.members others (by rw [List.length_append]; omega) (by omega)]
        rfl

end Reads

/-- A value that is read wherever it is printed is read from its own document. -/
theorem parse_pretty {value : Json} (reads : Reads value) : parse value.pretty = some value := by
  have enough : (value.print 0).length < value.pretty.length + 1 := by
    rw [pretty, String.length_ofList]
    exact Nat.lt_succ_self _
  have read := reads.read enough []
  rw [List.append_nil] at read
  rw [parse, pretty, String.toList_ofList, ← pretty, read]
  rfl

end VerilogInterface.Json
