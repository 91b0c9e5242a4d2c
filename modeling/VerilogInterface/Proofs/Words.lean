import Mathlib.Data.List.TakeWhile
import VerilogInterface.Proofs.Splits
import VerilogInterface.Text.Blank
import VerilogInterface.Text.Word

/-! How the ways of cutting a text undo the ways of putting one together. No character is both blank
and part of a word. -/

namespace VerilogInterface.Text

variable {word rest before after gap : List Char} {separator : Char}

def blankCodes : List Nat :=
  [0x9, 0xa, 0xb, 0xc, 0xd, 0x20, 0x85, 0xa0, 0x1680, 0x2000, 0x2001, 0x2002, 0x2003, 0x2004,
    0x2005, 0x2006, 0x2007, 0x2008, 0x2009, 0x200a, 0x2028, 0x2029, 0x202f, 0x205f, 0x3000]

theorem toNat_of_isBlank {character : Char} (blank : isBlank character = true) :
    character.toNat ∈ blankCodes := by
  simp only [isBlank, Bool.or_eq_true, Bool.and_eq_true, decide_eq_true_eq, Char.le_def,
    UInt32.le_iff_toNat_le] at blank
  have value : character.toNat = character.val.toNat := rfl
  rcases blank with
    ((((((((((rfl | ⟨low, high⟩) | rfl) | rfl) | rfl) | ⟨low, high⟩) | rfl) | rfl) | rfl) | rfl) |
      rfl)
  case inl.inl.inl.inl.inl.inl.inl.inl.inl.inr =>
    have : '\t'.val.toNat = 9 := rfl
    have : '\r'.val.toNat = 13 := rfl
    simp only [blankCodes, List.mem_cons]
    omega
  case inl.inl.inl.inl.inl.inr =>
    have : '\u2000'.val.toNat = 8192 := rfl
    have : '\u200a'.val.toNat = 8202 := rfl
    simp only [blankCodes, List.mem_cons]
    omega
  all_goals decide

theorem isWord_of_isBlank {character : Char} (blank : isBlank character = true) :
    isWord character = false := by
  have all : ∀ code ∈ blankCodes, isWord (Char.ofNat code) = false := by decide +kernel
  rw [← Char.ofNat_toNat character]
  exact all _ (toNat_of_isBlank blank)

def Gap (characters : List Char) : Prop :=
  ∀ character ∈ characters, isBlank character = true

theorem Gap.append (one : Gap before) (two : Gap after) : Gap (before ++ after) := by
  intro character member
  exact (List.mem_append.1 member).elim (one character) (two character)

theorem Gap.of_append (gap : Gap (before ++ after)) : Gap before ∧ Gap after :=
  ⟨fun character member => gap character (List.mem_append_left _ member),
    fun character member => gap character (List.mem_append_right _ member)⟩

theorem pieces_of_not_mem (absent : separator ∉ before) : pieces separator before = [before] := by
  induction before with
  | nil => rfl
  | cons character before ih =>
    simp only [List.mem_cons, not_or] at absent
    obtain ⟨other, absent⟩ := absent
    rw [pieces, if_neg (Ne.symm other), ih absent]

theorem pieces_append (absent : separator ∉ before) (after : List Char) :
    pieces separator (before ++ separator :: after) = before :: pieces separator after := by
  induction before with
  | nil => rw [List.nil_append, pieces, if_pos rfl]
  | cons character before ih =>
    simp only [List.mem_cons, not_or] at absent
    obtain ⟨other, absent⟩ := absent
    rw [List.cons_append, pieces, if_neg (Ne.symm other), ih absent]

theorem cut?_append (absent : separator ∉ before) (after : List Char) :
    cut? separator (before ++ separator :: after) = some (before, after) := by
  induction before with
  | nil => rw [List.nil_append, cut?, if_pos rfl]
  | cons character before ih =>
    simp only [List.mem_cons, not_or] at absent
    obtain ⟨other, absent⟩ := absent
    rw [List.cons_append, cut?, if_neg (Ne.symm other), ih absent]
    rfl

theorem wordRuns_nil : wordRuns [] = [] := rfl

theorem wordRuns_blank {blank : Char} (ends : isBlank blank = true) (rest : List Char) :
    wordRuns (blank :: rest) = wordRuns rest := by
  rw [wordRuns.eq_def]
  simp only [ends, if_true]

theorem wordRuns_single {character : Char} (plain : isBlank character = false)
    (ends : ∀ next ∈ rest.head?, isBlank next = true) :
    wordRuns (character :: rest) = [character] :: wordRuns rest := by
  rw [wordRuns.eq_def]
  cases rest with
  | nil =>
    simp only [plain]
    rfl
  | cons next rest =>
    simp only [plain]
    generalize wordRuns (next :: rest) = words
    cases words with
    | nil => rfl
    | cons word words => simp [ends next rfl]

theorem wordRuns_more {character next : Char} (plain : isBlank character = false)
    (inside : isBlank next = false) {word : List Char} {words : List (List Char)}
    (later : wordRuns (next :: rest) = word :: words) :
    wordRuns (character :: next :: rest) = (character :: word) :: words := by
  rw [wordRuns.eq_def]
  simp only [plain, inside, later]
  rfl

theorem wordRuns_append (some : word ≠ []) (all : ∀ character ∈ word, isBlank character = false)
    (ends : ∀ next ∈ rest.head?, isBlank next = true) :
    wordRuns (word ++ rest) = word :: wordRuns rest := by
  induction word with
  | nil => exact (some rfl).elim
  | cons character word ih =>
    obtain ⟨here, later⟩ := List.forall_mem_cons.1 all
    cases word with
    | nil => exact wordRuns_single here ends
    | cons next word =>
      exact wordRuns_more here (later next List.mem_cons_self) (ih nofun later)

theorem trimBoth_eq_self {characters : List Char}
    (begins : ∀ first ∈ characters.head?, isBlank first = false)
    (ends : ∀ last ∈ characters.getLast?, isBlank last = false) :
    trimBoth characters = characters := by
  have kept (characters : List Char) (plain : ∀ first ∈ characters.head?, isBlank first = false) :
      characters.dropWhile isBlank = characters := by
    cases characters with
    | nil => rfl
    | cons first rest => rw [List.dropWhile_cons_of_neg (by simp [plain first rfl])]
  rw [trimBoth, kept characters begins, trimRight, kept characters.reverse (by simpa using ends),
    List.reverse_reverse]

theorem trimBoth_cons {blank : Char} (removed : isBlank blank = true) (characters : List Char) :
    trimBoth (blank :: characters) = trimBoth characters := by
  rw [trimBoth, List.dropWhile_cons_of_pos removed, trimBoth]

theorem trimRight_append_gap (all : Gap gap) (characters : List Char) :
    trimRight (characters ++ gap) = trimRight characters := by
  rw [trimRight, trimRight, List.reverse_append, List.dropWhile_append_of_pos]
  intro character member
  exact all character (List.mem_reverse.1 member)

theorem trimBoth_gap_append (all : Gap gap) (characters : List Char) :
    trimBoth (gap ++ characters) = trimBoth characters := by
  rw [trimBoth, List.dropWhile_append_of_pos all, trimBoth]

theorem trimBoth_append_gap (all : Gap gap) (characters : List Char) :
    trimBoth (characters ++ gap) = trimBoth characters := by
  rw [trimBoth, trimBoth, List.dropWhile_append]
  split
  · next none =>
    have empty : gap.dropWhile isBlank = [] := List.dropWhile_eq_nil_iff.2 all
    rw [List.isEmpty_iff.1 none, empty]
  · exact trimRight_append_gap all _

/-- Trimming takes away blanks and leaves what begins and ends with none. -/
theorem exists_trim (characters : List Char) :
    ∃ before after, characters = before ++ trimBoth characters ++ after ∧ Gap before ∧ Gap after ∧
      (∀ first ∈ (trimBoth characters).head?, isBlank first = false) := by
  have front : characters = characters.takeWhile isBlank ++ characters.dropWhile isBlank :=
    List.takeWhile_append_dropWhile.symm
  have back : characters.dropWhile isBlank = trimBoth characters ++
      ((characters.dropWhile isBlank).reverse.takeWhile isBlank).reverse := by
    rw [trimBoth, trimRight, ← List.reverse_append, List.takeWhile_append_dropWhile,
      List.reverse_reverse]
  refine ⟨characters.takeWhile isBlank,
    ((characters.dropWhile isBlank).reverse.takeWhile isBlank).reverse, ?_,
    List.all_eq_true.1 List.all_takeWhile, ?_, ?_⟩
  · rw [List.append_assoc, ← back]
    exact front
  · intro character member
    exact List.all_eq_true.1 List.all_takeWhile _ (List.mem_reverse.1 member)
  · intro first head
    have stops := List.head?_dropWhile_not isBlank characters
    rw [back, List.head?_append, Option.mem_def.1 head] at stops
    simpa using stops

end VerilogInterface.Text
