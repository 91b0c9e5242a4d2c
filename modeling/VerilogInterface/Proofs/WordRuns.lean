import VerilogInterface.Proofs.NamedHeads

/-! The words of a text. Trimming and single spaces between words are normal forms: neither loses a
word, and a text that is built of words has just these words. -/

namespace VerilogInterface

namespace Text

variable {before after word rest characters : List Char} {blank : Char}

structure Trimmed (characters : List Char) : Prop where
  begins : ∀ first ∈ characters.head?, isBlank first = false
  ends : ∀ last ∈ characters.getLast?, isBlank last = false

structure Tidy (text : String) : Prop where
  some : text ≠ ""
  trimmed : Trimmed text.toList

/-- What an optional text comes to without the blanks around it; one that is blank comes to
nothing, like one that is missing. -/
inductive TrimsTo : Option String → Option String → Prop where
  | missing : TrimsTo none none
  | blank {text : String} (blank : Gap text.toList) : TrimsTo (some text) none
  | text {text part : String} {before after : List Char}
      (split : text.toList = before ++ part.toList ++ after) (lead : Gap before)
      (trail : Gap after) (tidy : Tidy part) : TrimsTo (some text) (some part)

theorem TrimsTo.tidy {written found : Option String} (trims : TrimsTo written found) :
    ∀ part ∈ found.toList, Tidy part := by
  cases trims with
  | missing | blank => exact nofun
  | text _ _ _ tidy => exact List.forall_mem_singleton.2 tidy

theorem wordRuns_word (some : word ≠ [])
    (plain : ∀ character ∈ word, isBlank character = false) : wordRuns word = [word] := by
  have none : Gap ([] : List Char) := nofun
  exact wordRuns_named none some plain

theorem Trimmed.of_plain (plain : ∀ character ∈ word, isBlank character = false) :
    Trimmed word where
  begins first head := plain first (List.mem_of_head? head)
  ends last final := plain last (List.mem_of_getLast? final)

theorem Trimmed.append (one : Trimmed before) (two : Trimmed after) (first : before ≠ [])
    (second : after ≠ []) (between : List Char) : Trimmed (before ++ between ++ after) where
  begins character head := by
    rw [List.append_assoc, List.head?_append_of_ne_nil _ first] at head
    exact one.begins character head
  ends character final := by
    rw [List.getLast?_append_of_ne_nil _ second] at final
    exact two.ends character final

theorem Trimmed.trimBoth_eq (trimmed : Trimmed characters) : trimBoth characters = characters :=
  trimBoth_eq_self trimmed.begins trimmed.ends

theorem trimmed_trimBoth (characters : List Char) : Trimmed (trimBoth characters) where
  begins := by
    obtain ⟨_, _, _, _, _, begins⟩ := exists_trim characters
    exact begins
  ends last final := by
    rw [trimBoth, trimRight, List.getLast?_reverse] at final
    have stops := List.head?_dropWhile_not isBlank (characters.dropWhile isBlank).reverse
    rw [Option.mem_def.1 final] at stops
    exact stops

theorem trimmed_trim (text : String) : Trimmed (trim text).toList := by
  rw [trim, String.toList_ofList]
  exact trimmed_trimBoth text.toList

theorem trimsTo_trim (text : String) :
    TrimsTo (some text) (if trim text = "" then none else some (trim text)) := by
  obtain ⟨before, after, split, lead, trail, _⟩ := exists_trim text.toList
  have same : trimBoth text.toList = (trim text).toList := String.toList_ofList.symm
  rw [same] at split
  split
  · next none =>
    apply TrimsTo.blank
    rw [split, none]
    intro character member
    rcases List.mem_append.1 member with front | behind
    · exact lead character (by simpa using front)
    · exact trail character behind
  · next some => exact .text split lead trail ⟨some, trimmed_trim text⟩

theorem trimRight_append_cons {character : Char} (plain : isBlank character = false)
    (before after : List Char) :
    trimRight (before ++ character :: after) = before ++ character :: trimRight after := by
  rw [trimRight, trimRight, List.reverse_append, List.reverse_cons, List.append_assoc,
    List.dropWhile_append]
  split
  · next none =>
    rw [List.isEmpty_iff.1 none, List.singleton_append,
      List.dropWhile_cons_of_neg (by simp [plain])]
    simp
  · simp

/-- Trimming stops at a character that is not blank, from the left and from the right. -/
theorem trimBoth_append_cons {character : Char} (plain : isBlank character = false)
    (before after : List Char) :
    trimBoth (before ++ character :: after) =
      before.dropWhile isBlank ++ character :: trimRight after := by
  have left : (before ++ character :: after).dropWhile isBlank =
      before.dropWhile isBlank ++ character :: after := by
    rw [List.dropWhile_append, List.dropWhile_cons_of_neg (by simp [plain])]
    split
    · next none => rw [List.isEmpty_iff.1 none, List.nil_append]
    · rfl
  rw [trimBoth, left, trimRight_append_cons plain]

/-- What begins with a character of some kind begins with a whole run of them. -/
theorem exists_run {accept : Char → Bool} {first : Char} (accepted : accept first = true)
    (others : List Char) :
    ∃ run rest, first :: others = run ++ rest ∧ run ≠ [] ∧
      (∀ character ∈ run, accept character = true) ∧
      ∀ next ∈ rest.head?, accept next = false := by
  have run : others.takeWhile accept ++ others.dropWhile accept = others :=
    List.takeWhile_append_dropWhile
  refine ⟨first :: others.takeWhile accept, others.dropWhile accept, ?_, nofun,
    List.forall_mem_cons.2 ⟨accepted, List.all_eq_true.1 List.all_takeWhile⟩, ?_⟩
  · rw [List.cons_append, run]
  · intro next head
    have stops := List.head?_dropWhile_not accept others
    rwa [Option.mem_def.1 head] at stops

/-- A text is empty, begins with a blank or begins with a whole word. -/
theorem wordRuns_induction {motive : List Char → Prop} (nil : motive [])
    (gap : ∀ blank rest, isBlank blank = true → motive rest → motive (blank :: rest))
    (run : ∀ word rest, word ≠ [] → (∀ character ∈ word, isBlank character = false) →
      (∀ next ∈ rest.head?, isBlank next = true) → motive rest → motive (word ++ rest))
    (characters : List Char) : motive characters := by
  induction length : characters.length using Nat.strongRecOn generalizing characters with
  | ind _ ih =>
    subst length
    cases characters with
    | nil => exact nil
    | cons character others =>
      cases starts : isBlank character with
      | true => exact gap character others starts (ih _ (Nat.lt_succ_self _) others rfl)
      | false =>
        have visible : (! isBlank character) = true := by rw [starts]; rfl
        obtain ⟨word, rest, split, some, plain, ends⟩ :=
          @exists_run (! isBlank ·) character visible others
        have shorter : rest.length < (character :: others).length := by
          have longer := List.length_pos_iff.2 some
          rw [split, List.length_append]
          omega
        rw [split]
        refine run word rest some ?_ ?_ (ih _ shorter _ rfl)
        · simpa using plain
        · simpa using ends

/-- A blank parts the words in front of it from the words behind it. -/
theorem wordRuns_parted (ends : isBlank blank = true) (before after : List Char) :
    wordRuns (before ++ blank :: after) = wordRuns before ++ wordRuns after := by
  induction before using wordRuns_induction with
  | nil => exact wordRuns_blank ends after
  | gap other rest same ih => rw [List.cons_append, wordRuns_blank same, wordRuns_blank same, ih]
  | run word rest some plain stops ih =>
    have stops' : ∀ next ∈ (rest ++ blank :: after).head?, isBlank next = true := by
      cases rest with
      | nil =>
        rintro _ ⟨⟩
        exact ends
      | cons next rest => exact stops
    rw [List.append_assoc, wordRuns_append some plain stops', wordRuns_append some plain stops, ih,
      List.cons_append]

/-- The words hold all characters that are not blank, in their order. -/
theorem flatten_wordRuns (characters : List Char) :
    (wordRuns characters).flatten = characters.filter (! isBlank ·) := by
  induction characters using wordRuns_induction with
  | nil => rfl
  | gap blank rest same ih =>
    rw [wordRuns_blank same, List.filter_cons_of_neg (by simp [same]), ih]
  | run word rest some plain stops ih =>
    have kept : word.filter (! isBlank ·) = word :=
      List.filter_eq_self.2 fun character member => by rw [plain character member, Bool.not_false]
    rw [wordRuns_append some plain stops, List.flatten_cons, ih, List.filter_append, kept]

theorem nil_not_mem_wordRuns (characters : List Char) : [] ∉ wordRuns characters := by
  induction characters using wordRuns_induction with
  | nil => exact nofun
  | gap blank rest same ih => rwa [wordRuns_blank same]
  | run word rest some plain stops ih =>
    rw [wordRuns_append some plain stops, List.mem_cons, not_or]
    exact ⟨some.symm, ih⟩

theorem plain_of_mem_wordRuns (member : word ∈ wordRuns characters) :
    ∀ character ∈ word, isBlank character = false := by
  intro character inside
  have kept : character ∈ (wordRuns characters).flatten := List.mem_flatten_of_mem member inside
  rw [flatten_wordRuns] at kept
  simpa using (List.mem_filter.1 kept).2

/-- Texts with the same words have the same characters apart from blanks. -/
theorem mem_of_wordRuns_eq (same : wordRuns before = wordRuns after) {character : Char}
    (plain : isBlank character = false) (member : character ∈ before) : character ∈ after := by
  have kept : character ∈ before.filter (! isBlank ·) :=
    List.mem_filter.2 ⟨member, by rw [plain, Bool.not_false]⟩
  rw [← flatten_wordRuns, same, flatten_wordRuns] at kept
  exact (List.mem_filter.1 kept).1

/-- Words with single spaces between them. -/
def spaced (words : List (List Char)) : String := " ".intercalate (words.map String.ofList)

theorem spaced_cons_cons (first second : List Char) (others : List (List Char)) :
    (spaced (first :: second :: others)).toList =
      first ++ ' ' :: (spaced (second :: others)).toList := by
  simp [spaced, String.intercalate_cons_cons]

theorem spaced_singleton (word : List Char) : (spaced [word]).toList = word := by simp [spaced]

section
variable {words : List (List Char)} (some : [] ∉ words)
  (plain : ∀ word ∈ words, ∀ character ∈ word, isBlank character = false)
include some plain

theorem wordRuns_spaced : wordRuns (spaced words).toList = words := by
  induction words with
  | nil => rfl
  | cons first others ih =>
    rw [List.mem_cons, not_or] at some
    obtain ⟨here, later⟩ := List.forall_mem_cons.1 plain
    have single : wordRuns first = [first] := wordRuns_word (Ne.symm some.1) here
    cases others with
    | nil => rw [spaced_singleton, single]
    | cons second others =>
      rw [spaced_cons_cons, wordRuns_parted (by decide), single, ih some.2 later]
      rfl

theorem trimmed_spaced : Trimmed (spaced words).toList := by
  induction words with
  | nil => exact ⟨nofun, nofun⟩
  | cons first others ih =>
    rw [List.mem_cons, not_or] at some
    obtain ⟨here, later⟩ := List.forall_mem_cons.1 plain
    cases others with
    | nil =>
      rw [spaced_singleton]
      exact .of_plain here
    | cons second others =>
      have further : (spaced (second :: others)).toList ≠ [] := by
        intro none
        have runs := wordRuns_spaced some.2 later
        rw [none] at runs
        contradiction
      rw [spaced_cons_cons, List.append_cons]
      exact Trimmed.append (.of_plain here) (ih some.2 later) (Ne.symm some.1) further [' ']

end

/-- A sequence of words spells out as a trimmed text with these words. -/
theorem wordRuns_spaced_wordRuns (characters : List Char) :
    wordRuns (spaced (wordRuns characters)).toList = wordRuns characters :=
  wordRuns_spaced (nil_not_mem_wordRuns characters) fun _ => plain_of_mem_wordRuns

theorem trimmed_spaced_wordRuns (characters : List Char) :
    Trimmed (spaced (wordRuns characters)).toList :=
  trimmed_spaced (nil_not_mem_wordRuns characters) fun _ => plain_of_mem_wordRuns

theorem wordRuns_append_gap {gap : List Char} (all : Gap gap) (characters : List Char) :
    wordRuns (characters ++ gap) = wordRuns characters := by
  cases gap with
  | nil => rw [List.append_nil]
  | cons blank gap =>
    obtain ⟨here, later⟩ := List.forall_mem_cons.1 all
    have none := wordRuns_gap later []
    rw [List.append_nil, wordRuns_nil] at none
    rw [wordRuns_parted here, none, List.append_nil]

theorem wordRuns_dropWhile (characters : List Char) :
    wordRuns (characters.dropWhile isBlank) = wordRuns characters := by
  have split := @List.takeWhile_append_dropWhile _ isBlank characters
  conv_rhs => rw [← split]
  exact (wordRuns_gap (List.all_eq_true.1 List.all_takeWhile) _).symm

theorem wordRuns_trimRight (characters : List Char) :
    wordRuns (trimRight characters) = wordRuns characters := by
  have split : characters =
      trimRight characters ++ (characters.reverse.takeWhile isBlank).reverse := by
    rw [trimRight, ← List.reverse_append, List.takeWhile_append_dropWhile, List.reverse_reverse]
  have blanks : Gap (characters.reverse.takeWhile isBlank).reverse := by
    intro character member
    exact List.all_eq_true.1 List.all_takeWhile _ (List.mem_reverse.1 member)
  conv_rhs => rw [split]
  exact (wordRuns_append_gap blanks _).symm

theorem wordRuns_trimBoth (characters : List Char) :
    wordRuns (trimBoth characters) = wordRuns characters := by
  rw [trimBoth, wordRuns_trimRight, wordRuns_dropWhile]

theorem pieces_eq_cons {separator : Char} {piece : List Char} {others : List (List Char)}
    (split : pieces separator characters = piece :: others) :
    separator ∉ piece ∧ (others = [] ∧ characters = piece ∨
      ∃ rest, characters = piece ++ separator :: rest ∧ pieces separator rest = others) := by
  by_cases parted : separator ∈ characters
  · obtain ⟨before, rest, rfl, outside⟩ := List.eq_append_cons_of_mem parted
    rw [pieces_append outside] at split
    obtain ⟨rfl, rest⟩ := List.cons.inj split
    exact ⟨outside, .inr ⟨_, rfl, rest⟩⟩
  · rw [pieces_of_not_mem parted] at split
    obtain ⟨rfl, rfl⟩ := List.cons.inj split
    exact ⟨parted, .inl ⟨rfl, rfl⟩⟩

theorem eq_of_cut? {separator : Char} {cut : List Char × List Char}
    (found : cut? separator characters = some cut) :
    characters = cut.1 ++ separator :: cut.2 ∧ separator ∉ cut.1 := by
  by_cases parted : separator ∈ characters
  · obtain ⟨before, rest, rfl, outside⟩ := List.eq_append_cons_of_mem parted
    rw [cut?_append outside] at found
    cases found
    exact ⟨rfl, outside⟩
  · rw [cut?_of_not_mem parted] at found
    contradiction

/-- The first occurrence of a mark parts a text in one way. -/
theorem exists_of_first {mark : Char} {front : List Char} (absent : mark ∉ before)
    (present : mark ∈ front)
    (same : before ++ mark :: after = front ++ rest) :
    ∃ inner, front = before ++ mark :: inner ∧ after = inner ++ rest := by
  rcases split_either same.symm with inner | ⟨earlier, rfl, _⟩
  · exact inner
  · exact (absent (List.mem_append_left _ present)).elim

/-- What has no mark in it stands in front of the first one. -/
theorem exists_of_before {mark : Char} {front : List Char} (absent : mark ∉ front)
    (same : before ++ mark :: after = front ++ rest) : ∃ more, before = front ++ more := by
  rcases split_either same.symm with ⟨later, rfl, _⟩ | ⟨more, split, _⟩
  · simp at absent
  · exact ⟨more, split⟩

end Text

end VerilogInterface
