import VerilogInterface.Proofs.PathComponents
import VerilogInterface.Proofs.WordRuns

/-! The shapes of port heads. A head is read exactly if each opening bracket is closed before the
next one and there are two of them at most. Every head that is read has one canonical spelling,
which reads as the same head. -/

namespace VerilogInterface

namespace PortHead

open Text

/-- The head is spelled by the characters: the brackets stand apart and are closed one by one. -/
inductive Spelled : List Char → PortHead → Prop where
  | words {characters : List Char} (outside : '[' ∉ characters) :
      Spelled characters (ofWords characters)
  | ranged {net range after : List Char} (outside : '[' ∉ net) (opens : '[' ∉ range)
      (closes : ']' ∉ range) (outside' : '[' ∉ after) :
      Spelled (net ++ '[' :: range ++ ']' :: after)
        { netType := phrase net, range := some (bracketed range), name := phrase after }
  /-- An array may stand behind the name or in front of it. -/
  | arrayed {net range between array after : List Char} (outside : '[' ∉ net)
      (opens : '[' ∉ range) (closes : ']' ∉ range) (outside' : '[' ∉ between)
      (opens' : '[' ∉ array) (closes' : ']' ∉ array) (outside'' : '[' ∉ after) :
      Spelled (net ++ '[' :: range ++ ']' :: between ++ '[' :: array ++ ']' :: after)
        { netType := phrase net
          range := some (bracketed range)
          array := some (bracketed array)
          name := (phrase between).or (phrase after) }

/-- An opening bracket meets the next one, or the end, before a closing one. -/
def Unclosed (characters : List Char) : Prop :=
  ∃ before inner after, characters = before ++ '[' :: inner ++ after ∧
    '[' ∉ inner ∧ ']' ∉ inner ∧ ∀ next ∈ after.head?, next = '['

def Refused (characters : List Char) : Prop :=
  2 < characters.count '[' ∨ Unclosed characters

variable {characters net range between array after front rest : List Char} {head : PortHead}
  {text : String}

theorem Unclosed.of_cons {character : Char} (other : character ≠ '[')
    (unclosed : Unclosed (character :: rest)) : Unclosed rest := by
  obtain ⟨before, inner, after, split, lacks⟩ := unclosed
  cases before with
  | nil => exact absurd (List.cons.inj split).1 other
  | cons _ before => exact ⟨before, inner, after, (List.cons.inj split).2, lacks⟩

theorem Unclosed.of_append (outside : '[' ∉ front) (unclosed : Unclosed (front ++ rest)) :
    Unclosed rest := by
  induction front with
  | nil => exact unclosed
  | cons character front ih =>
    rw [List.mem_cons, not_or] at outside
    exact ih outside.2 (unclosed.of_cons (Ne.symm outside.1))

theorem not_unclosed (outside : '[' ∉ rest) : ¬ Unclosed rest := by
  rintro ⟨before, inner, after, rfl, _⟩
  simp at outside

/-- Behind a bracket that is closed the question is the same as before it. -/
theorem Unclosed.of_closed (opens : '[' ∉ range)
    (unclosed : Unclosed ('[' :: range ++ ']' :: rest)) : Unclosed rest := by
  obtain ⟨before, inner, after, split, lacks, open', stops⟩ := unclosed
  cases before with
  | nil =>
    have same : range ++ ']' :: rest = inner ++ after := (List.cons.inj split).2
    rcases split_either same.symm with ⟨more, rfl, _⟩ | ⟨more, rfl, tail⟩
    · simp at open'
    · rw [tail] at stops
      cases more with
      | nil => exact absurd (stops ']' rfl) (by decide)
      | cons character more =>
        cases stops character rfl
        simp at opens
  | cons _ before =>
    have behind : Unclosed (range ++ ']' :: rest) :=
      ⟨before, inner, after, (List.cons.inj split).2, lacks, open', stops⟩
    exact (behind.of_append opens).of_cons (by decide)

/-- An opening bracket that is closed, split at both. -/
theorem exists_closed (opens : '[' ∉ range) (closed : ¬ Unclosed ('[' :: range))  :
    ∃ inner after, range = inner ++ ']' :: after ∧ ']' ∉ inner := by
  by_cases closes : ']' ∈ range
  · exact List.eq_append_cons_of_mem closes
  · refine absurd ⟨[], range, [], ?_, opens, closes, nofun⟩ closed
    simp

theorem Unclosed.append (unclosed : Unclosed front) (stops : ∀ next ∈ rest.head?, next = '[') :
    Unclosed (front ++ rest) := by
  obtain ⟨before, inner, after, rfl, lacks, open', stops'⟩ := unclosed
  refine ⟨before, inner, after ++ rest, by simp, lacks, open', ?_⟩
  cases after with
  | nil => exact stops
  | cons character after => exact stops'

theorem Unclosed.behind (unclosed : Unclosed rest) (front : List Char) :
    Unclosed (front ++ rest) := by
  obtain ⟨before, inner, after, rfl, others⟩ := unclosed
  exact ⟨front ++ before, inner, after, by simp, others⟩

theorem Spelled.not_refused (spelled : Spelled characters head) : ¬ Refused characters := by
  have none {front : List Char} (outside : '[' ∉ front) : front.count '[' = 0 :=
    List.count_eq_zero.2 outside
  cases spelled with
  | words outside =>
    rintro (many | unclosed)
    · rw [none outside] at many
      contradiction
    · exact not_unclosed outside unclosed
  | ranged outside opens closes outside' =>
    rintro (many | unclosed)
    · simp [none outside, none opens, none outside'] at many
    · rw [List.append_assoc] at unclosed
      exact not_unclosed outside' ((unclosed.of_append outside).of_closed opens)
  | arrayed outside opens closes outside' opens' closes' outside'' =>
    rintro (many | unclosed)
    · simp [none outside, none opens, none outside', none opens', none outside''] at many
    · simp only [List.append_assoc, List.cons_append] at unclosed
      have behind := ((unclosed.of_append outside).of_closed opens).of_append outside'
      exact not_unclosed outside'' (behind.of_closed opens')

/-- What is not refused is spelled somehow. -/
theorem exists_spelled (kept : ¬ Refused characters) : ∃ head, Spelled characters head := by
  obtain ⟨few, closed⟩ := not_or.1 kept
  by_cases bracket : '[' ∈ characters
  · obtain ⟨net, tail, rfl, outside⟩ := List.eq_append_cons_of_mem bracket
    by_cases bracket' : '[' ∈ tail
    · obtain ⟨first, second, rfl, opens⟩ := List.eq_append_cons_of_mem bracket'
      have last : '[' ∉ second := by
        intro more
        have counted := List.count_pos_iff.2 more
        simp at few
        omega
      obtain ⟨range, between, rfl, closes⟩ := exists_closed opens fun unclosed =>
        closed ((unclosed.append (by simp)).behind net)
      obtain ⟨array, after, rfl, closes'⟩ := exists_closed last fun unclosed => closed <| by
        simpa using unclosed.behind (net ++ '[' :: (range ++ ']' :: between))
      simp only [List.mem_append, List.mem_cons, not_or] at opens last
      have spelled := Spelled.arrayed outside opens.1 closes opens.2.2 last.1 closes' last.2.2
      exact ⟨_, by simpa using spelled⟩
    · obtain ⟨range, after, rfl, closes⟩ := exists_closed bracket' fun unclosed =>
        closed (unclosed.behind net)
      simp only [List.mem_append, List.mem_cons, not_or] at bracket'
      have spelled := Spelled.ranged outside bracket'.1 closes bracket'.2.2
      exact ⟨_, by simpa using spelled⟩
  · exact ⟨_, .words bracket⟩

theorem phrase_congr (same : wordRuns front = wordRuns rest) : phrase front = phrase rest := by
  rw [phrase, phrase, joinedWords, joinedWords, Text.words, Text.words, String.toList_ofList,
    String.toList_ofList, same]

theorem ofWords_congr (same : wordRuns front = wordRuns rest) : ofWords front = ofWords rest := by
  rw [ofWords, ofWords, Text.words, Text.words, String.toList_ofList, String.toList_ofList, same]

theorem bracketed_trimBoth (characters : List Char) :
    bracketed (trimBoth characters) = bracketed characters := by
  rw [bracketed, bracketed, (trimmed_trimBoth characters).trimBoth_eq]

theorem bracketed_ne_nil (characters : List Char) : (bracketed characters).toList ≠ [] := by
  simp [bracketed]

theorem trimmed_bracketed (characters : List Char) : Trimmed (bracketed characters).toList := by
  have ends : (bracketed characters).toList = ['['] ++ trimBoth characters ++ [']'] := by
    simp [bracketed]
  rw [ends]
  have single {mark : Char} (visible : isBlank mark = false) : Trimmed [mark] :=
    .of_plain (List.forall_mem_singleton.2 visible)
  exact Trimmed.append (single rfl) (single rfl) (List.cons_ne_nil _ _) (List.cons_ne_nil _ _) _

theorem not_mem_congr (same : wordRuns front = wordRuns rest) {character : Char}
    (plain : isBlank character = false) (absent : character ∉ front) : character ∉ rest :=
  fun member => absent (mem_of_wordRuns_eq same.symm plain member)

/-- A head that is spelled by the text is what the text reads as. -/
theorem Spelled.parse_eq (spelled : Spelled text.toList head) : parse text = some head := by
  have opening : isBlank '[' = false := by decide
  have closing : isBlank ']' = false := by decide
  have left {front : List Char} (outside : '[' ∉ front) : '[' ∉ front.dropWhile isBlank :=
    not_mem_congr (wordRuns_dropWhile front).symm opening outside
  have right {front : List Char} (outside : '[' ∉ front) : '[' ∉ trimRight front :=
    not_mem_congr (wordRuns_trimRight front).symm opening outside
  rw [parse]
  generalize text.toList = characters at spelled
  cases spelled with
  | words outside =>
    have same := wordRuns_trimBoth characters
    rw [pieces_of_not_mem (not_mem_congr same.symm opening outside)]
    exact congrArg some (ofWords_congr same)
  | @ranged net range after outside opens closes outside' =>
    have inner : '[' ∉ range ++ ']' :: trimRight after := by simp [opens, right outside']
    rw [List.append_assoc, List.cons_append, trimBoth_append_cons opening,
      trimRight_append_cons closing, pieces_append (left outside), pieces_of_not_mem inner]
    simp only [cut?_append closes, Option.bind_eq_bind, Option.bind_some,
      phrase_congr (wordRuns_dropWhile net), phrase_congr (wordRuns_trimRight after)]
  | @arrayed net range between array after outside opens closes outside' opens' closes' outside'' =>
    have inner : '[' ∉ range ++ ']' :: between := by simp [opens, outside']
    have inner' : '[' ∉ array ++ ']' :: trimRight after := by simp [opens', right outside'']
    have split : net ++ '[' :: range ++ ']' :: between ++ '[' :: array ++ ']' :: after =
        net ++ '[' :: ((range ++ ']' :: between) ++ '[' :: (array ++ ']' :: after)) := by simp
    rw [split, trimBoth_append_cons opening, trimRight_append_cons opening,
      trimRight_append_cons closing, pieces_append (left outside), pieces_append inner,
      pieces_of_not_mem inner']
    simp only [cut?_append closes, cut?_append closes', Option.bind_eq_bind, Option.bind_some,
      phrase_congr (wordRuns_dropWhile net), phrase_congr (wordRuns_trimRight after)]

/-- Blanks around a text do not change the head it spells. -/
theorem Spelled.of_trimBoth (spelled : Spelled (trimBoth characters) head) :
    Spelled characters head := by
  obtain ⟨lead, trail, split, blank, blank', _⟩ := exists_trim characters
  have front (net : List Char) : wordRuns (lead ++ net) = wordRuns net := wordRuns_gap blank net
  have behind (after : List Char) : wordRuns (after ++ trail) = wordRuns after :=
    wordRuns_append_gap blank' after
  have opening : isBlank '[' = false := by decide
  generalize trimBoth characters = trimmed at spelled split
  rw [split]
  cases spelled with
  | words outside =>
    have same : wordRuns (lead ++ trimmed ++ trail) = wordRuns trimmed := by rw [behind, front]
    rw [← ofWords_congr same]
    exact .words (not_mem_congr same.symm opening outside)
  | @ranged net range after outside opens closes outside' =>
    have spelled := Spelled.ranged (not_mem_congr (front net).symm opening outside) opens closes
      (not_mem_congr (behind after).symm opening outside')
    rw [phrase_congr (front net), phrase_congr (behind after)] at spelled
    simpa using spelled
  | @arrayed net range between array after outside opens closes outside' opens' closes' outside'' =>
    have spelled := Spelled.arrayed (not_mem_congr (front net).symm opening outside) opens closes
      outside' opens' closes' (not_mem_congr (behind after).symm opening outside'')
    rw [phrase_congr (front net), phrase_congr (behind after)] at spelled
    simpa using spelled

theorem spelled_of_parse (read : parse text = some head) : Spelled text.toList head := by
  refine .of_trimBoth ?_
  rw [parse] at read
  split at read
  · next whole split =>
    cases read
    obtain ⟨outside, ⟨_, same⟩ | ⟨rest, _, none⟩⟩ := pieces_eq_cons split
    · rw [same]
      exact .words outside
    · exact absurd none (pieces_ne_nil _ _)
  · next net first split =>
    obtain ⟨⟨range, after⟩, found, made⟩ := Option.bind_eq_some_iff.1 read
    cases made
    obtain ⟨rfl, closes⟩ := eq_of_cut? found
    obtain ⟨outside, ⟨none, _⟩ | ⟨rest, same, others⟩⟩ := pieces_eq_cons split
    · contradiction
    obtain ⟨outside', ⟨_, rfl⟩ | ⟨_, _, none⟩⟩ := pieces_eq_cons others
    · simp only [List.mem_append, List.mem_cons, not_or] at outside'
      rw [same, ← List.cons_append, ← List.append_assoc]
      exact .ranged outside outside'.1 closes outside'.2.2
    · exact absurd none (pieces_ne_nil _ _)
  · next net first second split =>
    obtain ⟨⟨range, between⟩, found, further⟩ := Option.bind_eq_some_iff.1 read
    obtain ⟨⟨array, after⟩, found', made⟩ := Option.bind_eq_some_iff.1 further
    cases made
    obtain ⟨rfl, closes⟩ := eq_of_cut? found
    obtain ⟨rfl, closes'⟩ := eq_of_cut? found'
    obtain ⟨outside, ⟨none, _⟩ | ⟨rest, same, others⟩⟩ := pieces_eq_cons split
    · contradiction
    obtain ⟨outside', ⟨none, _⟩ | ⟨rest', rfl, last⟩⟩ := pieces_eq_cons others
    · contradiction
    obtain ⟨outside'', ⟨_, rfl⟩ | ⟨_, _, none⟩⟩ := pieces_eq_cons last
    · simp only [List.mem_append, List.mem_cons, not_or] at outside' outside''
      have spelled := Spelled.arrayed outside outside'.1 closes outside'.2.2 outside''.1 closes'
        outside''.2.2
      rw [same]
      simpa using spelled
    · exact absurd none (pieces_ne_nil _ _)
  · contradiction

theorem parse_eq_some_iff : parse text = some head ↔ Spelled text.toList head :=
  ⟨spelled_of_parse, Spelled.parse_eq⟩

theorem parse_eq_none_iff : parse text = none ↔ Refused text.toList := by
  constructor
  · intro none
    by_contra kept
    obtain ⟨head, spelled⟩ := exists_spelled kept
    rw [spelled.parse_eq] at none
    contradiction
  · intro refused
    cases read : parse text with
    | none => rfl
    | some head => exact absurd refused (spelled_of_parse read).not_refused

/-! Each piece of a head is made of words, so that it can be spelled in front of a range or behind
it. -/

/-- Nothing, or words with single spaces between them and no opening bracket in them. -/
def Worded (found : Option String) : Prop :=
  ∃ characters, '[' ∉ characters ∧ phrase characters = found

theorem phrase_eq (characters : List Char) :
    phrase characters =
      if wordRuns characters = [] then none else some (spaced (wordRuns characters)) := by
  rw [phrase, joinedWords, Text.words, String.toList_ofList, spaced]
  cases wordRuns characters <;> rfl

theorem Worded.exists_runs {found : String} (worded : Worded (some found)) :
    ∃ characters, '[' ∉ characters ∧ wordRuns characters ≠ [] ∧
      found = spaced (wordRuns characters) := by
  obtain ⟨characters, outside, phrased⟩ := worded
  rw [phrase_eq] at phrased
  split at phrased
  · contradiction
  · next some =>
    cases phrased
    exact ⟨characters, outside, some, rfl⟩

/-- Words are spelled by themselves. -/
theorem Worded.spelled {found : String} (worded : Worded (some found)) :
    '[' ∉ found.toList ∧ phrase found.toList = some found ∧ found.toList ≠ [] ∧
      Trimmed found.toList := by
  obtain ⟨characters, outside, some, rfl⟩ := worded.exists_runs
  have same := wordRuns_spaced_wordRuns characters
  refine ⟨not_mem_congr same.symm (by decide) outside, ?_, ?_, trimmed_spaced_wordRuns characters⟩
  · rw [phrase_congr same, phrase_eq, if_neg some]
  · intro none
    rw [none] at same
    exact some same.symm

theorem worded_phrase (outside : '[' ∉ characters) : Worded (phrase characters) :=
  ⟨characters, outside, rfl⟩

theorem Worded.or {one two : Option String} (first : Worded one) (second : Worded two) :
    Worded (one.or two) := by
  cases one with
  | none => exact second
  | some found => exact first

/-- What stands behind the type is read as the name. -/
theorem Worded.exists_tail {name : Option String} (worded : Worded name) :
    ∃ tail, '[' ∉ tail ∧ phrase tail = name ∧ ((name.map (" " ++ ·)).getD "").toList = tail := by
  cases name with
  | none => exact ⟨[], nofun, rfl, rfl⟩
  | some name =>
    obtain ⟨outside, same, _, _⟩ := worded.spelled
    refine ⟨' ' :: name.toList, ?_, ?_, by simp⟩
    · rw [List.mem_cons, not_or]
      exact ⟨by decide, outside⟩
    · rw [phrase_congr (wordRuns_blank (by decide) _), same]

/-- The text stands in front of a range for the net type. -/
structure Leads (lead : List Char) (net : Option String) : Prop where
  outside : '[' ∉ lead
  same : phrase lead = net
  spells : ∀ range, (" ".intercalate (net.toList ++ [range])).toList = lead ++ range.toList
  trimmed : ∀ range, range ≠ [] → Trimmed range → Trimmed (lead ++ range)

theorem Worded.exists_lead {net : Option String} (worded : Worded net) :
    ∃ lead, Leads lead net := by
  cases net with
  | none => exact ⟨[], nofun, rfl, fun range => by simp, fun range _ trimmed => trimmed⟩
  | some net =>
    obtain ⟨outside, same, some, trimmed⟩ := worded.spelled
    refine ⟨net.toList ++ [' '], ?_, ?_, fun range => by simp [String.intercalate_cons_cons],
      fun range some' trimmed' => trimmed.append trimmed' some some' [' ']⟩
    · rw [List.mem_append, not_or]
      exact ⟨outside, by decide⟩
    · rw [phrase_congr (wordRuns_append_gap (by simp [Gap]; decide) _), same]

theorem wordRuns_phrase (characters : List Char) :
    wordRuns ((phrase characters).getD "").toList = wordRuns characters := by
  rw [phrase_eq]
  split
  · next none => rw [none]; rfl
  · exact wordRuns_spaced_wordRuns characters

/-- A head without brackets parts into the words of the net type and the word of the name. -/
theorem exists_ofWords (outside : '[' ∉ characters) :
    ∃ net name, '[' ∉ net ∧ '[' ∉ name ∧ wordRuns characters = wordRuns net ++ wordRuns name ∧
      ofWords characters = { netType := phrase net, name := phrase name } := by
  rcases List.eq_nil_or_concat (wordRuns characters) with none | ⟨words, name, runs⟩
  · exact ⟨[], [], nofun, nofun, none, ofWords_of_gap (gap_of_wordRuns none)⟩
  rw [List.concat_eq_append] at runs
  have whole {word : List Char} (member : word ∈ words ++ [name]) :
      word ≠ [] ∧ ∀ character ∈ word, isBlank character = false := by
    rw [← runs] at member
    exact ⟨fun none => nil_not_mem_wordRuns characters (none ▸ member),
      plain_of_mem_wordRuns member⟩
  have last := whole (List.mem_append_right words List.mem_cons_self)
  have front : wordRuns (spaced words).toList = words :=
    wordRuns_spaced (fun member => (whole (List.mem_append_left _ member)).1 rfl)
      fun word member => (whole (List.mem_append_left _ member)).2
  have single : wordRuns name = [name] := wordRuns_word last.1 last.2
  have parted : wordRuns characters = wordRuns ((spaced words).toList ++ ' ' :: name) := by
    rw [runs, wordRuns_parted (by decide), front, single]
  have outside' := not_mem_congr parted (by decide) outside
  simp only [List.mem_append, List.mem_cons, not_or] at outside'
  refine ⟨(spaced words).toList, name, outside'.1, outside'.2.2, by rw [runs, front, single], ?_⟩
  have reversed : ((wordRuns characters).map String.ofList).reverse =
      String.ofList name :: (words.map String.ofList).reverse := by
    rw [runs, List.map_append, List.reverse_append]
    rfl
  rw [ofWords, Text.words, String.toList_ofList, reversed, phrase_eq, phrase_eq, front, single]
  rcases List.eq_nil_or_concat words with rfl | ⟨words, last, rfl⟩
  · simp [spaced]
  · simp [spaced]

def canonical (head : PortHead) : String :=
  head.dataType ++ (head.name.map (" " ++ ·)).getD ""

theorem dataType_unranged (net name : Option String) :
    dataType { netType := net, name } = net.getD "" := by
  rw [dataType]
  cases net <;> simp

/-- A head without brackets keeps its words in its canonical spelling. -/
theorem wordRuns_canonical_ofWords (outside : '[' ∉ characters) :
    wordRuns (ofWords characters).canonical.toList = wordRuns characters := by
  obtain ⟨net, name, _, _, runs, made⟩ := exists_ofWords outside
  have front := wordRuns_phrase net
  have back := wordRuns_phrase name
  rw [made, runs, canonical, dataType_unranged]
  cases named : phrase name with
  | none =>
    have none : wordRuns name = [] := by
      rw [← back, named]
      rfl
    rw [none, List.append_nil]
    simpa using front
  | some found =>
    rw [named] at back
    have spelling : ((phrase net).getD "" ++ ((some found).map (" " ++ ·)).getD "").toList =
        ((phrase net).getD "").toList ++ ' ' :: found.toList := by simp
    rw [spelling, wordRuns_parted (by decide), front]
    exact congrArg _ back

namespace Spelled

theorem worded_name (spelled : Spelled characters head) : Worded head.name := by
  cases spelled with
  | words outside =>
    obtain ⟨net, name, _, outside', _, made⟩ := exists_ofWords outside
    exact made ▸ worded_phrase outside'
  | ranged _ _ _ outside => exact worded_phrase outside
  | arrayed _ _ _ outside _ _ outside' => exact (worded_phrase outside).or (worded_phrase outside')

theorem trimmed_dataType (spelled : Spelled characters head) : Trimmed head.dataType.toList := by
  cases spelled with
  | words outside =>
    obtain ⟨net, name, outside', _, _, made⟩ := exists_ofWords outside
    rw [made, dataType_unranged]
    cases found : phrase net with
    | none => exact ⟨nofun, nofun⟩
    | some net => exact (Worded.spelled ⟨_, outside', found⟩).2.2.2
  | @ranged net range after outside =>
    obtain ⟨lead, leads⟩ := (worded_phrase outside).exists_lead
    have spelling := leads.spells (bracketed range)
    rw [dataType]
    simp only [Option.toList_some, Option.getD_none, String.append_empty, spelling]
    exact leads.trimmed _ (bracketed_ne_nil range) (trimmed_bracketed range)
  | @arrayed net range between array after outside =>
    obtain ⟨lead, leads⟩ := (worded_phrase outside).exists_lead
    have spelling := leads.spells (bracketed range)
    rw [dataType]
    simp only [Option.toList_some, Option.getD_some, String.toList_append, spelling]
    rw [List.append_assoc]
    have both := (trimmed_bracketed range).append (trimmed_bracketed array) (bracketed_ne_nil range)
      (bracketed_ne_nil array) []
    rw [List.append_nil] at both
    exact leads.trimmed _ (List.append_ne_nil_of_left_ne_nil (bracketed_ne_nil range) _) both

/-- The canonical spelling of a head reads as the head. -/
theorem spelled_canonical (spelled : Spelled characters head) :
    Spelled head.canonical.toList head := by
  have inner {range : List Char} {mark : Char} (absent : mark ∉ range) : mark ∉ trimBoth range := by
    obtain ⟨_, _, split, _⟩ := exists_trim range
    rw [split] at absent
    simp only [List.mem_append, not_or] at absent
    exact absent.1.2
  cases spelled with
  | words outside =>
    have same := wordRuns_canonical_ofWords outside
    have again := Spelled.words (not_mem_congr same.symm (by decide) outside)
    rwa [ofWords_congr same] at again
  | @ranged net range after outside opens closes outside' =>
    obtain ⟨lead, leads⟩ := (worded_phrase outside).exists_lead
    obtain ⟨tail, outside', same, behind⟩ := (worded_phrase outside').exists_tail
    have again := Spelled.ranged leads.outside (inner opens) (inner closes) outside'
    rw [leads.same, same, bracketed_trimBoth] at again
    rw [canonical, dataType]
    simp only [Option.toList_some, Option.getD_none, String.append_empty, String.toList_append,
      leads.spells, behind]
    simpa [bracketed] using again
  | @arrayed net range between array after outside opens closes outside' opens' closes' outside'' =>
    obtain ⟨lead, leads⟩ := (worded_phrase outside).exists_lead
    obtain ⟨tail, outside', same, behind⟩ :=
      ((worded_phrase outside').or (worded_phrase outside'')).exists_tail
    have nothing : '[' ∉ ([] : List Char) := nofun
    have again := Spelled.arrayed leads.outside (inner opens) (inner closes) nothing
      (inner opens') (inner closes') outside'
    have none : (phrase []).or ((phrase between).or (phrase after)) =
        (phrase between).or (phrase after) := rfl
    rw [leads.same, same, none, bracketed_trimBoth, bracketed_trimBoth] at again
    rw [canonical, dataType]
    simp only [Option.toList_some, Option.getD_some, String.toList_append, leads.spells, behind]
    simpa [bracketed] using again

end Spelled

/-- A head in normal form: neither its name nor its type has blanks at its ends, and its canonical
spelling reads as the head itself. -/
structure Normal (head : PortHead) : Prop where
  name : ∀ name ∈ head.name, name ≠ "" ∧ Trimmed name.toList
  dataType : Trimmed head.dataType.toList
  canonical : parse head.canonical = some head

theorem Spelled.normal (spelled : Spelled characters head) : head.Normal where
  name name named := by
    have worded := spelled.worded_name
    rw [Option.mem_def.1 named] at worded
    obtain ⟨_, _, some, trimmed⟩ := worded.spelled
    exact ⟨fun none => some (congrArg String.toList none), trimmed⟩
  dataType := spelled.trimmed_dataType
  canonical := spelled.spelled_canonical.parse_eq

/-- A head is refused exactly if it has three opening brackets or one that is not closed before the
next. A text is read as a head exactly if it spells the head, and what is read is in normal form; so
all spellings of a head meet in one. -/
theorem refused_or_normal (text : String) :
    (parse text = none ↔ Refused text.toList) ∧
      (∀ head, parse text = some head ↔ Spelled text.toList head) ∧
      ∀ head ∈ parse text, head.Normal ∧
        ∀ other : String, Spelled other.toList head → parse other = parse head.canonical := by
  refine ⟨parse_eq_none_iff, fun _ => parse_eq_some_iff, ?_⟩
  intro head read
  have normal := (spelled_of_parse read).normal
  refine ⟨normal, ?_⟩
  intro other spelled
  rw [normal.canonical]
  exact spelled.parse_eq

/-- An array behind the name goes in front of it. -/
theorem exists_normal_wire :
    ∃ head, parse " wire  [ 7:0 ]  q [3:0] " = some head ∧
      head.canonical = "wire [7:0][3:0] q" ∧ head.Normal ∧
      Spelled "wire[7:0][3:0]q".toList head ∧ parse "wire[7:0][3:0]q" = some head := by
  have read : parse " wire  [ 7:0 ]  q [3:0] " =
      some { netType := "wire", range := "[7:0]", array := "[3:0]", name := "q" } := by
    decide +kernel
  have tight : parse "wire[7:0][3:0]q" =
      some { netType := "wire", range := "[7:0]", array := "[3:0]", name := "q" } := by
    decide +kernel
  have spelled := ((refused_or_normal "wire[7:0][3:0]q").2.1 _).1 tight
  have normal := (refused_or_normal " wire  [ 7:0 ]  q [3:0] ").2.2 _ read
  exact ⟨_, read, by decide +kernel, normal.1, spelled, tight⟩

end PortHead

end VerilogInterface
