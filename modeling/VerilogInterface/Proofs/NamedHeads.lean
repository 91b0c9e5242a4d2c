import Mathlib.Data.List.Basic
import VerilogInterface.Interface.PortHead
import VerilogInterface.Proofs.Words

/-! Heads of ports with a name behind them. Blanks at the ends of a head mean nothing; a name behind a
head that has none becomes its name and changes nothing else about it. -/

namespace VerilogInterface

namespace Text

variable {gap name rest characters tail : List Char} {separator : Char}

theorem wordRuns_gap (all : Gap gap) (rest : List Char) : wordRuns (gap ++ rest) = wordRuns rest := by
  induction gap with
  | nil => rfl
  | cons blank gap ih =>
    obtain ⟨here, later⟩ := List.forall_mem_cons.1 all
    rw [List.cons_append, wordRuns_blank here, ih later]

theorem wordRuns_named (all : Gap gap) (some : name ≠ [])
    (plain : ∀ character ∈ name, isBlank character = false) : wordRuns (gap ++ name) = [name] := by
  have none : ∀ next ∈ ([] : List Char).head?, isBlank next = true := nofun
  have word := wordRuns_append some plain none
  rw [List.append_nil, wordRuns_nil] at word
  rw [wordRuns_gap all, word]

/-- A text without words is blank. -/
theorem gap_of_wordRuns (none : wordRuns characters = []) : Gap characters := by
  induction characters with
  | nil => exact nofun
  | cons character rest ih =>
    cases blank : isBlank character with
    | true =>
      rw [wordRuns_blank blank] at none
      exact List.forall_mem_cons.2 ⟨blank, ih none⟩
    | false =>
      rw [wordRuns.eq_def] at none
      simp only [blank, Bool.false_eq_true, if_false] at none
      split at none
      · split at none <;> contradiction
      · contradiction

/-- Words behind a text stay when its ends are trimmed, with blanks between. -/
theorem exists_trimBoth_append (all : Gap gap) (some : name ≠ [])
    (plain : ∀ character ∈ name, isBlank character = false) (characters : List Char) :
    ∃ between, Gap between ∧
      trimBoth (characters ++ (gap ++ name)) = trimBoth characters ++ (between ++ name) := by
  obtain ⟨before, after, split, blank, blank', begins⟩ := exists_trim characters
  have ends (front : List Char) : ∀ last ∈ (front ++ name).getLast?, isBlank last = false := by
    intro last final
    rw [List.getLast?_append_of_ne_nil _ some] at final
    exact plain last (List.mem_of_getLast? final)
  have whole : characters ++ (gap ++ name) =
      before ++ (trimBoth characters ++ (after ++ gap ++ name)) := by
    conv => lhs; rw [split]
    simp only [List.append_assoc]
  rw [whole, trimBoth_gap_append blank]
  by_cases empty : trimBoth characters = []
  · refine ⟨[], nofun, ?_⟩
    rw [empty, List.nil_append, trimBoth_gap_append (blank'.append all), trimBoth_eq_self]
    · rfl
    · intro first found
      exact plain first (List.mem_of_head? found)
    · exact ends []
  · refine ⟨after ++ gap, blank'.append all, trimBoth_eq_self ?_ ?_⟩
    · intro first found
      rw [List.head?_append_of_ne_nil _ empty] at found
      exact begins first found
    · rw [← List.append_assoc]
      exact ends _

/-- What is behind the last separator goes on. -/
theorem exists_pieces_append (absent : separator ∉ tail) (characters : List Char) :
    ∃ others last, pieces separator characters = others ++ [last] ∧
      pieces separator (characters ++ tail) = others ++ [last ++ tail] := by
  induction characters with
  | nil => exact ⟨[], [], rfl, pieces_of_not_mem absent⟩
  | cons character characters ih =>
    obtain ⟨others, last, same, same'⟩ := ih
    rw [List.cons_append, pieces, pieces, same, same']
    by_cases separates : character = separator
    · rw [if_pos separates, if_pos separates]
      exact ⟨[] :: others, last, rfl, rfl⟩
    · rw [if_neg separates, if_neg separates]
      cases others with
      | nil => exact ⟨[], character :: last, rfl, rfl⟩
      | cons piece others => exact ⟨(character :: piece) :: others, last, rfl, rfl⟩

theorem cut?_of_not_mem (absent : separator ∉ tail) : cut? separator tail = none := by
  induction tail with
  | nil => rfl
  | cons character tail ih =>
    simp only [List.mem_cons, not_or] at absent
    rw [cut?, if_neg (Ne.symm absent.1), ih absent.2]
    rfl

theorem cut?_append_tail (absent : separator ∉ tail) (characters : List Char) :
    cut? separator (characters ++ tail) =
      (cut? separator characters).map fun cut => (cut.1, cut.2 ++ tail) := by
  induction characters with
  | nil => exact cut?_of_not_mem absent
  | cons character characters ih =>
    rw [List.cons_append, cut?, cut?]
    split
    · rfl
    · rw [ih]
      cases cut? separator characters <;> rfl

end Text

namespace PortHead

open Text

variable {gap name characters : List Char} {head head' : String}

theorem parse_congr (same : trimBoth head.toList = trimBoth head'.toList) :
    parse head = parse head' := by
  rw [parse, parse, same]

theorem phrase_named (all : Gap gap) (some : name ≠ [])
    (plain : ∀ character ∈ name, isBlank character = false) :
    phrase (gap ++ name) = .some (String.ofList name) := by
  rw [phrase, joinedWords, words, String.toList_ofList, wordRuns_named all some plain]
  simp

theorem gap_of_phrase (none : phrase characters = none) : Gap characters := by
  rw [phrase, joinedWords, words, String.toList_ofList] at none
  split at none
  · next empty => exact gap_of_wordRuns (List.map_eq_nil_iff.1 empty)
  · contradiction

theorem ofWords_of_gap (all : Gap characters) : ofWords characters = {} := by
  have none : wordRuns characters = [] := by
    have runs := wordRuns_gap all []
    rwa [List.append_nil] at runs
  rw [ofWords, words, String.toList_ofList, none]
  rfl

theorem ofWords_named (all : Gap gap) (some : name ≠ [])
    (plain : ∀ character ∈ name, isBlank character = false) :
    ofWords (gap ++ name) = { name := String.ofList name } := by
  rw [ofWords, words, String.toList_ofList, wordRuns_named all some plain]
  rfl

/-- A head without brackets has a name, unless it is blank. -/
theorem gap_of_ofWords (unnamed : (ofWords characters).name = none) : Gap characters := by
  rw [ofWords, words, String.toList_ofList] at unnamed
  split at unnamed
  · next none =>
    exact gap_of_wordRuns (List.map_eq_nil_iff.1 (List.reverse_eq_nil_iff.1 none))
  · contradiction
  · contradiction

/-- A name behind a head without one is its name. -/
theorem parse_named (unnamed : (parse head).bind PortHead.name = none) (all : Gap gap)
    (some : name ≠ []) (plain : ∀ character ∈ name, isBlank character = false)
    (opens : '[' ∉ name) (closes : ']' ∉ name) :
    parse (head ++ String.ofList (gap ++ name)) =
      (parse head).map ({ · with name := String.ofList name }) := by
  obtain ⟨between, blank, trimmed⟩ := exists_trimBoth_append all some plain head.toList
  have apart (mark : Char) (other : isBlank mark = false) (absent : mark ∉ name) :
      mark ∉ between ++ name := by
    intro member
    rcases List.mem_append.1 member with inside | named
    · rw [blank mark inside] at other
      contradiction
    · exact absent named
  rw [parse, String.toList_append, String.toList_ofList, trimmed, parse]
  rw [parse] at unnamed
  generalize trimBoth head.toList = text at unnamed ⊢
  by_cases bracket : '[' ∈ text
  · obtain ⟨net, inner, rfl, outside⟩ := List.eq_append_cons_of_mem bracket
    obtain ⟨others, last, pieces, pieces'⟩ :=
      exists_pieces_append (apart '[' (by decide) opens) inner
    rw [pieces_append outside, pieces] at unnamed
    rw [List.append_assoc, List.cons_append, pieces_append outside, pieces_append outside, pieces,
      pieces']
    have named {behind : List Char} (none : phrase behind = .none) :
        phrase (behind ++ (between ++ name)) = String.ofList name := by
      rw [← List.append_assoc]
      exact phrase_named ((gap_of_phrase none).append blank) some plain
    have cut := cut?_append_tail (apart ']' (by decide) closes)
    generalize between ++ name = tail at named cut
    match others with
    | [] =>
      cases found : cut? ']' last with
      | none => simp [cut, found]
      | some pair =>
        obtain ⟨range, behind⟩ := pair
        have none : phrase behind = .none := by simpa [found] using unnamed
        simp [cut, found, named none]
    | [middle] =>
      cases found : cut? ']' middle with
      | none => simp [found]
      | some pair =>
        obtain ⟨range, between⟩ := pair
        cases found' : cut? ']' last with
        | none => simp [cut, found, found']
        | some pair =>
          obtain ⟨array, behind⟩ := pair
          have none : phrase between = .none ∧ phrase behind = .none := by
            simpa [found, found'] using unnamed
          simp [cut, found, found', none.1, named none.2]
    | _ :: _ :: [] => rfl
    | _ :: _ :: _ :: _ => rfl
  · have absent : '[' ∉ text ++ (between ++ name) := by
      rw [List.mem_append]
      exact fun member => member.elim bracket (apart '[' (by decide) opens)
    rw [pieces_of_not_mem bracket] at unnamed ⊢
    rw [pieces_of_not_mem absent]
    -- a head without brackets has a name as soon as it has a word
    have none := gap_of_ofWords unnamed
    rw [← List.append_assoc]
    change Option.some (ofWords _) = Option.some { ofWords text with name := String.ofList name }
    rw [ofWords_named (none.append blank) some plain, ofWords_of_gap none]

end PortHead

end VerilogInterface
