import Mathlib.Data.List.Basic
import VerilogInterface.Proofs.Ansi
import VerilogInterface.Proofs.Words

/-! The characters of the pieces of an interface, and the heads of its port lists read back. -/

namespace VerilogInterface.Ansi

open Text

theorem bounds_of_netCharacter {character : Char} (inside : netCharacter character = true) :
    45 ≤ character.toNat ∧ character.toNat ≤ 122 := by
  have letter : character.isAlpha =
      (decide ('A'.val ≤ character.val ∧ character.val ≤ 'Z'.val) ||
        (decide ('a'.val ≤ character.val) && decide (character.val ≤ 'z'.val))) := rfl
  simp only [netCharacter, Char.isAlphanum, letter, Char.isDigit, Bool.or_eq_true, Bool.and_eq_true,
    decide_eq_true_eq, beq_iff_eq, ge_iff_le, UInt32.le_iff_toNat_le] at inside
  have value : character.toNat = character.val.toNat := rfl
  rcases inside with ((((((⟨low, high⟩ | ⟨low, high⟩) | ⟨low, high⟩) | rfl) | rfl) | rfl) | rfl)
  · have : 'A'.val.toNat = 65 := rfl
    have : 'Z'.val.toNat = 90 := rfl
    omega
  · have : 'a'.val.toNat = 97 := rfl
    have : 'z'.val.toNat = 122 := rfl
    omega
  · have : '0'.val.toNat = 48 := rfl
    have : '9'.val.toNat = 57 := rfl
    omega
  all_goals decide

theorem bounds_of_isBlank {character : Char} (blank : isBlank character = true) :
    character.toNat ≤ 32 ∨ 133 ≤ character.toNat := by
  have all : ∀ code ∈ blankCodes, code ≤ 32 ∨ 133 ≤ code := by decide
  exact all _ (toNat_of_isBlank blank)

theorem isBlank_of_netCharacter {character : Char} (inside : netCharacter character = true) :
    isBlank character = false := by
  by_contra blank
  have bounds := bounds_of_netCharacter inside
  have others := bounds_of_isBlank (by simpa using blank)
  omega

theorem isWord_of_alphanumeric {character : Char}
    (inside : (character.isAlphanum || character == '_') = true) : isWord character = true := by
  have net : netCharacter character = true := by
    simp only [Bool.or_eq_true, beq_iff_eq] at inside
    rcases inside with letter | rfl
    · simp [netCharacter, letter]
    · rfl
  have bounds := bounds_of_netCharacter net
  have value : character.toNat = character.val.toNat := rfl
  have ascii : character.val < 128 := by
    rw [UInt32.lt_iff_toNat_lt]
    have : (128 : UInt32).toNat = 128 := rfl
    omega
  rw [isWord, if_pos ascii]
  simpa using inside

namespace Identifier

variable (identifier : Identifier)

theorem alphanumeric {character : Char} (member : character ∈ identifier.text.toList) :
    (character.isAlphanum || character == '_') = true := by
  have spelled := identifier.spelled
  unfold isIdentifier at spelled
  split at spelled
  · contradiction
  · next first others same =>
    obtain ⟨begins, goes⟩ := (Bool.and_eq_true _ _).mp spelled
    rw [same] at member
    rcases List.mem_cons.1 member with rfl | later
    · rcases (Bool.or_eq_true _ _).mp begins with letter | underscore
      · simp [Char.isAlphanum, letter]
      · simp [underscore]
    · exact List.all_eq_true.1 goes character later

theorem nonempty : identifier.text.toList ≠ [] := by
  intro empty
  have spelled := identifier.spelled
  rw [isIdentifier, empty] at spelled
  contradiction

theorem isWord {character : Char} (member : character ∈ identifier.text.toList) :
    isWord character = true :=
  isWord_of_alphanumeric (identifier.alphanumeric member)

theorem netCharacter {character : Char} (member : character ∈ identifier.text.toList) :
    netCharacter character = true := by
  have inside := identifier.alphanumeric member
  rcases (Bool.or_eq_true _ _).mp inside with letter | underscore
  · simp [Ansi.netCharacter, letter]
  · simp [Ansi.netCharacter, underscore]

theorem isBlank {character : Char} (member : character ∈ identifier.text.toList) :
    isBlank character = false :=
  isBlank_of_netCharacter (identifier.netCharacter member)

end Identifier

theorem Run.isBlank (run : Run netCharacter) {character : Char}
    (member : character ∈ run.text.toList) : isBlank character = false :=
  isBlank_of_netCharacter (run.all character member)

/-- Nothing between brackets, and nothing in a net type or a name, is a bracket. -/
theorem brackets_not_mem {characters : List Char}
    (all : ∀ character ∈ characters, dimensionCharacter character = true) :
    '[' ∉ characters ∧ ']' ∉ characters := by
  constructor <;> intro member <;> exact absurd (all _ member) (by decide)

theorem Identifier.dimensionCharacter (identifier : Identifier) :
    ∀ character ∈ identifier.text.toList, dimensionCharacter character = true := by
  intro character member
  rw [Ansi.dimensionCharacter, identifier.netCharacter member]
  rfl

def netText (net : List (Run netCharacter)) : List Char :=
  net.flatMap fun run => run.text.toList ++ [' ']

variable {net : List (Run netCharacter)} {rest : List Char}

theorem wordRuns_netText (net : List (Run netCharacter)) (rest : List Char) :
    wordRuns (netText net ++ rest) = net.map (·.text.toList) ++ wordRuns rest := by
  induction net with
  | nil => rfl
  | cons run net ih =>
    have split : netText (run :: net) ++ rest = run.text.toList ++ ' ' :: (netText net ++ rest) := by
      simp [netText]
    rw [split, wordRuns_append run.some (fun _ => run.isBlank) (by simp; decide),
      wordRuns_blank (by decide), ih]
    rfl

theorem netText_all (net : List (Run netCharacter)) :
    ∀ character ∈ netText net, dimensionCharacter character = true := by
  intro character member
  obtain ⟨run, _, inside⟩ := List.mem_flatMap.1 member
  rcases List.mem_append.1 inside with word | space
  · rw [dimensionCharacter, run.all character word]
    rfl
  · cases List.mem_singleton.1 space
    decide

theorem phrase_netText (net : List (Run netCharacter)) :
    PortHead.phrase (netText net) =
      if net = [] then none else some (" ".intercalate (net.map (·.text))) := by
  have runs := wordRuns_netText net []
  rw [List.append_nil] at runs
  have found : words (String.ofList (netText net)) = net.map (·.text) := by
    rw [words, String.toList_ofList, runs, wordRuns_nil]
    simp
  rw [PortHead.phrase, joinedWords, found]
  cases net <;> rfl

theorem phrase_name (identifier : Identifier) {blanks behind : List Char}
    (before : blanks = [] ∨ blanks = [' ']) (after : behind = [] ∨ behind = [' ']) :
    PortHead.phrase (blanks ++ identifier.text.toList ++ behind) = some identifier.text := by
  have ends : ∀ next ∈ behind.head?, Text.isBlank next = true := by
    rcases after with rfl | rfl
    · exact nofun
    · rintro _ ⟨⟩
      decide
  have word := wordRuns_append identifier.nonempty (fun _ => identifier.isBlank) ends
  have none : wordRuns behind = [] := by
    rcases after with rfl | rfl
    · rfl
    · exact wordRuns_blank (by decide) []
  have found : words (String.ofList (blanks ++ identifier.text.toList ++ behind)) =
      [identifier.text] := by
    rw [words, String.toList_ofList]
    rcases before with rfl | rfl
    · rw [List.nil_append, word, none]
      simp
    · rw [List.append_assoc, List.singleton_append, wordRuns_blank (by decide), word, none]
      simp
  rw [PortHead.phrase, joinedWords, found]
  simp

theorem toList_head (ports : Ports) :
    ports.head.toList = netText ports.net ++
      match ports.dimensions with
      | .none => ports.first.text.toList
      | .range range => '[' :: range.text.toList ++ ']' :: ' ' :: ports.first.text.toList
      | .packed range array =>
        '[' :: range.text.toList ++ ']' :: ' ' :: '[' :: array.text.toList ++
          ']' :: ' ' :: ports.first.text.toList
      | .unpacked range array =>
        '[' :: range.text.toList ++ ']' :: ' ' :: ports.first.text.toList ++
          ' ' :: '[' :: array.text.toList ++ [']'] := by
  have net : (String.join (ports.net.map (·.text ++ " "))).toList = netText ports.net := by
    simp [netText, String.toList_join, List.flatMap_map]
  rw [Ports.head, String.toList_append, net]
  cases ports.dimensions <;> simp [bracketed]

theorem Identifier.exists_concat (identifier : Identifier) :
    ∃ init last, identifier.text.toList = init ++ [last] ∧ Ansi.netCharacter last = true := by
  obtain ⟨init, last, same⟩ :=
    (List.eq_nil_or_concat identifier.text.toList).resolve_left identifier.nonempty
  rw [List.concat_eq_append] at same
  exact ⟨init, last, same, identifier.netCharacter (by simp [same])⟩

theorem Identifier.exists_cons (identifier : Identifier) :
    ∃ first others, identifier.text.toList = first :: others ∧ Ansi.netCharacter first = true := by
  obtain ⟨first, others, same⟩ := List.exists_cons_of_ne_nil identifier.nonempty
  exact ⟨first, others, same, identifier.netCharacter (by simp [same])⟩

theorem head_begins (ports : Ports) :
    ∃ first others, ports.head.toList = first :: others ∧
      (netCharacter first = true ∨ first = '[') := by
  rw [toList_head]
  cases ports.net with
  | nil =>
    cases ports.dimensions with
    | none =>
      obtain ⟨first, others, same, net⟩ := ports.first.exists_cons
      exact ⟨first, others, same, .inl net⟩
    | range | packed | unpacked => exact ⟨'[', _, rfl, .inr rfl⟩
  | cons run net =>
    obtain ⟨first, others, same⟩ := List.exists_cons_of_ne_nil run.some
    rw [netText, List.flatMap_cons, same]
    exact ⟨first, _, rfl, .inl (run.all first (by simp [same]))⟩

theorem head_ends (ports : Ports) :
    ∃ init last, ports.head.toList = init ++ [last] ∧ (netCharacter last = true ∨ last = ']') := by
  obtain ⟨init, last, same, net⟩ := ports.first.exists_concat
  rw [toList_head, same]
  cases ports.dimensions with
  | none => exact ⟨netText ports.net ++ init, last, by simp, .inl net⟩
  | range range =>
    exact ⟨netText ports.net ++ '[' :: range.text.toList ++ ']' :: ' ' :: init, last, by simp,
      .inl net⟩
  | packed range array =>
    exact ⟨netText ports.net ++ '[' :: range.text.toList ++ ']' :: ' ' :: '[' ::
      array.text.toList ++ ']' :: ' ' :: init, last, by simp, .inl net⟩
  | unpacked range array =>
    exact ⟨netText ports.net ++ '[' :: range.text.toList ++ ']' :: ' ' :: (init ++ [last]) ++
      ' ' :: '[' :: array.text.toList, ']', by simp, .inr rfl⟩

theorem head_all (ports : Ports) :
    ∀ character ∈ ports.head.toList, Verilog.continuesHead character = true := by
  have inside {character : Char} (dimension : dimensionCharacter character = true) :
      Verilog.continuesHead character = true := by
    simp only [dimensionCharacter, netCharacter, Bool.or_eq_true] at dimension
    simp only [Verilog.continuesHead, Verilog.startsHead, Bool.or_eq_true]
    tauto
  have bracket : Verilog.continuesHead '[' = true ∧ Verilog.continuesHead ']' = true ∧
      Verilog.continuesHead ' ' = true := by decide
  have net := fun character member => inside (netText_all ports.net character member)
  have name := fun character member => inside (ports.first.dimensionCharacter character member)
  rw [toList_head]
  cases ports.dimensions with
  | none => simpa [or_imp, forall_and] using ⟨net, name⟩
  | range range =>
    have first := fun character member => inside (range.all character member)
    simpa [or_imp, forall_and, bracket] using ⟨net, first, name⟩
  | packed range array =>
    have first := fun character member => inside (range.all character member)
    have second := fun character member => inside (array.all character member)
    simpa [or_imp, forall_and, bracket] using ⟨net, first, second, name⟩
  | unpacked range array =>
    have first := fun character member => inside (range.all character member)
    have second := fun character member => inside (array.all character member)
    simpa [or_imp, forall_and, bracket] using ⟨net, first, name, second⟩

theorem trimBoth_head (ports : Ports) : trimBoth (' ' :: ports.head.toList) = ports.head.toList := by
  rw [trimBoth_cons (by decide)]
  refine trimBoth_eq_self ?_ ?_
  · obtain ⟨first, others, same, kind⟩ := head_begins ports
    rw [same]
    rintro _ ⟨⟩
    rcases kind with net | rfl
    · exact isBlank_of_netCharacter net
    · decide
  · obtain ⟨init, last, same, kind⟩ := head_ends ports
    rw [same, List.getLast?_concat]
    rintro _ ⟨⟩
    rcases kind with net | rfl
    · exact isBlank_of_netCharacter net
    · decide

theorem intercalate_phrase (net : List (Run netCharacter)) (range : String) :
    " ".intercalate ((PortHead.phrase (netText net)).toList ++ [range]) =
      " ".intercalate (net.map (·.text) ++ [range]) := by
  rw [phrase_netText]
  cases net with
  | nil => rfl
  | cons run net =>
    have split : " ".intercalate ((run :: net).map (·.text) ++ [range]) =
        " ".intercalate ((run :: net).map (·.text)) ++ " " ++ " ".intercalate [range] :=
      String.intercalate_append_of_ne_nil (by simp) (by simp)
    rw [if_neg nofun, split]
    simp

theorem bracketed_trim (text : String) : PortHead.bracketed text.toList = bracketed (trim text) := by
  rw [← String.toList_inj]
  simp [PortHead.bracketed, bracketed, trim]

theorem ofWords_netText (net : List (Run netCharacter)) (identifier : Identifier) :
    (PortHead.ofWords (netText net ++ identifier.text.toList)).name = some identifier.text ∧
      (PortHead.ofWords (netText net ++ identifier.text.toList)).dataType =
        " ".intercalate (net.map (·.text)) := by
  have word : wordRuns identifier.text.toList = [identifier.text.toList] := by
    have ends : ∀ next ∈ ([] : List Char).head?, Text.isBlank next = true := nofun
    have split := wordRuns_append identifier.nonempty (fun _ => identifier.isBlank) ends
    rwa [List.append_nil] at split
  have found : (words (String.ofList (netText net ++ identifier.text.toList))).reverse =
      identifier.text :: (net.map (·.text)).reverse := by
    rw [words, String.toList_ofList, wordRuns_netText, word]
    simp
  rw [PortHead.ofWords, found]
  cases behind : (net.map (·.text)).reverse with
  | nil =>
    rw [List.reverse_eq_nil_iff] at behind
    rw [behind]
    exact ⟨rfl, rfl⟩
  | cons last others =>
    have same := congrArg List.reverse behind
    rw [List.reverse_reverse] at same
    rw [same]
    refine ⟨rfl, ?_⟩
    simp [PortHead.dataType]

theorem pieces_two {before range between array after : List Char} (opens : '[' ∉ before)
    (range_opens : '[' ∉ range) (between_opens : '[' ∉ between) (array_opens : '[' ∉ array)
    (after_opens : '[' ∉ after) :
    pieces '[' (before ++ '[' :: (range ++ ']' :: (between ++ '[' :: (array ++ ']' :: after)))) =
      [before, range ++ ']' :: between, array ++ ']' :: after] := by
  have middle : '[' ∉ range ++ ']' :: between := by simp [range_opens, between_opens]
  have last : '[' ∉ array ++ ']' :: after := by simp [array_opens, after_opens]
  rw [pieces_append opens, ← List.cons_append, ← List.append_assoc, pieces_append middle,
    pieces_of_not_mem last]

/-- A head is read back with its name and its type. -/
theorem parse_head (ports : Ports) :
    ∃ head, PortHead.parse (" " ++ ports.head) = some head ∧
      head.name = some ports.first.text ∧ head.dataType = ports.dataType := by
  have source : (" " ++ ports.head).toList = ' ' :: ports.head.toList := by simp
  rw [PortHead.parse, source, trimBoth_head, toList_head, Ports.dataType]
  obtain ⟨opens, _⟩ := brackets_not_mem (netText_all ports.net)
  obtain ⟨name_opens, _⟩ := brackets_not_mem ports.first.dimensionCharacter
  have name : PortHead.phrase (' ' :: ports.first.text.toList) = some ports.first.text := by
    have read := phrase_name ports.first (.inr rfl) (.inl rfl)
    rwa [List.append_nil] at read
  cases ports.dimensions with
  | none =>
    have whole : '[' ∉ netText ports.net ++ ports.first.text.toList := by simp [opens, name_opens]
    rw [pieces_of_not_mem whole]
    exact ⟨_, rfl, ofWords_netText ports.net ports.first⟩
  | range range =>
    obtain ⟨range_opens, range_closes⟩ := brackets_not_mem range.all
    have last : '[' ∉ range.text.toList ++ ']' :: ' ' :: ports.first.text.toList := by
      simp [range_opens, name_opens]
    have pieces : pieces '[' (netText ports.net ++
        ('[' :: range.text.toList ++ ']' :: ' ' :: ports.first.text.toList)) =
        [netText ports.net, range.text.toList ++ ']' :: ' ' :: ports.first.text.toList] := by
      rw [List.cons_append, pieces_append opens, pieces_of_not_mem last]
    rw [pieces]
    simp only [cut?_append range_closes, Option.bind_eq_bind, Option.bind_some]
    refine ⟨_, rfl, name, ?_⟩
    simp [PortHead.dataType, bracketed_trim, intercalate_phrase]
  | packed range array =>
    obtain ⟨range_opens, range_closes⟩ := brackets_not_mem range.all
    obtain ⟨array_opens, array_closes⟩ := brackets_not_mem array.all
    have after : '[' ∉ ' ' :: ports.first.text.toList := by simp [name_opens]
    have pieces := pieces_two opens range_opens (by decide : '[' ∉ [' ']) array_opens after
    have blank : PortHead.phrase [' '] = none := by decide
    simp only [List.cons_append, List.append_assoc, List.nil_append] at pieces ⊢
    simp only [pieces, cut?_append range_closes, cut?_append array_closes, Option.bind_eq_bind,
      Option.bind_some]
    refine ⟨_, rfl, by rw [blank, Option.none_or, name], ?_⟩
    simp [PortHead.dataType, bracketed_trim, intercalate_phrase]
  | unpacked range array =>
    obtain ⟨range_opens, range_closes⟩ := brackets_not_mem range.all
    obtain ⟨array_opens, array_closes⟩ := brackets_not_mem array.all
    have between : '[' ∉ ' ' :: (ports.first.text.toList ++ [' ']) := by simp [name_opens]
    have pieces := pieces_two opens range_opens between array_opens (List.not_mem_nil)
    have read := phrase_name ports.first (.inr rfl) (.inr rfl)
    simp only [List.cons_append, List.append_assoc, List.nil_append] at pieces read ⊢
    simp only [pieces, cut?_append range_closes, cut?_append array_closes, Option.bind_eq_bind,
      Option.bind_some]
    refine ⟨_, rfl, by rw [read, Option.some_or], ?_⟩
    simp [PortHead.dataType, bracketed_trim, intercalate_phrase]

end VerilogInterface.Ansi
