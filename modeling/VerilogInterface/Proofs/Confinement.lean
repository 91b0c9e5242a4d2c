import VerilogInterface.Proofs.AnsiPatterns
import VerilogInterface.Proofs.LineEnds

/-! What the patterns of the grammar can take of the text up to the end of a module. Most of them
cannot take all of it, because they take no line break behind some letter of the closing keyword.
The others match in a way with which the module does not end any more. -/

namespace VerilogInterface.Verilog

open Pattern Text

/-- The characters from a place in or before a module to the end of the text, which has only a gap
behind the module. -/
structure Remains (gap characters : List Char) : Prop where
  split : ∃ before, characters = before ++ "endmodule".toList ++ gap
  blank : ∀ character ∈ gap, isBlank character = true
  last : characters.getLast? = some '\n'

variable {gap characters part more front behind : List Char} {character : Char}

theorem Remains.mem (remains : Remains gap characters) (letter : character ∈ "endmodule".toList) :
    character ∈ characters := by
  obtain ⟨before, rfl⟩ := remains.split
  simp only [List.mem_append]
  exact .inl (.inr letter)

/-- A character that the front part of a text lacks lies behind it. -/
theorem append_split_of_mem (same : part ++ more = front ++ behind) (member : character ∈ part)
    (absent : character ∉ front) :
    ∃ middle, part = front ++ middle ∧ character ∈ middle ∧ behind = middle ++ more := by
  rcases List.append_eq_append_iff.1 same with ⟨middle, rfl, _⟩ | ⟨middle, rfl, rest⟩
  · exact (absent (List.mem_append_left _ member)).elim
  · exact ⟨middle, rfl, (List.mem_append.1 member).resolve_left absent, rest⟩

def label : Pattern :=
  Pattern.sequence [exactly "\x7b\x7b", .capture 0 (.fewest (allBut '\n')), exactly "\x7d\x7d",
    .most (allBut '\n'), lineEnd]

theorem label_toLineEnd : ToLineEnd label :=
  .after rfl rfl (.after rfl rfl (.after rfl rfl (.after rfl rfl .lineEnd)))

theorem documentation_toLineEnd : ToLineEnd documentation :=
  .after rfl rfl (.after rfl rfl (.after rfl rfl .lineEnd))

theorem lineComment_toLineEnd : ToLineEnd lineComment := .after rfl rfl (.after rfl rfl .lineEnd)

theorem blanks_accepted {previous : Option Char} {taken rest : List Char} {writes : Writes}
    (takes : blanks.Takes previous taken rest writes) :
    ∀ character ∈ taken, isBlank character = true :=
  fun _ member => takes.mayTake member

theorem label_ends {previous : Option Char} {taken rest : List Char} {writes : Writes}
    (takes : label.Takes previous taken rest writes) : Ends isBlank (taken ++ rest) := by
  obtain ⟨braces, more, _, _, rfl, _, opens, _⟩ := takes.of_andThen
  rw [opens.of_literal]
  exact .cons (by decide) _

/-- A section label ends with its line or does not come so far. -/
theorem sectionLabel_within_or_consumes (remains : Remains gap characters) :
    sectionLabel.Within characters ∨ sectionLabel.Consumes characters := by
  by_cases within : sectionLabel.Within characters
  · exact .inl within
  · simp only [Within, not_forall, not_not] at within
    obtain ⟨more, behind, writes, takes⟩ := within
    obtain ⟨opening, further, _, _, same, _, one, two⟩ := takes.of_andThen
    obtain ⟨blank, line, _, _, rfl, _, between, last⟩ := two.of_andThen
    have absent : 'm' ∉ opening ++ blank := by
      intro member
      rcases List.mem_append.1 member with inOpening | inBlank
      · cases one.mayTake inOpening
      · cases between.mayTake inBlank
    rw [← List.append_assoc] at same
    obtain ⟨middle, rfl, inside, rfl⟩ :=
      append_split_of_mem same (remains.mem (by decide)) absent
    have ends := remains.last
    rw [List.getLast?_append_of_ne_nil _ (List.ne_nil_of_mem inside)] at ends
    obtain ⟨_, written, lineEnds⟩ := label_toLineEnd.takes_part last ends
    rw [List.append_assoc]
    refine .inr (Takes.consumes (.andThen (one.anywhere rfl _ _)
      (.andThen (between.anywhere rfl _ _) lineEnds)) ?_)
    intro taken rest writes split takes'
    obtain ⟨opening', further, _, _, rfl, _, one', two'⟩ := takes'.of_andThen
    obtain ⟨blank', line', _, _, rfl, _, between', last'⟩ := two'.of_andThen
    rw [one.of_literal, one'.of_literal, List.append_assoc, List.append_assoc] at split
    have behind := List.append_cancel_left split
    have begins := label_ends lineEnds
    rw [List.append_nil] at begins
    cases run_unique behind (blanks_accepted between) (blanks_accepted between') begins
      (label_ends last')
    have found := label_toLineEnd.rest_eq last'
    rw [← List.append_cancel_left behind] at found
    have left := label_toLineEnd.rest_eq lineEnds
    rw [List.append_nil] at left
    exact found.trans left.symm

theorem run_accepted {accept : Char → Bool} {previous : Option Char} {taken rest : List Char}
    {writes : Writes} (takes : (Pattern.run accept).Takes previous taken rest writes) :
    taken ≠ [] ∧ ∀ character ∈ taken, accept character = true := by
  constructor
  · intro none
    cases takes.nullable none
  · intro character member
    have may := takes.mayTake member
    rwa [Pattern.run, Pattern.mayTake, Pattern.mayTake, Pattern.mayTake, Bool.or_self] at may

theorem endsBlanks_word {word rest : List Char} (some : word ≠ [])
    (all : ∀ character ∈ word, isWord character = true) : Ends isBlank (word ++ rest) := by
  cases word with
  | nil => exact (some rfl).elim
  | cons first word =>
    refine .cons ?_ _
    by_contra blank
    have none := isWord_of_isBlank (by simpa using blank)
    rw [all first List.mem_cons_self] at none
    contradiction

theorem endsWord_blanks {blank : List Char} (all : ∀ character ∈ blank, isBlank character = true) :
    Ends isWord blank := by
  intro first head
  exact isWord_of_isBlank (all first (List.mem_of_head? head))

/-- The opening of a module stops in front of the next word or leaves nothing. -/
theorem moduleStart_within_or_consumes (remains : Remains gap characters) :
    moduleStart.Within characters ∨ moduleStart.Consumes characters := by
  by_cases within : moduleStart.Within characters
  · exact .inl within
  · simp only [Within, not_forall, not_not] at within
    obtain ⟨more, behind, writes, takes⟩ := within
    obtain ⟨keyword, _, _, _, same, _, one, two⟩ := takes.of_andThen
    obtain ⟨between, _, _, _, rfl, _, spaces, three⟩ := two.of_andThen
    obtain ⟨name, last, _, _, rfl, _, named, ends⟩ := three.of_andThen
    obtain ⟨_, _, word⟩ := named.of_capture
    obtain ⟨some, all⟩ := run_accepted word
    obtain ⟨some', all'⟩ := run_accepted spaces
    have absent : 'n' ∉ keyword ++ between := by
      intro member
      rcases List.mem_append.1 member with inKeyword | inBetween
      · cases one.mayTake inKeyword
      · cases spaces.mayTake inBetween
    rw [← List.append_assoc] at same
    obtain ⟨middle, rfl, inside, behindName⟩ :=
      append_split_of_mem same (remains.mem (by decide)) absent
    have lineBreak := remains.last
    rw [List.getLast?_append_of_ne_nil _ (List.ne_nil_of_mem inside)] at lineBreak
    have outside : '\n' ∉ name := by
      intro member
      cases word.mayTake member
    obtain ⟨blank, rfl, _, rfl⟩ :=
      append_split_of_mem behindName.symm (List.mem_of_getLast? lineBreak) outside
    have blanks' : ∀ character ∈ blank, isBlank character = true := by
      intro character member
      exact blanks_accepted ends character (List.mem_append_left _ member)
    have prefers : moduleStart.Prefers none (keyword ++ (between ++ (name ++ blank))) []
        [(0, String.ofList name)] := by
      have nameEnds : Ends isBlank (name ++ blank) := endsBlanks_word some all
      rw [one.of_literal]
      exact .chain .literal (.chain (.run some' all' nameEnds)
        (.chain (.capture (.run some all (endsWord_blanks blanks'))) (.most blanks' (.nil _))
          (List.append_nil _).symm) (List.append_nil _).symm) (List.append_nil _).symm
    have found := prefers.match?_eq
    rw [List.append_nil, ← List.append_assoc] at found
    exact .inr ⟨_, found, rfl⟩

/-- The last characters before the blanks at the end of a text are the same, however they are found. -/
theorem last_before_blanks {before before' blank blank' : List Char} {last last' : Char}
    (same : before ++ [last] ++ blank = before' ++ [last'] ++ blank')
    (plain : isBlank last = false) (plain' : isBlank last' = false)
    (all : ∀ character ∈ blank, isBlank character = true)
    (all' : ∀ character ∈ blank', isBlank character = true) : last = last' := by
  have reversed := congrArg List.reverse same
  simp only [List.reverse_append, List.reverse_cons, List.reverse_nil, List.nil_append,
    List.singleton_append] at reversed
  have alike := run_unique reversed (fun _ member => all _ (List.mem_reverse.1 member))
    (fun _ member => all' _ (List.mem_reverse.1 member)) (.cons plain _) (.cons plain' _)
  rw [alike] at reversed
  exact (List.cons.inj (List.append_cancel_left reversed)).1

def quotedValue : Pattern :=
  Pattern.sequence [symbol '"', .most fun inner => inner != '"' && inner != '\n', symbol '"']

def valueParts : Pattern :=
  .andThen valuePart (.rounds (.andThen (run spaceOrTab) valuePart))

/-- A parameter does not reach to the end of its list, since only a quoted value can hold what ends
it, and the last word of the module stands behind no quotation mark. -/
theorem parameterItem_within (remains : Remains gap characters)
    (listed : ')' ∈ characters ∨ ';' ∈ characters) : parameterItem.Within characters := by
  intro more behind writes takes
  obtain ⟨mark, inside, which⟩ : ∃ mark ∈ characters, mark = ')' ∨ mark = ';' :=
    listed.elim (⟨_, ·, .inl rfl⟩) (⟨_, ·, .inr rfl⟩)
  obtain ⟨first, _, _, _, same, _, one, two⟩ := takes.of_andThen
  obtain ⟨name, _, _, _, rfl, _, named, three⟩ := two.of_andThen
  obtain ⟨second, _, _, _, rfl, _, four, five⟩ := three.of_andThen
  obtain ⟨equals, _, _, _, rfl, _, six, seven⟩ := five.of_andThen
  obtain ⟨third, _, _, _, rfl, _, eight, nine⟩ := seven.of_andThen
  obtain ⟨value, last, _, _, rfl, _, valued, ends⟩ := nine.of_andThen
  obtain ⟨_, _, values⟩ := valued.of_capture
  have absent : mark ∉ first ++ (name ++ (second ++ (equals ++ third))) := by
    simp only [List.mem_append, not_or]
    rcases which with rfl | rfl
    all_goals
      refine ⟨?_, ?_, ?_, ?_, ?_⟩
      · exact fun member => nomatch one.mayTake member
      · exact fun member => nomatch named.mayTake member
      · exact fun member => nomatch four.mayTake member
      · exact fun member => nomatch six.mayTake member
      · exact fun member => nomatch eight.mayTake member
  have whole : characters ++ more =
      (first ++ (name ++ (second ++ (equals ++ third)))) ++ (value ++ last) := by
    simpa only [List.append_assoc] using same
  obtain ⟨middle, rfl, inMiddle, behindFront⟩ := append_split_of_mem whole inside absent
  have lineBreak := remains.last
  rw [List.getLast?_append_of_ne_nil _ (List.ne_nil_of_mem inMiddle)] at lineBreak
  rcases values.of_orElse with quoted | parts
  · have inLine : '\n' ∉ value := fun member => nomatch quoted.mayTake member
    obtain ⟨blank, rfl, _, rfl⟩ :=
      append_split_of_mem behindFront.symm (List.mem_of_getLast? lineBreak) inLine
    obtain ⟨_, _, _, _, rfl, _, _, inner⟩ := quoted.of_andThen
    obtain ⟨_, _, _, _, rfl, _, _, closing⟩ := inner.of_andThen
    obtain ⟨before, split⟩ := remains.split
    have letters : "endmodule".toList = "endmodul".toList ++ ['e'] := rfl
    rw [closing.of_literal, letters] at split
    simp only [← List.append_assoc] at split
    have same := last_before_blanks split (by decide) (by decide)
      (fun character member => blanks_accepted ends character (List.mem_append_left _ member))
      remains.blank
    contradiction
  · have outside : mark ∉ value := by
      rcases which with rfl | rfl
      · exact fun member => nomatch parts.mayTake member
      · exact fun member => nomatch parts.mayTake member
    obtain ⟨blank, rfl, inBlank, rfl⟩ := append_split_of_mem behindFront.symm inMiddle outside
    have never := blanks_accepted ends mark (List.mem_append_left _ inBlank)
    rcases which with rfl | rfl
    · contradiction
    · contradiction

/-- A block needs its opening keyword. -/
theorem block_within {first last : String} (remains : Remains gap characters)
    (inLine : '\n' ∉ first.toList) (absent : ¬ first.toList <:+: characters) :
    (block first last).Within characters := by
  intro more behind writes takes
  obtain ⟨keyword, _, _, _, same, _, opening, _⟩ := takes.of_andThen
  rw [opening.of_literal] at same
  obtain ⟨middle, rfl, _, _⟩ :=
    append_split_of_mem same (List.mem_of_getLast? remains.last) inLine
  exact absent ⟨[], middle, rfl⟩

theorem ends_of_wordEdge {before : Option Char} {taken rest : List Char} {writes : Writes}
    (takes : Pattern.wordEdge.Takes before taken rest writes) (inside : before.any isWord = true) :
    taken = [] ∧ Ends isWord rest := by
  cases takes with
  | wordEdge edge =>
    refine ⟨rfl, ?_⟩
    intro first head
    rw [inside, Option.mem_def.1 head] at edge
    simpa using edge.symm

/-- Only the bracket counts, not what stands behind it. -/
theorem ends_bracket {accept : Char → Bool} {opening inner : List Char}
    (ends : Ends accept (opening ++ '[' :: inner)) (other : List Char) :
    Ends accept (opening ++ '[' :: other) := by
  cases opening with
  | nil => exact fun first head => ends first head
  | cons character opening => exact fun first head => ends first head

/-- A qualifier is found where no longer word begins. -/
theorem prefers_qualifierWord {previous : Option Char} {word rest : List Char}
    (listed : word ∈ Ansi.qualifiers.map String.toList) (ends : Ends isWord rest) :
    (oneOf (Ansi.qualifiers.map exactly)).Prefers previous word rest [] := by
  have noTime : "realtime".toList.isPrefixOf ("real".toList ++ rest) = false := by
    have split : "realtime".toList = "real".toList ++ "time".toList := rfl
    rw [Bool.eq_false_iff, ne_eq, List.isPrefixOf_iff_prefix, split, List.prefix_append_right_inj]
    rintro ⟨more, rfl⟩
    cases ends 't' rfl
  simp only [Ansi.qualifiers, List.map_cons, List.map_nil, List.mem_cons, List.not_mem_nil,
    or_false] at listed
  rcases listed with rfl | rfl | rfl | rfl | rfl
  · exact .former .literal
  · exact .latter (.literal rfl) (.former .literal)
  · exact .latter (.literal rfl) (.latter (.literal rfl) (.former .literal))
  · exact .latter (.literal rfl) (.latter (.literal rfl) (.latter (.literal noTime)
      (.former .literal)))
  · exact .latter (.literal rfl) (.latter (.literal rfl) (.latter (.literal rfl)
      (.latter (.literal rfl) .literal)))

theorem range_bars {inner : List Char} (unclosed : ']' ∉ inner) :
    (Pattern.capture 1 range).Bars ('[' :: inner) := by
  intro previous taken rest writes split takes
  obtain ⟨_, _, brackets⟩ := takes.of_capture
  obtain ⟨_, _, _, _, rfl, _, opens, content⟩ := brackets.of_andThen
  obtain ⟨_, _, _, _, rfl, _, _, closes⟩ := content.of_andThen
  rw [opens.of_literal, closes.of_literal] at split
  have behind := (List.cons.inj split).2
  rw [behind] at unclosed
  simp at unclosed

/-- A range that is taken across the end of a line is not closed before it. -/
theorem range_unclosed {previous : Option Char} {writes : Writes}
    (takes : (optional (.capture 1 range)).Takes previous (part ++ more) behind writes)
    (last : part.getLast? = some '\n') : ∃ inner, part = '[' :: inner ∧ ']' ∉ inner := by
  generalize split : part ++ more = taken at takes
  rcases takes.of_orElse with ranged | none
  · obtain ⟨_, _, brackets⟩ := ranged.of_capture
    obtain ⟨opening, _, _, _, rfl, _, opens, inside⟩ := brackets.of_andThen
    obtain ⟨content, closing, _, _, rfl, _, contains, closes⟩ := inside.of_andThen
    rw [opens.of_literal, closes.of_literal] at split
    cases part with
    | nil => contradiction
    | cons bracket inner =>
      rw [List.cons_append, List.singleton_append, List.cons.injEq] at split
      obtain ⟨rfl, split⟩ := split
      refine ⟨inner, rfl, ?_⟩
      intro closed
      have outside : ']' ∉ content := fun member => nomatch contains.mayTake member
      obtain ⟨middle, rfl, inMiddle, behind⟩ := append_split_of_mem split closed outside
      cases middle with
      | nil => contradiction
      | cons bracket middle =>
        obtain ⟨rfl, none⟩ := List.cons.inj behind
        rw [(List.append_eq_nil_iff.1 none.symm).1, ← List.cons_append, List.getLast?_concat] at last
        contradiction
  · cases none
    rw [(List.append_eq_nil_iff.1 split).1] at last
    contradiction

theorem qualifierWord_inside {previous : Option Char} {word : List Char}
    (listed : word ∈ Ansi.qualifiers.map String.toList) :
    (word.getLast?.or previous).any isWord = true := by
  simp only [Ansi.qualifiers, List.map_cons, List.map_nil, List.mem_cons, List.not_mem_nil,
    or_false] at listed
  rcases listed with rfl | rfl | rfl | rfl | rfl <;> rfl

theorem qualifierWord_ends {word : List Char} (listed : word ∈ Ansi.qualifiers.map String.toList)
    (rest : List Char) : Ends isBlank (word ++ rest) := by
  simp only [Ansi.qualifiers, List.map_cons, List.map_nil, List.mem_cons, List.not_mem_nil,
    or_false] at listed
  rcases listed with rfl | rfl | rfl | rfl | rfl <;> exact .cons (by decide) _

theorem prefers_qualifierPart {previous : Option Char} {word rest : List Char}
    (listed : word ∈ Ansi.qualifiers.map String.toList) (ends : Ends isWord rest) :
    Ansi.qualifierPart.Prefers previous word rest [(0, String.ofList word)] :=
  .cast (.chain (.capture (prefers_qualifierWord listed ends))
    (Ansi.prefers_wordEdge (qualifierWord_inside listed) ends) rfl) (List.append_nil _) rfl

def parameterType : Pattern :=
  Pattern.sequence [blanks, optional Ansi.qualifierPart, blanks, optional (.capture 1 range)]

/-- The type of a parameter list up to a bracket that is not closed. -/
theorem parameterType_prefers {previous : Option Char} {first qualifier second inner : List Char}
    (blank : ∀ character ∈ first, isBlank character = true)
    (blank' : ∀ character ∈ second, isBlank character = true) (unclosed : ']' ∉ inner)
    (qualified : qualifier = [] ∨ qualifier ∈ Ansi.qualifiers.map String.toList ∧
      Ends isWord (second ++ '[' :: inner)) :
    ∃ writes, parameterType.Prefers previous (first ++ (qualifier ++ second)) ('[' :: inner)
      writes := by
  have bracket : Ends isBlank ('[' :: inner) := .cons (by decide) inner
  have absent (previous : Option Char) :
      (optional (.capture 1 range)).Prefers previous [] ('[' :: inner) [] :=
    Ansi.prefers_absent (range_bars unclosed)
  rcases qualified with rfl | ⟨listed, ends⟩
  · have all : ∀ character ∈ first ++ second, isBlank character = true := by
      intro character member
      exact (List.mem_append.1 member).elim (blank character) (blank' character)
    have unqualified (previous : Option Char) :
        (optional Ansi.qualifierPart).Prefers previous [] ('[' :: inner) [] :=
      Ansi.prefers_absent (.of_begins rfl rfl)
    exact ⟨_, .cast (.chain (.most all bracket) (.chain (unqualified _)
      (.chain (Ansi.prefers_no_blank bracket) (absent _) rfl) rfl) rfl) (by simp) rfl⟩
  · have begins := qualifierWord_ends listed (second ++ '[' :: inner)
    exact ⟨_, .cast (.chain (.most blank begins)
      (.chain (.former (prefers_qualifierPart listed ends))
        (.chain (.most blank' bracket) (absent _) rfl) (by simp)) (by simp)) (by simp) rfl⟩

/-- Where the head of a parameter list would have to look further for the end of its range, it does
without the range. -/
theorem parameterHead_part {previous : Option Char} {writes : Writes}
    (takes : parameterHead.Takes previous (part ++ more) behind writes) (member : 'u' ∈ part)
    (last : part.getLast? = some '\n') :
    ∃ opening inner written, part = "parameter".toList ++ opening ++ '[' :: inner ∧
      parameterHead.Prefers previous ("parameter".toList ++ opening) ('[' :: inner) written := by
  obtain ⟨keyword, _, _, _, same, _, one, two⟩ := takes.of_andThen
  obtain ⟨_, _, _, _, rfl, _, edge, three⟩ := two.of_andThen
  obtain ⟨first, _, _, _, rfl, _, four, five⟩ := three.of_andThen
  obtain ⟨qualifier, _, _, _, rfl, _, six, seven⟩ := five.of_andThen
  obtain ⟨second, ranged, _, _, rfl, _, eight, nine⟩ := seven.of_andThen
  cases one.of_literal
  obtain ⟨rfl, ends⟩ := ends_of_wordEdge edge rfl
  have absent : 'u' ∉ "parameter".toList ++ (first ++ (qualifier ++ second)) := by
    simp only [List.mem_append, not_or]
    refine ⟨?_, ?_, ?_, ?_⟩
    · exact fun member => nomatch one.mayTake member
    · exact fun member => nomatch four.mayTake member
    · exact fun member => nomatch six.mayTake member
    · exact fun member => nomatch eight.mayTake member
  have whole : part ++ more =
      ("parameter".toList ++ (first ++ (qualifier ++ second))) ++ ranged := by
    simpa only [List.append_assoc, List.nil_append] using same
  obtain ⟨middle, rfl, inMiddle, rfl⟩ := append_split_of_mem whole member absent
  rw [List.getLast?_append_of_ne_nil _ (List.ne_nil_of_mem inMiddle)] at last
  obtain ⟨inner, rfl, unclosed⟩ := range_unclosed nine last
  have qualified : qualifier = [] ∨ qualifier ∈ Ansi.qualifiers.map String.toList ∧
      Ends isWord (second ++ '[' :: inner) := by
    rcases six.of_orElse with qualified | none
    · obtain ⟨word, _, _, _, rfl, _, worded, edged⟩ := qualified.of_andThen
      obtain ⟨_, _, words⟩ := worded.of_capture
      have listed := Ansi.takes_oneOf words
      obtain ⟨rfl, ends'⟩ := ends_of_wordEdge edged (qualifierWord_inside listed)
      rw [List.append_nil]
      refine .inr ⟨listed, ?_⟩
      rw [List.cons_append, List.append_assoc] at ends'
      exact ends_bracket ends' inner
    · cases none
      exact .inl rfl
  have begins : Ends isWord (first ++ (qualifier ++ second) ++ '[' :: inner) := by
    have reassociated : Ends isWord
        (first ++ (qualifier ++ second) ++ '[' :: (inner ++ more ++ behind)) := by
      simpa only [List.append_assoc, List.cons_append] using ends
    exact ends_bracket reassociated inner
  obtain ⟨written, prefers⟩ :=
    parameterType_prefers (blanks_accepted four) (blanks_accepted eight) unclosed qualified
  have later : (Pattern.andThen .wordEdge parameterType).Prefers
      ("parameter".toList.getLast?.or previous) ([] ++ (first ++ (qualifier ++ second)))
      ('[' :: inner) ([] ++ written) := .chain (Ansi.prefers_wordEdge rfl begins) prefers rfl
  exact ⟨first ++ (qualifier ++ second), inner, _, rfl, .chain .literal later rfl⟩

/-- The rule takes everything, or it opens a parameter list in front of a bracket, which cannot stand
there. Either way the module does not end any more. -/
def Strands (rule : Rule) (characters : List Char) : Prop :=
  ∃ found, rule.pattern.match? characters = some found ∧ 0 < found.taken ∧
    (found.rest = [] ∨ rule.action = some .parameterStart ∧ found.rest.head? = some '[')

def Confined (characters : List Char) (rule : Rule) : Prop :=
  rule.pattern.Within characters ∨ Strands rule characters

theorem Confined.of_letter {rule : Rule} (remains : Remains gap characters) (letter : Char)
    (listed : letter ∈ "endmodule".toList) (never : rule.pattern.beforeBreak letter = false) :
    Confined characters rule :=
  .inl (.of_beforeBreak remains.last (remains.mem listed) never)

/-- Nothing but a quoted value holds what ends a list. -/
theorem Confined.of_mark {rule : Rule} (remains : Remains gap characters)
    (listed : ')' ∈ characters ∨ ';' ∈ characters)
    (never : rule.pattern.beforeBreak ')' = false) (never' : rule.pattern.beforeBreak ';' = false) :
    Confined characters rule := by
  rcases listed with inside | inside
  · exact .inl (.of_beforeBreak remains.last inside never)
  · exact .inl (.of_beforeBreak remains.last inside never')

theorem Confined.of_consumes {rule : Rule} (remains : Remains gap characters)
    (either : rule.pattern.Within characters ∨ rule.pattern.Consumes characters) :
    Confined characters rule := by
  refine either.imp_right ?_
  rintro ⟨found, matched, ended⟩
  obtain ⟨taken, split, bytes⟩ := match?_splits matched
  rw [ended, List.append_nil] at split
  have nonempty : characters ≠ [] := List.ne_nil_of_mem (List.mem_of_getLast? remains.last)
  refine ⟨found, matched, ?_, .inl ended⟩
  rw [bytes, ← split]
  exact byteCount_pos nonempty

theorem Confined.of_line {rule : Rule} (remains : Remains gap characters)
    (line : ToLineEnd rule.pattern) : Confined characters rule :=
  .of_consumes remains (line.within_or_consumes remains.last)

/-- A parameter list that opens in front of a bracket strands. -/
theorem Confined.of_opening {rule : Rule} {opening inner : List Char} {writes : Writes}
    (prefers : rule.pattern.Prefers none opening ('[' :: inner) writes)
    (starts : rule.action = some .parameterStart) (nonempty : opening ≠ []) :
    Confined (opening ++ '[' :: inner) rule :=
  .inr ⟨_, prefers.match?_eq, byteCount_pos nonempty, .inr ⟨starts, rfl⟩⟩

theorem parameterHead_confined (remains : Remains gap characters)
    (transition : Option Transition) :
    Confined characters ⟨parameterHead, some .parameterStart, transition⟩ := by
  by_cases within : parameterHead.Within characters
  · exact .inl within
  · simp only [Within, not_forall, not_not] at within
    obtain ⟨more, behind, writes, takes⟩ := within
    obtain ⟨opening, inner, written, rfl, prefers⟩ :=
      parameterHead_part takes (remains.mem (by decide)) remains.last
    exact .of_opening prefers rfl (by simp)

theorem furtherHead_confined (remains : Remains gap characters) (transition : Option Transition) :
    Confined characters
      ⟨.andThen blanks parameterHead, some .parameterStart, transition⟩ := by
  by_cases within : (Pattern.andThen blanks parameterHead).Within characters
  · exact .inl within
  · simp only [Within, not_forall, not_not] at within
    obtain ⟨more, behind, writes, takes⟩ := within
    obtain ⟨blank, head, _, _, same, _, one, two⟩ := takes.of_andThen
    have absent : 'u' ∉ blank := by
      intro member
      cases one.mayTake member
    obtain ⟨part, rfl, member, rfl⟩ := append_split_of_mem same (remains.mem (by decide)) absent
    have last := remains.last
    rw [List.getLast?_append_of_ne_nil _ (List.ne_nil_of_mem member)] at last
    obtain ⟨opening, inner, written, rfl, prefers⟩ := parameterHead_part two member last
    have begins : Ends isBlank ("parameter".toList ++ opening ++ '[' :: inner) :=
      .cons (by decide) _
    rw [← List.append_assoc]
    exact .of_opening (.chain (.most (blanks_accepted one) begins) prefers rfl) rfl (by simp)

theorem guards_confined (remains : Remains gap characters) :
    ∀ rule ∈ guards, Confined characters rule := by
  simp only [guards, List.forall_mem_cons, List.not_mem_nil, false_implies, implies_true, and_true]
  exact ⟨.of_letter remains 'm' (by decide) (by decide),
    .of_letter remains 'm' (by decide) (by decide)⟩

theorem rootRules_confined (remains : Remains gap characters) :
    ∀ rule ∈ rootRules, Confined characters rule := by
  refine List.forall_mem_append.2 ⟨guards_confined remains, ?_⟩
  simp only [List.forall_mem_cons, List.not_mem_nil, false_implies, implies_true, and_true]
  refine ⟨?_, ?_, ?_, ?_, ?_⟩
  · exact .of_consumes remains (moduleStart_within_or_consumes remains)
  · exact .of_letter remains 'm' (by decide) (by decide)
  · exact .of_line remains documentation_toLineEnd
  · exact .of_line remains lineComment_toLineEnd
  · exact .of_letter remains 'm' (by decide) (by decide)

theorem moduleRules_confined (remains : Remains gap characters)
    (noFunction : ¬ "function".toList <:+: characters) (noTask : ¬ "task".toList <:+: characters) :
    ∀ rule ∈ moduleRules, Confined characters rule := by
  refine List.forall_mem_append.2 ⟨guards_confined remains, ?_⟩
  simp only [List.forall_mem_cons, List.not_mem_nil, false_implies, implies_true, and_true]
  refine ⟨?_, ?_, ?_, ?_, ?_, ?_, ?_, ?_, ?_, ?_, ?_⟩
  · exact .of_letter remains 'm' (by decide) (by decide)
  · exact .inl (block_within remains (by decide) noFunction)
  · exact .inl (block_within remains (by decide) noTask)
  · exact parameterHead_confined remains _
  · exact .of_letter remains 'm' (by decide) (by decide)
  · exact .of_letter remains 'm' (by decide) (by decide)
  · exact .of_letter remains 'm' (by decide) (by decide)
  · exact .of_consumes remains (sectionLabel_within_or_consumes remains)
  · exact .of_line remains documentation_toLineEnd
  · exact .of_line remains lineComment_toLineEnd
  · exact .of_letter remains 'm' (by decide) (by decide)

theorem parameterRules_confined (remains : Remains gap characters)
    (listed : ')' ∈ characters ∨ ';' ∈ characters) :
    ∀ rule ∈ parameterRules, Confined characters rule := by
  refine List.forall_mem_append.2 ⟨guards_confined remains, ?_⟩
  simp only [List.forall_mem_cons, List.not_mem_nil, false_implies, implies_true, and_true]
  refine ⟨?_, ?_, ?_, ?_, ?_, ?_, ?_, ?_⟩
  · exact furtherHead_confined remains _
  · exact .inl (parameterItem_within remains listed)
  · exact .of_letter remains 'm' (by decide) (by decide)
  · exact .of_letter remains 'm' (by decide) (by decide)
  · exact .of_letter remains 'm' (by decide) (by decide)
  · exact .of_line remains documentation_toLineEnd
  · exact .of_line remains lineComment_toLineEnd
  · exact .of_letter remains 'm' (by decide) (by decide)

theorem portRules_confined (remains : Remains gap characters)
    (listed : ')' ∈ characters ∨ ';' ∈ characters) :
    ∀ rule ∈ portRules, Confined characters rule := by
  refine List.forall_mem_append.2 ⟨guards_confined remains, ?_⟩
  simp only [List.forall_mem_cons, List.not_mem_nil, false_implies, implies_true, and_true]
  refine ⟨?_, ?_, ?_, ?_, ?_, ?_, ?_, ?_, ?_⟩
  · exact .of_mark remains listed (by decide) (by decide)
  · exact .of_mark remains listed (by decide) (by decide)
  · exact .of_letter remains 'm' (by decide) (by decide)
  · exact .of_letter remains 'm' (by decide) (by decide)
  · exact .of_letter remains 'm' (by decide) (by decide)
  · exact .of_consumes remains (sectionLabel_within_or_consumes remains)
  · exact .of_line remains documentation_toLineEnd
  · exact .of_line remains lineComment_toLineEnd
  · exact .of_letter remains 'm' (by decide) (by decide)

theorem commentRules_confined (remains : Remains gap characters) (closes : '*' ∈ characters) :
    ∀ rule ∈ commentRules, Confined characters rule := by
  simp only [commentRules, List.forall_mem_cons, List.not_mem_nil, false_implies, implies_true,
    and_true]
  refine ⟨?_, ?_⟩
  · exact .of_letter remains 'm' (by decide) (by decide)
  · exact .inl (.of_beforeBreak remains.last closes (by decide))

end VerilogInterface.Verilog
