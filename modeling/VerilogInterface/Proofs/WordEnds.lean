import VerilogInterface.Proofs.Pauses

/-! Where matches end among words. The rules of a grammar cannot look back, so that a keyword is
found as a whole word only if no match ends inside of one. Each pattern is judged by its preferred
outcome: behind a word character no word of ASCII letters goes on there. -/

namespace VerilogInterface

namespace Text

def plainWord (character : Char) : Bool := character.isAlphanum || character == '_'

theorem isWord_of_plainWord {character : Char} (plain : plainWord character = true) :
    isWord character = true :=
  Ansi.isWord_of_alphanumeric plain

/-- No word of plain characters goes on here. Other words may, for a keyword cannot begin inside of
them either. -/
def Parted (previous : Option Char) (rest : List Char) : Prop :=
  ∀ last ∈ previous, isWord last = true → Pattern.Ends plainWord rest

theorem Parted.of_ends {previous : Option Char} {rest : List Char}
    (ends : Pattern.Ends plainWord rest) : Parted previous rest := fun _ _ _ => ends

theorem Parted.of_apart {last : Char} {rest : List Char} (apart : isWord last = false) :
    Parted (some last) rest := by
  rintro _ ⟨⟩ inside
  rw [apart] at inside
  contradiction

end Text

namespace Pattern

open Text

/-- From each cursor of the kind the preferred outcome, if there is one, stands between words. -/
def Settles (start : Cursor → Prop) (pattern : Pattern) : Prop :=
  ∀ cursor, start cursor → ∀ next, (pattern.outcomes cursor).head? = some next →
    Parted next.previous next.rest

namespace Cursor

def Anywhere (_ : Cursor) : Prop := True

def BetweenWords (cursor : Cursor) : Prop := Parted cursor.previous cursor.rest

def BehindWord (cursor : Cursor) : Prop := cursor.previous.any isWord = true

end Cursor

theorem outcomes_run_eq_nil {accept : Char → Bool} {cursor : Cursor}
    (none : (run accept).outcomes cursor = []) :
    Ends accept cursor.rest := by
  intro character head
  obtain ⟨rest, source⟩ := List.head?_eq_some_iff.1 head
  by_contra accepted
  rw [Bool.not_eq_false] at accepted
  rw [run, outcomes, outcomes, source] at none
  simp only [accepted, if_true, List.flatMap_cons, List.flatMap_nil, List.append_nil] at none
  exact outcomes_ne_nil rfl _ none

namespace Settles

variable {start other middle : Cursor → Prop} {pattern first second body : Pattern}
  {accept : Char → Bool}

theorem weaken (settles : Settles start pattern) (implies : ∀ cursor, other cursor → start cursor) :
    Settles other pattern :=
  fun cursor here => settles cursor (implies cursor here)

/-- The second part decides, whatever the outcome of the first part that it goes on from. -/
theorem behind (one : ∀ cursor, start cursor → ∀ next ∈ first.outcomes cursor, middle next)
    (two : Settles middle second) : Settles start (.andThen first second) := by
  intro cursor here last reached
  rw [outcomes, List.head?_flatMap] at reached
  obtain ⟨next, inside, onward⟩ := List.exists_of_findSome?_eq_some reached
  exact two next (one cursor here next inside) last onward

theorem last (two : Settles Cursor.Anywhere second) : Settles start (.andThen first second) :=
  behind (fun _ _ _ _ => trivial) two

/-- A second part that cannot fail goes on from the preferred outcome of the first part. -/
theorem andThen (one : Settles start first) (unfailing : second.unfailing = true)
    (two : Settles Cursor.BetweenWords second) : Settles start (.andThen first second) := by
  intro cursor here last reached
  rw [head?_andThen unfailing] at reached
  obtain ⟨next, found, onward⟩ := Option.bind_eq_some_iff.1 reached
  exact two next (one cursor here next found) last onward

/-- The second way counts only where the first one has no match. -/
theorem orElse (one : Settles start first)
    (two : Settles (fun cursor => start cursor ∧ first.outcomes cursor = []) second) :
    Settles start (.orElse first second) := by
  intro cursor here last reached
  rw [outcomes, List.head?_append] at reached
  rcases Option.or_eq_some_iff.1 reached with found | ⟨none, found⟩
  · exact one cursor here last found
  · exact two cursor ⟨here, List.head?_eq_none_iff.1 none⟩ last found

theorem either (one : Settles start first) (two : Settles start second) :
    Settles start (.orElse first second) :=
  orElse one (two.weaken fun _ both => both.1)

theorem capture {index : Nat} (inner : Settles start body) :
    Settles start (.capture index body) := by
  intro cursor here last reached
  rw [outcomes, List.head?_map] at reached
  obtain ⟨next, found, rfl⟩ := Option.map_eq_some_iff.1 reached
  exact inner cursor here next found

theorem nothing : Settles Cursor.BetweenWords .nothing := by
  rintro cursor here _ ⟨⟩
  exact here

theorem optional (settles : Settles Cursor.BetweenWords body) :
    Settles Cursor.BetweenWords (Pattern.optional body) :=
  either settles nothing

/-- What takes all plain word characters leaves none behind it. -/
theorem most_of_covers
    (covers : ∀ character, plainWord character = true → accept character = true) :
    Settles start (.most accept) := by
  have ends (rest : List Char) : ∀ cursor : Cursor, cursor.rest = rest →
      ∀ next, (cursor.furthestFirst accept rest []).head? = some next → Ends accept next.rest := by
    induction rest with
    | nil =>
      rintro cursor source _ ⟨⟩
      rw [source]
      exact .nil accept
    | cons character rest ih =>
      intro cursor source next reached
      rw [Cursor.furthestFirst_cons] at reached
      split at reached
      · rw [List.head?_append_of_ne_nil _ (List.ne_nil_of_mem (mem_furthestFirst_self _ _ _))]
          at reached
        exact ih _ rfl next reached
      · next refused =>
        cases reached
        rw [source]
        exact .cons (Bool.eq_false_iff.2 refused) rest
  intro cursor _ next reached
  refine .of_ends fun character head => ?_
  by_contra plain
  have refused := ends cursor.rest cursor rfl next reached character head
  rw [covers character (Bool.not_eq_false _ ▸ plain)] at refused
  contradiction

theorem run_of_covers (covers : ∀ character, plainWord character = true → accept character = true) :
    Settles start (Pattern.run accept) :=
  last (most_of_covers covers)

/-- What takes no word characters ends behind one only where it takes nothing. -/
theorem most_of_apart (apart : ∀ character, accept character = true → isWord character = false) :
    Settles Cursor.BetweenWords (.most accept) := by
  intro cursor here next reached
  obtain ⟨taken, rest, _, takes, moves⟩ := outcome_takes (List.mem_of_head? reached)
  rw [moves.previous, moves.rest]
  cases takes with
  | most accepted =>
    cases final : taken.getLast? with
    | none =>
      have source := moves.source
      rw [List.getLast?_eq_none_iff.1 final, List.nil_append] at source
      rw [Option.none_or, ← source]
      exact here
    | some last => exact .of_apart (apart last (accepted last (List.mem_of_getLast? final)))

theorem one_of_apart (apart : ∀ character, accept character = true → isWord character = false) :
    Settles start (.one accept) := by
  intro cursor _ next reached
  obtain ⟨_, _, _, takes, moves⟩ := outcome_takes (List.mem_of_head? reached)
  rw [moves.previous]
  cases takes with
  | one accepted => exact .of_apart (apart _ accepted)

theorem run_of_apart (apart : ∀ character, accept character = true → isWord character = false) :
    Settles start (Pattern.run accept) :=
  andThen (one_of_apart apart) rfl (most_of_apart apart)

theorem literal {characters : List Char}
    (apart : characters.getLast?.any (! isWord ·) = true) :
    Settles start (.literal characters) := by
  intro cursor _ next reached
  obtain ⟨_, _, _, takes, moves⟩ := outcome_takes (List.mem_of_head? reached)
  rw [moves.previous, takes.of_literal]
  obtain ⟨last, final, other⟩ := (Option.any_eq_true _ _).1 apart
  rw [final]
  exact .of_apart (by simpa using other)

theorem textEnd : Settles start .textEnd := by
  intro cursor _ next reached
  obtain ⟨_, _, _, takes, moves⟩ := outcome_takes (List.mem_of_head? reached)
  rw [moves.rest]
  cases takes with
  | textEnd => exact .of_ends (.nil plainWord)

theorem wordEdge : Settles Cursor.BehindWord .wordEdge := by
  intro cursor inside next reached
  rw [outcomes] at reached
  split at reached
  · next edge =>
    cases reached
    refine .of_ends fun character head => ?_
    have differs := cursor.atWordEdge_iff.1 edge
    rw [inside, Option.mem_def.1 head] at differs
    by_contra plain
    simp [isWord_of_plainWord (Bool.not_eq_false _ ▸ plain)] at differs
  · contradiction

/-- Round after round the outcome stands between words, as the last one does. -/
theorem rounds (some : body.nullable = false) (settles : Settles Cursor.BetweenWords body) :
    Settles Cursor.BetweenWords (.rounds body) := by
  intro cursor
  induction length : cursor.rest.length using Nat.strongRecOn generalizing cursor with
  | ind _ ih =>
    subst length
    intro here last reached
    have onward : ∀ next ∈ body.outcomes cursor, cursor.taken < next.taken := by
      intro next inside
      obtain ⟨taken, _, _, takes, moves⟩ := outcome_takes inside
      have positive : taken ≠ [] := by
        rintro rfl
        rw [takes.nullable rfl] at some
        contradiction
      have bytes := byteCount_pos positive
      rw [moves.bytes]
      omega
    have kept : (body.outcomes cursor).filter (cursor.taken < ·.taken) = body.outcomes cursor :=
      List.filter_eq_self.2 fun next inside => decide_eq_true (onward next inside)
    rw [outcomes_rounds, kept] at reached
    cases found : body.outcomes cursor with
    | nil =>
      rw [found] at reached
      cases reached
      exact here
    | cons next others =>
      have inside : next ∈ body.outcomes cursor := by rw [found]; exact List.mem_cons_self
      have shorter := length_rest_lt_of_outcome inside (onward next inside)
      rw [found, List.flatMap_cons, List.append_assoc, List.head?_append_of_ne_nil _
        (outcomes_ne_nil rfl next)] at reached
      exact ih _ shorter next rfl (settles cursor here next (by rw [found]; rfl)) last reached

theorem behindWord_of_spells {texts : List String} (spells : Ansi.Spells first texts)
    (words : texts.all (·.toList.getLast?.any isWord) = true) :
    ∀ cursor, start cursor → ∀ next ∈ first.outcomes cursor, next.BehindWord := by
  intro cursor _ next inside
  obtain ⟨_, _, _, takes, moves⟩ := outcome_takes inside
  obtain ⟨text, listed, rfl⟩ := List.mem_map.1 (spells _ _ _ _ takes)
  have word := List.all_eq_true.1 words text listed
  obtain ⟨last, final, inside⟩ := (Option.any_eq_true _ _).1 word
  rw [Cursor.BehindWord, moves.previous, final]
  exact inside

/-- Behind a keyword no word goes on. -/
theorem keyword {texts : List String} (spells : Ansi.Spells first texts)
    (words : texts.all (·.toList.getLast?.any isWord) = true) :
    Settles start (.andThen first .wordEdge) :=
  behind (behindWord_of_spells spells words) wordEdge

theorem keyword_andThen {texts : List String} (spells : Ansi.Spells first texts)
    (words : texts.all (·.toList.getLast?.any isWord) = true) (unfailing : second.unfailing = true)
    (two : Settles Cursor.BetweenWords second) :
    Settles start (.andThen first (.andThen .wordEdge second)) :=
  behind (behindWord_of_spells spells words) (andThen wordEdge unfailing two)

theorem one_of_ends (ends : ∀ cursor, start cursor → Ends isWord cursor.rest) :
    Settles start (.one accept) := by
  intro cursor here next reached
  obtain ⟨_, _, _, takes, moves⟩ := outcome_takes (List.mem_of_head? reached)
  rw [moves.previous]
  cases takes with
  | one _ => exact .of_apart (ends cursor here _ (by rw [moves.source]; rfl))

end Settles

end Pattern

namespace Verilog

open Pattern Text

variable {start : Cursor → Prop}

theorem settles_blanks : Settles Cursor.BetweenWords blanks :=
  .most_of_apart fun _ => isWord_of_isBlank

theorem settles_word : Settles start word := .run_of_covers fun _ => isWord_of_plainWord

theorem settles_lineEnd : Settles start lineEnd := .either (.literal rfl) .textEnd

theorem settles_comma : Settles Cursor.BetweenWords (Pattern.optional (symbol ',')) :=
  .optional (.literal rfl)

theorem settles_guardEnter : Settles start guardEnter := .last (.last (.capture settles_word))

theorem settles_guardExit : Settles start guardExit :=
  .keyword (Ansi.spells_exactly _) rfl

theorem settles_sectionLabel : Settles start sectionLabel :=
  .last (.last (.last (.last (.last (.last settles_lineEnd)))))

theorem settles_documentation : Settles start documentation := .last (.last (.last settles_lineEnd))

theorem settles_lineComment : Settles start lineComment := .last (.last settles_lineEnd)

theorem settles_anything : Settles start anything :=
  .orElse settles_word (.orElse (.run_of_apart fun _ => isWord_of_isBlank)
    (.one_of_ends fun _ refused => outcomes_run_eq_nil refused.1.2))

theorem settles_moduleStart : Settles start moduleStart :=
  .last (.last (.andThen (.capture settles_word) rfl settles_blanks))

theorem settles_moduleEnd : Settles start moduleEnd :=
  .keyword (Ansi.spells_exactly _) rfl

theorem settles_stringLiteral : Settles start stringLiteral :=
  .last (.last (.literal rfl))

theorem settles_block (opening : String) {closing : String}
    (word : [closing].all (·.toList.getLast?.any isWord) = true) :
    Settles start (block opening closing) :=
  .last (.last (.last (.last (.keyword (Ansi.spells_exactly _) word))))

theorem settles_range : Settles start range := .last (.last (.literal rfl))

theorem settles_parameterHead : Settles start parameterHead :=
  .keyword_andThen (Ansi.spells_exactly _) rfl rfl
    (.andThen settles_blanks rfl
      (.andThen (.optional (.keyword (Ansi.spells_oneOf _ 0) rfl)) rfl
        (.andThen settles_blanks rfl (.optional (.capture settles_range)))))

theorem settles_valuePart : Settles start valuePart := by
  refine .run_of_covers fun character plain => ?_
  have visible : isBlank character = false := by
    by_contra blank
    have none := isWord_of_isBlank (Bool.not_eq_false _ ▸ blank)
    rw [isWord_of_plainWord plain] at none
    contradiction
  have other (mark : Char) (apart : plainWord mark = false) : (character == mark) = false := by
    rw [beq_eq_false_iff_ne]
    rintro rfl
    rw [plain] at apart
    contradiction
  simp [other, visible, plainWord]

theorem settles_parameterItem : Settles start parameterItem := by
  have string : Settles Cursor.Anywhere (Pattern.sequence [symbol '"',
      .most fun inner => inner != '"' && inner != '\n', symbol '"']) :=
    .last (.last (.literal rfl))
  have parts : Settles Cursor.Anywhere (.andThen valuePart
      (.rounds (.andThen (run spaceOrTab) valuePart))) :=
    .andThen settles_valuePart rfl (.rounds rfl (.last settles_valuePart))
  exact .last (.last (.last (.last (.last
    (.andThen (.capture (.either string parts)) rfl settles_blanks)))))

theorem settles_portHead : Settles start portHead := by
  have heads : Settles Cursor.Anywhere (.most continuesHead) := by
    refine .most_of_covers fun character plain => ?_
    rw [plainWord, Bool.or_eq_true] at plain
    rcases plain with letter | rest <;> simp [continuesHead, startsHead, *]
  have spaces : Settles Cursor.BetweenWords (.most spaceOrTab) := by
    refine .most_of_apart fun character space => ?_
    rw [spaceOrTab, Bool.or_eq_true, beq_iff_eq, beq_iff_eq] at space
    rcases space with rfl | rfl <;> decide
  -- a head that does not begin on its line may follow on a later one
  have further : Settles Cursor.BetweenWords (.andThen (.most spaceOrTab)
      (Pattern.optional (Pattern.sequence
        [symbol '\n', blanks, .one startsHead, .most continuesHead]))) :=
    .andThen spaces rfl (.optional (.last (.last (.last heads))))
  exact .keyword_andThen (Ansi.spells_oneOf _ 0) rfl rfl
    (.capture (.either (.last (.last heads)) further))

theorem settles_furtherHead :
    Settles start (.sequence [blanks, portHead, blanks, .optional (symbol ',')]) :=
  .last (.andThen settles_portHead rfl (.andThen settles_blanks rfl settles_comma))

theorem settles_portName : Settles start portName :=
  .last (.andThen (.capture settles_word) rfl (.andThen settles_blanks rfl settles_comma))

theorem settles_listEnd : Settles start listEnd := by
  refine .last (.one_of_apart fun character ends => ?_)
  rw [Bool.or_eq_true, beq_iff_eq, beq_iff_eq] at ends
  rcases ends with rfl | rfl <;> decide

theorem settles_commentBody : Settles start (.orElse (run (allBut '*')) (.one fun _ => true)) := by
  refine .orElse (.run_of_covers fun character plain => ?_) (.one_of_ends ?_)
  · rw [allBut, bne_iff_ne]
    rintro rfl
    exact absurd plain (by decide)
  · intro cursor refused character head
    have star := outcomes_run_eq_nil refused.2 character head
    rw [allBut, bne_eq_false_iff_eq] at star
    rw [star]
    decide

/-- No rule of the grammar leaves off inside of a word that could be a keyword. -/
theorem settles_of_mem {state : State} {rule : Rule} (listed : rule ∈ table state) :
    Settles start rule.pattern := by
  have guarded : ∀ rule ∈ guards, Settles start rule.pattern :=
    List.forall_mem_cons.2 ⟨settles_guardEnter, List.forall_mem_singleton.2 settles_guardExit⟩
  have opening : Settles start openComment.pattern := .literal rfl
  have blank : Settles start (run isBlank) := .run_of_apart fun _ => isWord_of_isBlank
  have comma : Settles start separator := .last (.literal rfl)
  suffices all : ∀ rule ∈ table state, Settles start rule.pattern from all rule listed
  cases state with
  | root =>
    refine List.forall_mem_append.2 ⟨guarded, ?_⟩
    simp only [List.forall_mem_cons]
    exact ⟨settles_moduleStart, opening, settles_documentation, settles_lineComment,
      settles_anything, nofun⟩
  | module =>
    refine List.forall_mem_append.2 ⟨guarded, ?_⟩
    simp only [List.forall_mem_cons]
    exact ⟨settles_stringLiteral, settles_block _ rfl,
      settles_block _ rfl, settles_parameterHead, settles_portHead,
      settles_moduleEnd, opening, settles_sectionLabel, settles_documentation, settles_lineComment,
      settles_anything, nofun⟩
  | parameters =>
    refine List.forall_mem_append.2 ⟨guarded, ?_⟩
    simp only [List.forall_mem_cons]
    exact ⟨.last settles_parameterHead, settles_parameterItem, comma, settles_listEnd, opening,
      settles_documentation, settles_lineComment, blank, nofun⟩
  | modulePort =>
    refine List.forall_mem_append.2 ⟨guarded, ?_⟩
    simp only [List.forall_mem_cons]
    exact ⟨settles_furtherHead, settles_portName, comma, settles_listEnd, opening,
      settles_sectionLabel, settles_documentation, settles_lineComment, blank, nofun⟩
  | blockComment =>
    exact List.forall_mem_cons.2
      ⟨.literal rfl, List.forall_mem_singleton.2 settles_commentBody⟩

end Verilog

end VerilogInterface
