import VerilogInterface.Proofs.TokenTexts

/-! Which match a search finds. A pattern prefers a way of matching if it is the outcome whenever
the rest goes well behind it, and bars a text if it has no way of matching there at all. -/

namespace VerilogInterface.Pattern

open Text

/-- Whenever what follows succeeds behind these characters, the search takes exactly them. -/
def Prefers (pattern : Pattern) (previous : Option Char) (taken rest : List Char)
    (writes : Writes) : Prop :=
  ∀ cursor : Cursor, cursor.previous = previous → cursor.rest = taken ++ rest →
    ∃ next, cursor.Moves taken rest writes next ∧
      ∀ continuation last, continuation next = some last →
        pattern.search cursor continuation = some last

/-- The pattern cannot match at the beginning of these characters. -/
def Bars (pattern : Pattern) (characters : List Char) : Prop :=
  ∀ previous taken rest writes, characters = taken ++ rest →
    ¬ pattern.Takes previous taken rest writes

def Ends (accept : Char → Bool) (rest : List Char) : Prop :=
  ∀ character ∈ rest.head?, accept character = false

theorem Ends.nil (accept : Char → Bool) : Ends accept [] := by
  intro first found
  cases found

theorem Ends.cons {accept : Char → Bool} {character : Char} (other : accept character = false)
    (rest : List Char) : Ends accept (character :: rest) := by
  intro first found
  cases found
  exact other

variable {pattern first second body : Pattern} {previous : Option Char}
  {taken more rest characters : List Char} {writes others : Writes}

theorem Bars.search_eq_none (bars : pattern.Bars characters) {cursor : Cursor}
    (source : cursor.rest = characters) (continuation : Cursor → Option Cursor) :
    pattern.search cursor continuation = none := by
  cases found : pattern.search cursor continuation with
  | none => rfl
  | some last =>
    obtain ⟨taken, rest, writes, next, takes, moves, _⟩ := search_takes found
    exact (bars _ taken rest writes (source.symm.trans moves.source) takes).elim

namespace Prefers

theorem nothing : Prefers .nothing previous [] rest [] := by
  rintro cursor - rfl
  exact ⟨cursor, .refl cursor, fun _ _ succeeds => succeeds⟩

theorem one {accept : Char → Bool} {character : Char} (accepted : accept character = true) :
    (Pattern.one accept).Prefers previous [character] rest [] := by
  intro cursor _ source
  refine ⟨_, .advance source, fun continuation last succeeds => ?_⟩
  have source : cursor.rest = character :: rest := source
  simp only [search, source, accepted, if_true]
  exact succeeds

theorem literal : (Pattern.literal taken).Prefers previous taken rest [] := by
  rintro cursor rfl source
  have reached : ∃ next, cursor.literal? taken = some next := by
    induction taken generalizing cursor with
    | nil => exact ⟨cursor, rfl⟩
    | cons character taken ih =>
      have source : cursor.rest = character :: (taken ++ rest) := source
      obtain ⟨next, found⟩ := ih (cursor.advance character (taken ++ rest)) rfl
      refine ⟨next, ?_⟩
      simp only [Cursor.literal?, source, if_true]
      exact found
  obtain ⟨next, found⟩ := reached
  obtain ⟨behind, moves⟩ := Cursor.Moves.literal found
  have same : behind = rest := List.append_cancel_left (moves.source.symm.trans source)
  cases same
  refine ⟨next, moves, fun continuation last succeeds => ?_⟩
  rw [search, found]
  exact succeeds

theorem most {accept : Char → Bool} (accepted : ∀ character ∈ taken, accept character = true)
    (ends : Ends accept rest) :
    (Pattern.most accept).Prefers previous taken rest [] := by
  rintro cursor - source
  have furthest : ∀ passed, ∃ next others, cursor.Moves taken rest [] next ∧
      cursor.furthestFirst accept (taken ++ rest) passed = next :: others := by
    induction taken generalizing cursor with
    | nil =>
      intro passed
      rw [List.nil_append] at source ⊢
      have moves := Cursor.Moves.refl cursor
      rw [source] at moves
      refine ⟨cursor, passed, moves, ?_⟩
      cases rest with
      | nil => rfl
      | cons character rest =>
        rw [Cursor.furthestFirst, ends character rfl]
        rfl
    | cons character taken ih =>
      intro passed
      obtain ⟨here, later⟩ := List.forall_mem_cons.1 accepted
      obtain ⟨next, others, moves, found⟩ :=
        ih later (cursor.advance character (taken ++ rest)) rfl (cursor :: passed)
      refine ⟨next, others, (Cursor.Moves.advance source).trans moves, ?_⟩
      rw [List.cons_append, Cursor.furthestFirst, if_pos here]
      exact found
  obtain ⟨next, others, moves, found⟩ := furthest []
  refine ⟨next, moves, fun continuation last succeeds => ?_⟩
  rw [search, source, found, List.findSome?_cons, succeeds]

theorem andThen (one : first.Prefers previous taken (more ++ rest) writes)
    (two : second.Prefers (taken.getLast?.or previous) more rest others) :
    (Pattern.andThen first second).Prefers previous (taken ++ more) rest (writes ++ others) := by
  intro cursor behind source
  rw [List.append_assoc] at source
  obtain ⟨middle, moves, prefers⟩ := one cursor behind source
  obtain ⟨next, moves', prefers'⟩ := two middle (by rw [moves.previous, behind]) moves.rest
  exact ⟨next, moves.trans moves', fun continuation last succeeds =>
    prefers _ _ (prefers' continuation last succeeds)⟩

theorem chain {behind : List Char} (one : first.Prefers previous taken behind writes)
    (two : second.Prefers (taken.getLast?.or previous) more rest others)
    (split : behind = more ++ rest) :
    (Pattern.andThen first second).Prefers previous (taken ++ more) rest (writes ++ others) := by
  rw [split] at one
  exact andThen one two

theorem run {accept : Char → Bool} (some : taken ≠ [])
    (accepted : ∀ character ∈ taken, accept character = true)
    (ends : Ends accept rest) :
    (Pattern.run accept).Prefers previous taken rest [] := by
  cases taken with
  | nil => exact (some rfl).elim
  | cons character taken =>
    obtain ⟨here, later⟩ := List.forall_mem_cons.1 accepted
    exact andThen (one here) (most later ends)

theorem cast (prefers : pattern.Prefers previous taken rest writes) {taken' : List Char}
    {writes' : Writes} (same : taken = taken') (written : writes = writes') :
    pattern.Prefers previous taken' rest writes' := by
  rwa [← same, ← written]

theorem former (one : first.Prefers previous taken rest writes) :
    (Pattern.orElse first second).Prefers previous taken rest writes := by
  intro cursor behind source
  obtain ⟨next, moves, prefers⟩ := one cursor behind source
  refine ⟨next, moves, fun continuation last succeeds => ?_⟩
  rw [search, prefers continuation last succeeds]

theorem latter (none : first.Bars (taken ++ rest))
    (two : second.Prefers previous taken rest writes) :
    (Pattern.orElse first second).Prefers previous taken rest writes := by
  intro cursor behind source
  obtain ⟨next, moves, prefers⟩ := two cursor behind source
  refine ⟨next, moves, fun continuation last succeeds => ?_⟩
  rw [search, none.search_eq_none source]
  exact prefers continuation last succeeds

theorem capture {index : Nat} (inner : body.Prefers previous taken rest writes) :
    (Pattern.capture index body).Prefers previous taken rest
      (writes ++ [(index, String.ofList taken)]) := by
  intro cursor behind source
  obtain ⟨next, moves, prefers⟩ := inner cursor behind source
  exact ⟨_, moves.remember index, fun continuation last succeeds => prefers _ _ succeeds⟩

theorem wordEdge (edge : previous.any isWord ≠ rest.head?.any isWord) :
    Prefers .wordEdge previous [] rest [] := by
  rintro cursor rfl rfl
  refine ⟨cursor, .refl cursor, fun continuation last succeeds => ?_⟩
  rw [search, if_pos (cursor.atWordEdge_iff.2 edge)]
  exact succeeds

end Prefers

inductive Exhausts (body : Pattern) : Option Char → List Char → List Char → Writes → Prop where
  | stop {previous : Option Char} {rest : List Char} (none : body.Bars rest) :
      Exhausts body previous [] rest []
  | round {previous : Option Char} {taken more rest : List Char} {writes others : Writes}
      (one : body.Prefers previous taken (more ++ rest) writes) (some : taken ≠ [])
      (again : Exhausts body (taken.getLast?.or previous) more rest others) :
      Exhausts body previous (taken ++ more) rest (writes ++ others)

theorem Exhausts.prefers (exhausts : Exhausts body previous taken rest writes) :
    (Pattern.rounds body).Prefers previous taken rest writes := by
  have bounded : ∀ bound, (taken ++ rest).length ≤ bound → ∀ cursor : Cursor,
      cursor.previous = previous → cursor.rest = taken ++ rest →
      ∃ next, cursor.Moves taken rest writes next ∧
        ∀ continuation last, continuation next = some last →
          searchRounds body.search bound cursor continuation = some last := by
    induction exhausts with
    | stop none =>
      rintro bound - cursor - rfl
      refine ⟨cursor, .refl cursor, fun continuation last succeeds => ?_⟩
      cases bound with
      | zero => exact succeeds
      | succ bound =>
        rw [searchRounds, none.search_eq_none rfl]
        exact succeeds
    | @round previous taken more rest writes others one some _ ih =>
      intro bound enough cursor behind source
      rw [List.append_assoc] at source
      obtain ⟨middle, moves, prefers⟩ := one cursor behind source
      have longer := byteCount_pos some
      have fewer : 0 < taken.length := List.length_pos_iff.2 some
      cases bound with
      | zero =>
        simp only [List.length_append] at enough
        omega
      | succ bound =>
        obtain ⟨next, moves', prefers'⟩ := ih bound
          (by simp only [List.length_append] at enough ⊢; omega) middle
          (by rw [moves.previous, behind]) moves.rest
        refine ⟨next, moves.trans moves', fun continuation last succeeds => ?_⟩
        have onward : cursor.taken < middle.taken := by
          rw [moves.bytes]
          omega
        rw [searchRounds, prefers _ last]
        rw [if_pos onward]
        exact prefers' continuation last succeeds
  intro cursor behind source
  exact bounded cursor.rest.length (Nat.le_of_eq (by rw [source])) cursor behind source

theorem Prefers.match?_eq (prefers : pattern.Prefers none taken rest writes) :
    pattern.match? (taken ++ rest) = some
      { taken := byteCount taken, rest,
        groups := writes.apply (List.replicate pattern.captureCount none) } := by
  obtain ⟨next, moves, reached⟩ := prefers (pattern.start (taken ++ rest)) rfl rfl
  have groups := moves.groups
  rw [start, List.map_replicate] at groups
  have bytes : next.taken = byteCount taken := moves.bytes.trans (Nat.zero_add _)
  rw [match?, reached some next rfl, Option.map_some, bytes, moves.rest]
  exact congrArg (fun groups => some (Match.mk (byteCount taken) rest groups)) groups

def nullable : Pattern → Bool
  | .one _ => false
  | .literal characters => characters.isEmpty
  | .andThen first second => first.nullable && second.nullable
  | .orElse first second => first.nullable || second.nullable
  | .capture _ body => body.nullable
  | _ => true

def begins : Pattern → Char → Bool
  | .one accept, character | .most accept, character | .fewest accept, character =>
    accept character
  | .literal characters, character => characters.head? == some character
  | .andThen first second, character =>
    first.begins character || (first.nullable && second.begins character)
  | .orElse first second, character => first.begins character || second.begins character
  | .rounds body, character | .capture _ body, character => body.begins character
  | _, _ => false

namespace Takes

theorem nullable (takes : pattern.Takes previous taken rest writes) (empty : taken = []) :
    pattern.nullable = true := by
  induction takes with
  | nothing | most | fewest | noRound | round | wordEdge | textEnd => rfl
  | one => cases empty
  | literal => simp [Pattern.nullable, empty]
  | andThen _ _ one two =>
    obtain ⟨left, right⟩ := List.append_eq_nil_iff.1 empty
    simp [Pattern.nullable, one left, two right]
  | former _ one => simp [Pattern.nullable, one empty]
  | latter _ two => simp [Pattern.nullable, two empty]
  | capture _ inner => exact inner empty

theorem begins {character : Char} (takes : pattern.Takes previous taken rest writes)
    (first : taken.head? = some character) : pattern.begins character = true := by
  induction takes with
  | nothing | noRound | wordEdge | textEnd => cases first
  | one accepted =>
    cases first
    exact accepted
  | literal => simpa [Pattern.begins] using first
  | most accepted | fewest accepted => exact accepted _ (List.mem_of_head? first)
  | @andThen _ _ _ taken _ _ _ _ left _ one two =>
    cases taken with
    | nil => simp [Pattern.begins, left.nullable rfl, two first]
    | cons other taken => simp [Pattern.begins, one first]
  | former _ one => simp [Pattern.begins, one first]
  | latter _ two => simp [Pattern.begins, two first]
  | @round _ _ taken _ _ _ _ _ _ one again =>
    cases taken with
    | nil => exact again first
    | cons other taken => exact one first
  | capture _ inner => exact inner first

end Takes

/-- A text has only one longest beginning of a kind. -/
theorem run_unique {accept : Char → Bool} {run other rest behind : List Char}
    (same : run ++ rest = other ++ behind) (one : ∀ character ∈ run, accept character = true)
    (two : ∀ character ∈ other, accept character = true)
    (ends : Ends accept rest)
    (ends' : Ends accept behind) : run = other := by
  induction run generalizing other with
  | nil =>
    cases other with
    | nil => rfl
    | cons character other =>
      rw [List.nil_append] at same
      have accepted := two character List.mem_cons_self
      rw [ends character (by rw [same]; rfl)] at accepted
      contradiction
  | cons character run ih =>
    cases other with
    | nil =>
      rw [List.nil_append] at same
      have accepted := one character List.mem_cons_self
      rw [ends' character (by rw [← same]; rfl)] at accepted
      contradiction
    | cons first other =>
      obtain ⟨rfl, remaining⟩ := List.cons.inj same
      rw [ih remaining (List.forall_mem_cons.1 one).2 (List.forall_mem_cons.1 two).2]

namespace Bars

theorem of_begins {character : Char} (some : pattern.nullable = false)
    (other : pattern.begins character = false) : pattern.Bars (character :: rest) := by
  intro previous taken behind writes split takes
  cases taken with
  | nil => simp [takes.nullable rfl] at some
  | cons first taken =>
    cases split
    simp [takes.begins rfl] at other

theorem of_first (none : first.Bars characters) : (Pattern.andThen first second).Bars characters := by
  intro previous taken rest writes split takes
  obtain ⟨some, more, written, others, rfl, rfl, one, two⟩ := takes.of_andThen
  exact none previous some (more ++ rest) written (by rw [split, List.append_assoc]) one

theorem literal {expected : List Char} (other : expected.isPrefixOf characters = false) :
    (Pattern.literal expected).Bars characters := by
  rintro previous taken rest writes rfl takes
  rw [takes.of_literal] at other
  have begins : expected.isPrefixOf (expected ++ rest) = true :=
    List.isPrefixOf_iff_prefix.2 (List.prefix_append _ _)
  rw [begins] at other
  contradiction

/-- Leading blanks do not help a pattern that begins with something else. -/
theorem blanks {accept : Char → Bool} (all : ∀ character ∈ taken, accept character = true)
    (ends : Ends accept rest) (some : second.nullable = false)
    (other : ∀ character, accept character = true → second.begins character = false)
    (none : second.Bars rest) :
    (Pattern.andThen (.most accept) second).Bars (taken ++ rest) := by
  intro previous _ behind writes split takes
  obtain ⟨blank, more, _, others, rfl, rfl, one, two⟩ := takes.of_andThen
  rw [List.append_assoc] at split
  have blanks : ∀ character ∈ blank, accept character = true := by
    cases one with
    | most accepted => exact accepted
  have begins : Ends accept (more ++ behind) := by
    intro character first
    cases more with
    | nil => simp [two.nullable rfl] at some
    | cons head more =>
      cases first
      by_contra accepted
      have never := other character (by simpa using accepted)
      simp [two.begins rfl] at never
  cases run_unique split all blanks ends begins
  exact none _ more behind others (List.append_cancel_left split) two

/-- A longer or shorter word is not one of the words that end at a word edge. -/
theorem words {word : List Char} {listed : List (List Char)}
    (only : ∀ previous taken rest writes, first.Takes previous taken rest writes → taken ∈ listed)
    (spelled : ∀ keyword ∈ listed, keyword ≠ [] ∧ ∀ character ∈ keyword, isWord character = true)
    (edge : ∀ previous taken rest writes, second.Takes previous taken rest writes →
      previous.any isWord ≠ (taken ++ rest).head?.any isWord)
    (all : ∀ character ∈ word, isWord character = true)
    (ends : Ends isWord rest) (other : word ∉ listed) :
    (Pattern.andThen first second).Bars (word ++ rest) := by
  intro previous _ behind writes split takes
  obtain ⟨keyword, more, written, others, rfl, rfl, one, two⟩ := takes.of_andThen
  rw [List.append_assoc] at split
  obtain ⟨some, spelling⟩ := spelled keyword (only _ _ _ _ one)
  have begins : Ends isWord (more ++ behind) := by
    intro character first
    have differs := edge _ _ _ _ two
    obtain ⟨init, last, rfl⟩ := (List.eq_nil_or_concat keyword).resolve_left some
    have inside := spelling last (by simp)
    rw [Option.mem_def.1 first] at differs
    simpa [inside] using differs
  cases run_unique split all spelling ends begins
  exact other (only _ _ _ _ one)

end Bars

end VerilogInterface.Pattern
