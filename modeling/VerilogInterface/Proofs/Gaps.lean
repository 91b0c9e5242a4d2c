import VerilogInterface.Proofs.Resumption
import VerilogInterface.Proofs.Words

/-! Blanks in front of a match. Outside of comments over lines they are either part of the next
match, which they leave as it is otherwise, or passed over by themselves; so how many there are
makes no difference to what comes of going on behind them. -/

namespace VerilogInterface

open Text Verilog

/-- Every text is blanks in front of something else. -/
theorem Text.exists_gap (characters : List Char) :
    ∃ gap core, characters = gap ++ core ∧ Gap gap ∧ Pattern.Ends isBlank core := by
  refine ⟨characters.takeWhile isBlank, characters.dropWhile isBlank,
    List.takeWhile_append_dropWhile.symm, List.all_eq_true.1 List.all_takeWhile, ?_⟩
  intro first head
  have stops := List.head?_dropWhile_not isBlank characters
  rw [Option.mem_def.1 head] at stops
  simpa using stops

def Parting.never : Parting := ⟨[], [], Iff.rfl, rfl⟩

namespace Pattern

variable {pattern second : Pattern} {accept : Char → Bool} {gap core rest : List Char}
  {character : Char} {cursor : Cursor}

/-- Whether a match takes something and begins with no blank. -/
def solid (pattern : Pattern) : Bool :=
  !pattern.nullable && blankCodes.all fun code => !pattern.begins (Char.ofNat code)

theorem nullable_of_solid (solid : pattern.solid = true) : pattern.nullable = false := by
  simpa using ((Bool.and_eq_true _ _).mp solid).1

theorem begins_of_solid (solid : pattern.solid = true) (blank : isBlank character = true) :
    pattern.begins character = false := by
  have none := List.all_eq_true.1 ((Bool.and_eq_true _ _).mp solid).2 _ (toNat_of_isBlank blank)
  rw [Char.ofNat_toNat] at none
  simpa using none

theorem Bars.of_solid (solid : pattern.solid = true) (blank : isBlank character = true) :
    pattern.Bars (character :: rest) :=
  .of_begins (nullable_of_solid solid) (begins_of_solid solid blank)

theorem Bars.outcomes_eq_nil (bars : pattern.Bars cursor.rest) : pattern.outcomes cursor = [] := by
  rw [List.eq_nil_iff_forall_not_mem]
  intro next reached
  obtain ⟨taken, rest, writes, takes, moves⟩ := outcome_takes reached
  exact bars _ taken rest writes moves.source takes

/-- A pattern that begins with nothing of the kind waits for the end of the leading run. -/
theorem outcomes_past_gap (all : Gap gap) (ends : Ends isBlank core) (solid : second.solid = true)
    (cursor : Cursor) (source : cursor.rest = gap ++ core) :
    ∃ next, cursor.Moves gap core [] next ∧
      (Pattern.andThen blanks second).outcomes cursor = second.outcomes next := by
  show ∃ next, cursor.Moves gap core [] next ∧
    (cursor.furthestFirst isBlank cursor.rest []).flatMap second.outcomes = second.outcomes next
  rw [source]
  induction gap generalizing cursor with
  | nil =>
    rw [List.nil_append] at source ⊢
    have moves := Cursor.Moves.refl cursor
    rw [source] at moves
    refine ⟨cursor, moves, ?_⟩
    have only : cursor.furthestFirst isBlank core [] = [cursor] := by
      cases core with
      | nil => rfl
      | cons character rest =>
        rw [Cursor.furthestFirst_cons, ends character rfl]
        rfl
    rw [only, List.flatMap_singleton]
  | cons character gap ih =>
    obtain ⟨here, later⟩ := List.forall_mem_cons.1 all
    obtain ⟨next, moves, same⟩ := ih later (cursor.advance character (gap ++ core)) rfl
    refine ⟨next, (Cursor.Moves.advance source).trans moves, ?_⟩
    have none : second.outcomes cursor = [] :=
      Bars.outcomes_eq_nil (source ▸ .of_solid solid here)
    rw [List.cons_append, Cursor.furthestFirst_cons, if_pos here, List.flatMap_append, same,
      List.flatMap_singleton, none, List.append_nil]

def Match.behind (gap : List Char) (found : Match) : Match :=
  { found with taken := byteCount gap + found.taken }

/-- Leading blanks are part of the match and change nothing else about it. -/
theorem match?_past_gap (all : Gap gap) (ends : Ends isBlank core) (solid : second.solid = true) :
    (Pattern.andThen blanks second).match? (gap ++ core) =
      ((Pattern.andThen blanks second).match? core).map (·.behind gap) := by
  have none : Gap [] := nofun
  obtain ⟨here, moves, same⟩ := outcomes_past_gap none ends solid
    ((Pattern.andThen blanks second).start core) rfl
  obtain ⟨there, moves', same'⟩ := outcomes_past_gap all ends solid
    ((Pattern.andThen blanks second).start (gap ++ core)) rfl
  have plain : (gap.getLast?.or .none).any isWord = false := by
    rw [Option.or_none]
    cases last : gap.getLast? with
    | none => rfl
    | some character => exact isWord_of_isBlank (all _ (List.mem_of_getLast? last))
  have beside : here.Beside .never (byteCount gap) there := by
    refine ⟨⟨core, ?_, ?_⟩, ?_, ?_, ?_⟩
    · rw [moves.rest]
      exact (List.append_nil core).symm
    · rw [moves'.rest]
      exact (List.append_nil core).symm
    · rw [moves'.bytes, moves.bytes]
      exact congrArg (· + byteCount gap) (Nat.zero_add 0).symm
    · rw [moves'.previous, moves.previous]
      exact plain
    · rw [moves'.groups, moves.groups]
      rfl
  have alike := alike_outcomes second beside
  have every (cursors : List Cursor) : earlier 0 cursors = cursors :=
    List.filter_eq_self.2 fun cursor _ => decide_eq_true (Nat.zero_le _)
  unfold Alike at alike
  rw [show Parting.never.one.length = 0 from rfl, show Parting.never.two.length = 0 from rfl,
    every, every] at alike
  rw [match?_eq_head?, match?_eq_head?, same, same']
  generalize second.outcomes here = reached at alike
  generalize second.outcomes there = others at alike
  cases alike with
  | nil => rfl
  | cons both _ =>
    obtain ⟨_, both⟩ := both
    obtain ⟨front, rest, rest'⟩ := both.rest
    simp only [List.head?_cons, Option.map_some, Match.behind, both.taken, both.groups, rest, rest',
      Nat.add_comm (byteCount gap)]
    rfl

def marks : List Char := ['/', '`']

def marked : Pattern → Bool
  | .literal characters => characters.head?.any (· ∈ marks)
  | .andThen first _ => first.marked
  | .orElse first second => first.marked && second.marked
  | .capture _ body => body.marked
  | _ => false

theorem Takes.head_of_marked {previous : Option Char} {taken : List Char} {writes : Writes}
    (takes : pattern.Takes previous taken rest writes) (marked : pattern.marked = true) :
    ∃ mark ∈ marks, taken.head? = some mark := by
  induction takes with
  | literal =>
    obtain ⟨mark, first, listed⟩ := (Option.any_eq_true _ _).mp marked
    exact ⟨mark, of_decide_eq_true listed, first⟩
  | andThen _ _ one =>
    obtain ⟨mark, listed, first⟩ := one marked
    exact ⟨mark, listed, by rw [List.head?_append, first, Option.some_or]⟩
  | former _ one => exact one ((Bool.and_eq_true _ _).mp marked).1
  | latter _ two => exact two ((Bool.and_eq_true _ _).mp marked).2
  | capture _ inner => exact inner marked
  | _ => contradiction

theorem Bars.of_marked (marked : pattern.marked = true) (other : ∀ mark ∈ core.head?, mark ∉ marks) :
    pattern.Bars core := by
  rintro previous taken rest writes rfl takes
  obtain ⟨mark, listed, first⟩ := takes.head_of_marked marked
  exact other mark (by rw [List.head?_append, first]; rfl) listed

/-- Blanks and then something else, which begins with no mark. -/
def Padded (pattern : Pattern) : Prop :=
  ∃ second : Pattern, pattern = .andThen blanks second ∧ second.solid = true ∧
    ∀ mark ∈ marks, second.begins mark = false

theorem Padded.bars (padded : pattern.Padded) (all : Gap gap) (ends : Ends isBlank core)
    (marked : ∃ mark ∈ marks, core.head? = some mark) : pattern.Bars (gap ++ core) := by
  obtain ⟨second, rfl, solid, other⟩ := padded
  obtain ⟨mark, listed, first⟩ := marked
  obtain ⟨rest, rfl⟩ := List.head?_eq_some_iff.1 first
  exact .blanks all ends (nullable_of_solid solid) (fun _ blank => begins_of_solid solid blank)
    (.of_begins (nullable_of_solid solid) (other mark listed))

end Pattern

open Pattern

variable {gap core rest : List Char} {rules others : List Rule}

/-- Rules for what can stand in a list. -/
def Listed (rules : List Rule) : Prop :=
  ∀ rule ∈ rules, rule.pattern.marked = true ∨ rule.pattern.Padded

theorem firstMatch_append_eq (characters : List Char) (rules others : List Rule) :
    firstMatch characters (rules ++ others) =
      (firstMatch characters rules).or (firstMatch characters others) := by
  induction rules with
  | nil => rfl
  | cons rule rules ih =>
    rw [List.cons_append, firstMatch_cons, firstMatch_cons, ih]
    cases rule.pattern.match? characters with
    | none => rfl
    | some found =>
      simp only
      split <;> rfl

theorem firstMatch_of_bars (bars : ∀ rule ∈ rules, rule.pattern.Bars core) :
    firstMatch core rules = none := by
  have same := firstMatch_append bars []
  rwa [List.append_nil] at same

/-- No blank is a mark. -/
theorem Text.Gap.unmarked (all : Gap gap) (unmarked : gap = [] → ∀ mark ∈ core.head?, mark ∉ marks) :
    ∀ mark ∈ (gap ++ core).head?, mark ∉ marks := by
  have plain : ∀ mark ∈ marks, isBlank mark = false :=
    List.forall_mem_cons.2 ⟨rfl, List.forall_mem_singleton.2 rfl⟩
  intro mark first inside
  cases gap with
  | nil => exact unmarked rfl mark first inside
  | cons blank gap =>
    cases first
    have blank := all _ List.mem_cons_self
    rw [plain _ inside] at blank
    cases blank

/-- In front of a mark nothing is taken along with the gap. -/
theorem Listed.firstMatch_eq_none (listed : Listed rules) (all : Gap gap) (some : gap ≠ [])
    (ends : Ends isBlank core) (marked : ∃ mark ∈ marks, core.head? = .some mark) :
    firstMatch (gap ++ core) rules = none := by
  apply firstMatch_of_bars
  intro rule member
  rcases listed rule member with opening | padded
  · exact .of_marked opening (all.unmarked fun empty => (some empty).elim)
  · exact padded.bars all ends marked

/-- In front of anything else the gap is part of the match. -/
theorem Listed.firstMatch_behind (listed : Listed rules) (all : Gap gap)
    (ends : Ends isBlank core) (unmarked : ∀ mark ∈ core.head?, mark ∉ marks) :
    firstMatch (gap ++ core) rules =
      (firstMatch core rules).map fun first => (first.1, first.2.behind gap) := by
  have begins := all.unmarked fun _ => unmarked
  induction rules with
  | nil => rfl
  | cons rule rules ih =>
    obtain ⟨here, later⟩ := List.forall_mem_cons.1 listed
    have onward := ih later
    rw [firstMatch_cons, firstMatch_cons]
    rcases here with opening | ⟨second, same, solid, _⟩
    · have none {characters : List Char} (other : ∀ mark ∈ characters.head?, mark ∉ marks) :
          rule.pattern.match? characters = none := by
        rw [match?, (Bars.of_marked opening other).search_eq_none rfl]
        rfl
      rw [none begins, none unmarked]
      exact onward
    · rw [same, match?_past_gap all ends solid]
      cases matched : (Pattern.andThen blanks second).match? core with
      | none => exact onward
      | some found =>
        obtain ⟨taken, writes, split, bytes, takes, _⟩ := match?_takes matched
        have positive : 0 < found.taken := by
          rw [bytes]
          apply byteCount_pos
          rintro rfl
          have empty := takes.nullable rfl
          rw [nullable, nullable_of_solid solid, Bool.and_false] at empty
          contradiction
        have positive' : 0 < byteCount gap + found.taken := Nat.add_pos_right _ positive
        simp only [Option.map_some, Match.behind, positive, positive', if_true]

theorem listed_guards : Listed guards := by
  simp only [Listed, guards, List.forall_mem_cons, List.not_mem_nil, false_implies, implies_true,
    and_true]
  exact ⟨.inl rfl, .inl rfl⟩

theorem Pattern.Padded.intro {second : Pattern} (solid : second.solid = true)
    (other : marks.all (! second.begins ·) = true) : (Pattern.andThen blanks second).Padded :=
  ⟨second, rfl, solid, fun mark listed => by simpa using List.all_eq_true.1 other mark listed⟩

theorem listed_rules {state : State} (inside : state = .parameters ∨ state = .modulePort) :
    ∃ rules, table state = rules ++ [skip (run isBlank)] ∧ Listed rules := by
  rcases inside with rfl | rfl
  · refine ⟨parameterRules.dropLast, rfl, List.forall_mem_append.2 ⟨listed_guards, ?_⟩⟩
    simp only [List.dropLast_cons_cons, List.dropLast_singleton, List.forall_mem_cons,
      List.not_mem_nil, false_implies, implies_true, and_true]
    refine ⟨?_, ?_, ?_, ?_, .inl rfl, .inl rfl, .inl rfl⟩
    all_goals exact .inr (.intro (by decide +kernel) (by decide))
  · refine ⟨portRules.dropLast, rfl, List.forall_mem_append.2 ⟨listed_guards, ?_⟩⟩
    simp only [List.dropLast_cons_cons, List.dropLast_singleton, List.forall_mem_cons,
      List.not_mem_nil, false_implies, implies_true, and_true]
    refine ⟨?_, ?_, ?_, ?_, .inl rfl, .inl rfl, .inl rfl, .inl rfl⟩
    all_goals exact .inr (.intro (by decide +kernel) (by decide))

theorem solid_rules (state : State) (outside : state = .root ∨ state = .module) :
    ∃ rules, table state = rules ++ [skip anything] ∧ ∀ rule ∈ rules, rule.pattern.solid = true := by
  rcases outside with rfl | rfl
  · exact ⟨rootRules.dropLast, rfl, by decide +kernel⟩
  · exact ⟨moduleRules.dropLast, rfl, by decide +kernel⟩

namespace Scanner

variable {scanner : Scanner}

/-- A gap that the last rule takes means nothing. -/
theorem step_of_skip {pattern : Pattern} (working : scanner.failed = false)
    (split : scanner.rest = gap ++ core) (nonempty : gap ≠ [])
    (laid : table scanner.state = rules ++ [skip pattern])
    (barred : firstMatch (gap ++ core) rules = none)
    (prefers : pattern.Prefers none gap core []) :
    ∃ lexeme : Lexeme, lexeme.action = none ∧
      scanner.step table = .moved lexeme (scanner.past gap core) := by
  have positive := byteCount_pos nonempty
  have first := firstMatch_append_eq (gap ++ core) rules [skip pattern]
  rw [← laid, ← split, split, barred, Option.none_or, firstMatch_cons, skip, prefers.match?_eq]
    at first
  simp only [positive, if_true] at first
  rw [← split] at first
  exact ⟨_, rfl, step_of_first working first rfl⟩

theorem prefers_anything (all : Gap gap) (nonempty : gap ≠ []) (ends : Ends isBlank core) :
    anything.Prefers none gap core [] := by
  refine .latter ?_ (.former (.run nonempty all ends))
  cases gap with
  | nil => exact (nonempty rfl).elim
  | cons blank gap =>
    have solid : word.solid = true := by decide +kernel
    exact .of_solid solid (all _ List.mem_cons_self)

/-- Outside of lists a gap is passed over. -/
theorem step_gap_outside (working : scanner.failed = false)
    (outside : scanner.state = .root ∨ scanner.state = .module) (all : Gap gap) (nonempty : gap ≠ [])
    (ends : Ends isBlank core) (split : scanner.rest = gap ++ core) :
    ∃ lexeme : Lexeme, lexeme.action = none ∧
      scanner.step table = .moved lexeme (scanner.past gap core) := by
  obtain ⟨rules, laid, solid⟩ := solid_rules _ outside
  refine step_of_skip working split nonempty laid (firstMatch_of_bars ?_)
    (prefers_anything all nonempty ends)
  intro rule member
  cases gap with
  | nil => exact (nonempty rfl).elim
  | cons blank gap => exact .of_solid (solid rule member) (all _ List.mem_cons_self)

theorem outside_or_inside {state : State} (plain : state ≠ .blockComment) :
    (state = .root ∨ state = .module) ∨ (state = .parameters ∨ state = .modulePort) := by
  cases state <;> simp at plain ⊢

/-- So is a gap in front of a mark inside of lists. -/
theorem step_gap_marked (working : scanner.failed = false) (plain : scanner.state ≠ .blockComment)
    (all : Gap gap) (nonempty : gap ≠ []) (ends : Ends isBlank core)
    (marked : ∃ mark ∈ marks, core.head? = some mark) (split : scanner.rest = gap ++ core) :
    ∃ lexeme : Lexeme, lexeme.action = none ∧
      scanner.step table = .moved lexeme (scanner.past gap core) := by
  rcases outside_or_inside plain with outside | inside
  · exact step_gap_outside working outside all nonempty ends split
  · obtain ⟨rules, laid, listed⟩ := listed_rules inside
    exact step_of_skip working split nonempty laid
      (listed.firstMatch_eq_none all nonempty ends marked) (.run nonempty all ends)

/-- In front of anything else it is passed over or makes no difference to what the match says and to
where it ends. -/
theorem step_gap_inside (working : scanner.failed = false)
    (inside : scanner.state = .parameters ∨ scanner.state = .modulePort) (all : Gap gap)
    (nonempty : gap ≠ []) (ends : Ends isBlank core) (unmarked : ∀ mark ∈ core.head?, mark ∉ marks)
    (split : scanner.rest = gap ++ core) :
    (∃ lexeme : Lexeme, lexeme.action = none ∧
        scanner.step table = .moved lexeme (scanner.past gap core)) ∨
      ∃ lexeme lexeme' after, scanner.step table = .moved lexeme after ∧
        (scanner.past gap core).step table = .moved lexeme' after ∧
        lexeme.action = lexeme'.action ∧ lexeme.groups = lexeme'.groups := by
  obtain ⟨rules, laid, listed⟩ := listed_rules inside
  have behind := listed.firstMatch_behind all ends unmarked
  cases first : firstMatch core rules with
  | none =>
    rw [first] at behind
    exact .inl (step_of_skip working split nonempty laid behind (.run nonempty all ends))
  | some chosen =>
    obtain ⟨rule, found⟩ := chosen
    rw [first] at behind
    have here : firstMatch scanner.rest (table scanner.state) =
        some (rule, found.behind gap) := by
      rw [laid, firstMatch_append_eq, split, behind]
      rfl
    have there : firstMatch core (table scanner.state) = some (rule, found) := by
      rw [laid, firstMatch_append_eq, first]
      rfl
    obtain ⟨state, outer, entered⟩ : ∃ state outer, scanner.entered = state :: outer := by
      cases entered : scanner.entered with
      | nil =>
        rw [Scanner.state, entered] at inside
        simp at inside
      | cons state outer => exact ⟨state, outer, rfl⟩
    obtain ⟨stack, enters⟩ := rule.exists_enters state outer
    rw [← entered] at enters
    have working' : (scanner.past gap core).failed = false := working
    have place : scanner.position + (byteCount gap + found.taken) =
        scanner.position + byteCount gap + found.taken := (Nat.add_assoc _ _ _).symm
    have moved := step_of_first working here enters
    have moved' := step_of_first working' there enters
    rw [Match.behind, place] at moved
    exact .inr ⟨_, _, _, moved, moved', rfl, rfl⟩

/-- Going on in front of a gap comes to the same as going on behind it. -/
theorem outlook_gap_of_ends (text : String) (working : scanner.failed = false)
    (plain : scanner.state ≠ .blockComment) (all : Gap gap) (ends : Ends isBlank core)
    (split : scanner.rest = gap ++ core) :
    scanner.outlook ParseError.kind text =
      (scanner.past gap core).outlook ParseError.kind text := by
  by_cases empty : gap = []
  · subst empty
    rw [List.nil_append] at split
    subst split
    rfl
  have silently (passed : ∃ lexeme : Lexeme, lexeme.action = none ∧
      scanner.step table = .moved lexeme (scanner.past gap core)) :
      scanner.outlook ParseError.kind text =
        (scanner.past gap core).outlook ParseError.kind text := by
    obtain ⟨lexeme, silent, moved⟩ := passed
    exact outlook_of_silent moved silent
  by_cases marked : ∃ mark ∈ marks, core.head? = some mark
  · exact silently (step_gap_marked working plain all empty ends marked split)
  rcases outside_or_inside plain with outside | inside
  · exact silently (step_gap_outside working outside all empty ends split)
  · have unmarked : ∀ mark ∈ core.head?, mark ∉ marks :=
      fun mark first listed => marked ⟨mark, listed, first⟩
    rcases step_gap_inside working inside all empty ends unmarked split with
      passed | ⟨lexeme, lexeme', after, moved, moved', action, groups⟩
    · exact silently passed
    · exact outlook_congr moved' moved action (Effects.of_lexemes action groups) rfl

theorem outlook_gap (text : String) (working : scanner.failed = false)
    (plain : scanner.state ≠ .blockComment) (all : Gap gap) (split : scanner.rest = gap ++ rest) :
    scanner.outlook ParseError.kind text =
      (scanner.past gap rest).outlook ParseError.kind text := by
  obtain ⟨more, core, rfl, all', ends⟩ := exists_gap rest
  have both : Gap (gap ++ more) := all.append all'
  have whole : scanner.rest = gap ++ more ++ core := by rw [split, List.append_assoc]
  have working' : (scanner.past gap (more ++ core)).failed = false := working
  rw [outlook_gap_of_ends text working plain both ends whole,
    outlook_gap_of_ends text working' plain all' ends rfl, past_past]

end Scanner

end VerilogInterface
