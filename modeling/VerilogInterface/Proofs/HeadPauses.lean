import VerilogInterface.Proofs.ContinuedHeads
import VerilogInterface.Proofs.Pauses

/-! Heads of port lists that stop early. What a head says runs on over spaces; where there is a slash
instead it says what stands before the slash, but that a line without anything on it is left out. -/

namespace VerilogInterface

open Text Verilog

namespace Pattern

variable {parting : Parting} {previous : Option Char} {taken rest behind : List Char}
  {writes : Writes} {front far part more : List Char}

def headInLine : Pattern :=
  sequence [.most spaceOrTab, .one fun inner => startsHead inner || inner == '`',
    .most continuesHead]

def headText : Pattern :=
  .orElse headInLine (.andThen (.most spaceOrTab) (optional headBelow))

theorem isBlank_of_spaceOrTab {character : Char} (space : spaceOrTab character = true) :
    isBlank character = true := by
  rw [spaceOrTab, Bool.or_eq_true, beq_iff_eq, beq_iff_eq] at space
  rcases space with rfl | rfl <;> rfl

/-- Behind spaces only, a head that is on the line of the direction cannot begin with a slash or with
the end of the line. -/
theorem headInLine_bars (spaces : ∀ character ∈ part, spaceOrTab character = true)
    (other : rest.head? = some '/' ∨ rest.head? = some '\n') : headInLine.Bars (part ++ rest) := by
  have ends : Ends spaceOrTab rest := by
    intro first head
    rcases other with slash | lineBreak
    · cases slash.symm.trans head
      rfl
    · cases lineBreak.symm.trans head
      rfl
  refine .blanks spaces ends rfl ?_ ?_
  · intro character space
    rw [spaceOrTab, Bool.or_eq_true, beq_iff_eq, beq_iff_eq] at space
    rcases space with rfl | rfl <;> rfl
  · rcases other with slash | lineBreak
    · obtain ⟨behind, rfl⟩ := List.head?_eq_some_iff.1 slash
      exact .of_begins rfl rfl
    · obtain ⟨behind, rfl⟩ := List.head?_eq_some_iff.1 lineBreak
      exact .of_begins rfl rfl

/-- On the next lines a head cannot begin with a slash either. -/
theorem headBelow_bars (all : Gap part) (slash : rest.head? = some '/') :
    headBelow.Bars ('\n' :: (part ++ rest)) := by
  intro previous taken behind writes split takes
  obtain ⟨lineBreak, further, _, _, rfl, _, one, two⟩ := takes.of_andThen
  rw [one.of_literal] at split
  obtain ⟨_, same⟩ := List.cons.inj split
  obtain ⟨after, rfl⟩ := List.head?_eq_some_iff.1 slash
  have solid : (sequence [.one startsHead, .most continuesHead]).solid = true := by decide +kernel
  exact Bars.blanks all (.cons (by decide) after) rfl
    (fun _ blank => begins_of_solid solid blank) (.of_begins rfl rfl) _ further behind _ same two

/-- Where there is nothing but spaces, these are what the head says. -/
theorem headText_prefers_spaces (spaces : ∀ character ∈ part, spaceOrTab character = true)
    (slash : rest.head? = some '/') : headText.Prefers previous part rest [] := by
  obtain ⟨after, rfl⟩ := List.head?_eq_some_iff.1 slash
  exact .latter (headInLine_bars spaces (.inl rfl)) (.cast (.chain (.most spaces (.cons rfl after))
    (Ansi.prefers_absent (.of_begins rfl rfl)) rfl) (List.append_nil part) rfl)

/-- A head without anything on its line stops there. -/
theorem headText_prefers_line (spaces : ∀ character ∈ part, spaceOrTab character = true)
    (all : Gap more) (slash : rest.head? = some '/') :
    headText.Prefers previous part ('\n' :: (more ++ rest)) [] :=
  .latter (headInLine_bars spaces (.inr rfl)) (.cast (.chain (.most spaces (.cons rfl _))
    (Ansi.prefers_absent (headBelow_bars all slash)) rfl) (List.append_nil part) rfl)

/-- Something on the line of the direction is said up to the slash. -/
theorem headText_prefers_inLine (spaces : ∀ character ∈ part, spaceOrTab character = true)
    {first : Char} (starts : (startsHead first || first == '`') = true)
    (continues : ∀ character ∈ more, continuesHead character = true)
    (slash : rest.head? = some '/') :
    headText.Prefers previous (part ++ first :: more) rest [] := by
  have other : spaceOrTab first = false := by
    have solid : (Pattern.one fun inner => startsHead inner || inner == '`').solid = true := by
      decide +kernel
    by_contra space
    have never := begins_of_solid solid (isBlank_of_spaceOrTab (by simpa using space))
    exact absurd (starts.symm.trans never) (by decide)
  exact .former (.chain (.most spaces (.cons other _))
    (.chain (.one starts) (.most continues (ends_of_slash rfl slash)) rfl) rfl)

theorem headText_prefers_below (spaces : ∀ character ∈ part, spaceOrTab character = true)
    (all : Gap front) {first : Char} (starts : startsHead first = true)
    (continues : ∀ character ∈ more, continuesHead character = true)
    (slash : rest.head? = some '/') :
    headText.Prefers previous (part ++ '\n' :: (front ++ first :: more)) rest [] := by
  have other : isBlank first = false := by
    have solid : (Pattern.one startsHead).solid = true := by decide +kernel
    by_contra blank
    have never := begins_of_solid solid (by simpa using blank)
    exact absurd (starts.symm.trans never) (by decide)
  have bars : headInLine.Bars (part ++ '\n' :: (front ++ first :: more) ++ rest) := by
    rw [List.append_assoc]
    exact headInLine_bars spaces (.inr rfl)
  exact .latter bars (.chain (.most spaces (.cons rfl _))
    (.former (.chain .literal (.chain (.most all (.cons other _))
      (.chain (.one starts) (.most continues (ends_of_slash rfl slash)) rfl) rfl) rfl)) rfl)

/-- A head in front of the slash says this, but for blanks at the end of it. -/
def Says (said rest : List Char) : Prop :=
  ∀ previous, ∃ gone left, said = gone ++ left ∧ Gap left ∧
    headText.Prefers previous gone (left ++ rest) []

theorem Says.of_prefers {said : List Char}
    (prefers : ∀ previous, headText.Prefers previous said rest []) : Says said rest :=
  fun previous => ⟨said, [], (List.append_nil said).symm, nofun, prefers previous⟩

theorem says_spaces {said : List Char} (spaces : ∀ character ∈ said, spaceOrTab character = true)
    (slash : rest.head? = some '/') : Says said rest :=
  .of_prefers fun _ => headText_prefers_spaces spaces slash

theorem headInLine_pauses {said : List Char}
    (takes : headInLine.Takes previous (said ++ ' ' :: more) behind writes)
    (slash : rest.head? = some '/') : Says said rest := by
  obtain ⟨spaces, further, _, _, same, _, one, two⟩ := takes.of_andThen
  obtain ⟨first, others, _, _, rfl, _, three, four⟩ := two.of_andThen
  cases one with | most accepted => ?_
  cases three with | one starts => ?_
  cases four with | most continues => ?_
  rcases split_either same.symm with ⟨middle, rfl, _⟩ | ⟨middle, rfl, split⟩
  · exact says_spaces (fun character member => accepted _ (List.mem_append_left _ member)) slash
  · cases middle with
    | nil =>
      obtain ⟨rfl, _⟩ := List.cons.inj split
      contradiction
    | cons head middle =>
      obtain ⟨rfl, rfl⟩ := List.cons.inj split
      exact .of_prefers fun _ => headText_prefers_inLine accepted starts
        (fun character member => continues _ (List.mem_append_left _ member)) slash

theorem headBelow_pauses {spaces said : List Char}
    (accepted : ∀ character ∈ spaces, spaceOrTab character = true)
    (takes : headBelow.Takes previous (said ++ ' ' :: more) behind writes)
    (slash : rest.head? = some '/') : Says (spaces ++ said) rest := by
  obtain ⟨lineBreak, _, _, _, same, _, three, four⟩ := takes.of_andThen
  obtain ⟨gap, _, _, _, rfl, _, five, six⟩ := four.of_andThen
  obtain ⟨first, others, _, _, rfl, _, seven, eight⟩ := six.of_andThen
  cases three
  cases seven with | one starts => ?_
  cases eight with | most continues => ?_
  have all : Gap gap := blanks_accepted five
  cases said with
  | nil => cases (List.cons.inj same).1
  | cons head middle =>
    obtain ⟨rfl, onward⟩ := List.cons.inj same
    have onward : gap ++ _ = middle ++ ' ' :: more := onward.symm
    rcases split_either onward with ⟨middle', rfl, _⟩ | ⟨middle', rfl, split⟩
    · -- the slash stands in front of the line that the head is on
      have all' := all.of_append.1
      intro previous
      exact ⟨spaces, '\n' :: middle, rfl, List.forall_mem_cons.2 ⟨rfl, all'⟩,
        headText_prefers_line accepted all' slash⟩
    · cases middle' with
      | nil =>
        obtain ⟨rfl, _⟩ := List.cons.inj split
        contradiction
      | cons head middle' =>
        obtain ⟨rfl, rfl⟩ := List.cons.inj split
        exact .of_prefers fun _ => headText_prefers_below accepted all starts
          (fun character member => continues _ (List.mem_append_left _ member)) slash

/-- Where the text of a head goes on over a space, another one stops at the slash, or at the end of a
line on which there was nothing. -/
theorem headText_pauses {said : List Char}
    (takes : headText.Takes previous (said ++ ' ' :: more) behind writes)
    (slash : rest.head? = some '/') : Says said rest := by
  rcases takes.of_orElse with inLine | later
  · exact headInLine_pauses inLine slash
  · obtain ⟨spaces, further, _, _, same, _, one, two⟩ := later.of_andThen
    cases one with | most accepted => ?_
    rcases split_either same.symm with ⟨middle, rfl, _⟩ | ⟨middle, rfl, rfl⟩
    · exact says_spaces (fun character member => accepted _ (List.mem_append_left _ member)) slash
    · rcases two.of_orElse with below | nothing
      · exact headBelow_pauses accepted below slash
      · cases middle <;> cases nothing

/-- What the same head says in front of the slash and where it may go on. -/
inductive Told (said far : List Char) : List Char → List Char → Prop where
  | alike (told : List Char) (trails : Trails far) : Told said far told told
  | further {told left more tail : List Char} (split : said = told ++ left) (gap : Gap left)
      (same : far = more ++ tail) (trails : Trails tail)
      (plain : ',' ∉ more) : Told said far told (said ++ ' ' :: more)

theorem head_and_tail_pause {tail : Pattern} {bytes : Nat} {cursor other last : Cursor}
    (slashed : Slashed parting far behind) (loose : Loose tail) (trailing : Trailing tail)
    (beside : cursor.Beside parting bytes other) {said : List Char}
    (split : cursor.rest = said ++ parting.one) (split' : other.rest = said ++ parting.two)
    (stays : Stays parting (.andThen (.capture 1 headText) tail) cursor)
    (found : ((Pattern.andThen (.capture 1 headText) tail).outcomes other).head? = some last)
    (stands : last.rest = behind) :
    ∃ next left told told', ((Pattern.andThen (.capture 1 headText) tail).outcomes cursor).head? =
        some next ∧ Gap left ∧ next.rest = left ++ parting.one ∧ Told said far told told' ∧
      next.captures.map captured =
        Writes.apply [(1, String.ofList told)] (cursor.captures.map captured) ∧
      last.captures.map captured =
        Writes.apply [(1, String.ofList told')] (cursor.captures.map captured) := by
  rw [head?_andThen trailing.unfailing] at found
  obtain ⟨middle, found, onward⟩ := Option.bind_eq_some_iff.1 found
  obtain ⟨text, after, written, takes, moves⟩ := outcome_takes (List.mem_of_head? found)
  obtain ⟨tailed, _, _, takes', moves'⟩ := outcome_takes (List.mem_of_head? onward)
  cases moves'.rest.symm.trans stands
  obtain ⟨trails, none⟩ := loose _ _ _ _ takes'
  obtain ⟨others, rfl, inner⟩ := takes.of_capture
  rw [inner.writes_eq_nil rfl, List.nil_append] at moves
  have same : said ++ parting.two = text ++ (tailed ++ behind) := by
    rw [← split', moves.source, ← moves.rest, moves'.source]
  by_cases near : parting.two.length ≤ middle.rest.length
  · obtain ⟨next, reached, beside'⟩ :=
      head?_beside beside (stays.before trailing.unfailing) found near
    obtain ⟨front, _, here⟩ := beside'.rest
    have spread : Trails (front ++ ' ' :: far) := by
      have both := moves'.source.symm.trans here
      rw [slashed.space, ← List.cons_append, ← List.append_assoc] at both
      rwa [List.append_cancel_right both] at trails
    have trails' := spread.behind_space
    obtain ⟨last', left, reached', gap, rest, groups⟩ := trailing.toPauses _ _ _ _ _ _ _ slashed
      trails' beside' (stays.behind trailing.unfailing reached) onward stands
    refine ⟨last', left, text, text, ?_, gap, rest, .alike text trails', ?_, ?_⟩
    · rw [head?_andThen trailing.unfailing, reached]
      exact reached'
    · rw [groups, moves'.groups, none, moves.groups, beside.groups]
      rfl
    · rw [moves'.groups, none, moves.groups, beside.groups]
      rfl
  · rw [moves'.source] at near
    obtain ⟨more, rfl, rfl⟩ := slashed.exists_between same (Nat.lt_of_not_le near)
    obtain ⟨gone, left, rfl, gap, prefers⟩ := headText_pauses inner slashed.slash cursor.previous
    rw [List.append_assoc] at split
    obtain ⟨next, reached, moved⟩ := prefers.capture.head?_outcomes rfl split
    obtain ⟨gone', left', rfl, prefers'⟩ := trailing.pauses next.previous gap slashed.slash
    have rest := moved.rest
    rw [List.append_assoc] at rest
    obtain ⟨next', reached', moved'⟩ := prefers'.head?_outcomes rfl rest
    have plain : ',' ∉ more := fun member =>
      nomatch inner.mayTake (List.mem_append_right _ (List.mem_cons_of_mem _ member))
    refine ⟨next', left', gone, _, ?_, gap.of_append.2, moved'.rest,
      Told.further rfl gap rfl trails plain, ?_, ?_⟩
    · rw [head?_andThen trailing.unfailing, reached]
      exact reached'
    · rw [moved'.groups, moved.groups]
      rfl
    · rw [moves'.groups, none, moves.groups, beside.groups]
      rfl

def Directs (lead : Pattern) : Prop :=
  ∀ previous taken rest writes, lead.Takes previous taken rest writes →
    ∃ gap keyword, taken = gap ++ keyword ∧ Gap gap ∧ keyword ∈ Ansi.directions.map String.toList ∧
      writes = [(0, String.ofList keyword)]

def direction : Pattern :=
  sequence [.capture 0 (oneOf (Ansi.directions.map exactly)), .wordEdge]

theorem directs_direction : Directs direction := by
  intro previous taken rest writes takes
  obtain ⟨keyword, more, _, _, rfl, rfl, one, two⟩ := takes.of_andThen
  obtain ⟨_, rfl, inner⟩ := one.of_capture
  cases two
  rw [inner.writes_eq_nil (by decide), List.append_nil]
  exact ⟨[], keyword, rfl, nofun, Ansi.takes_oneOf inner, rfl⟩

theorem directs_blanks_direction : Directs (.andThen blanks direction) := by
  intro previous taken rest writes takes
  obtain ⟨gap, more, _, _, rfl, rfl, one, two⟩ := takes.of_andThen
  obtain ⟨gap', keyword, rfl, all, listed, rfl⟩ := directs_direction _ _ _ _ two
  rw [one.writes_eq_nil rfl]
  refine ⟨gap ++ gap', keyword, by rw [List.append_assoc], ?_, listed, rfl⟩
  exact Gap.append (blanks_accepted one) all

theorem Directs.near {lead : Pattern} (directs : Directs lead) {near : List Char}
    (some : ¬ Gap near) (takes : lead.Takes previous taken rest writes)
    (slashed : Slashed parting far behind) (same : near ++ parting.two = taken ++ rest) :
    ∃ said, near = taken ++ said ∧ rest = said ++ parting.two := by
  rw [slashed.space] at same ⊢
  rcases split_either same.symm with ⟨middle, split, _⟩ | said
  · obtain ⟨gap, keyword, rfl, all, listed, _⟩ := directs _ _ _ _ takes
    rcases split_either split with ⟨others, rfl, _⟩ | ⟨others, _, inside⟩
    · exact (some all.of_append.1).elim
    · have none : ∀ keyword ∈ Ansi.directions.map String.toList, ' ' ∉ keyword := by decide
      refine (none keyword listed ?_).elim
      rw [inside]
      exact List.mem_append_right _ List.mem_cons_self
  · exact said

theorem outcomes_portHead (cursor : Cursor) : portHead.outcomes cursor =
    (direction.outcomes cursor).flatMap (Pattern.capture 1 headText).outcomes :=
  outcomes_sequence_append [.capture 0 (oneOf (Ansi.directions.map exactly)), .wordEdge]
    [.capture 1 headText] nofun nofun cursor

inductive Heads : Pattern → Pattern → Pattern → Prop where
  | first : Heads portHead direction .nothing
  | further : Heads (sequence [blanks, portHead, blanks, optional (symbol ',')])
      (.andThen blanks direction) listTail

namespace Heads

variable {pattern lead tail : Pattern} (heads : Heads pattern lead tail)
include heads

theorem outcomes_eq (cursor : Cursor) : pattern.outcomes cursor =
    (Pattern.andThen lead (.andThen (.capture 1 headText) tail)).outcomes cursor := by
  cases heads with
  | first =>
    rw [outcomes_portHead]
    refine List.flatMap_congr fun next _ => ?_
    exact (List.flatMap_singleton' _).symm
  | further =>
    show (blanks.outcomes cursor).flatMap
        (fun next => (portHead.outcomes next).flatMap listTail.outcomes) =
      ((blanks.outcomes cursor).flatMap direction.outcomes).flatMap
        fun next => ((Pattern.capture 1 headText).outcomes next).flatMap listTail.outcomes
    rw [List.flatMap_assoc]
    refine List.flatMap_congr fun next _ => ?_
    rw [outcomes_portHead, List.flatMap_assoc]

theorem captureCount_eq : pattern.captureCount = 2 := by
  cases heads <;> rfl

theorem directs : Directs lead := by
  cases heads with
  | first => exact directs_direction
  | further => exact directs_blanks_direction

theorem loose : Loose tail := by
  cases heads with
  | first => exact loose_nothing
  | further => exact loose_listTail

theorem trailing : Trailing tail := by
  cases heads with
  | first => exact trailing_nothing
  | further => exact trailing_listTail

/-- The head that the first text has where the second one has this head. -/
theorem match? {near : List Char} {found : Match} (some : ¬ Gap near)
    (slashed : Slashed parting far behind)
    (stays : ∀ found, pattern.match? (near ++ parting.one) = .some found →
      parting.one.length ≤ found.rest.length)
    (matched : pattern.match? (near ++ parting.two) = .some found) (stands : found.rest = behind) :
    ∃ other left gap keyword said told told', pattern.match? (near ++ parting.one) = .some other ∧
      Gap left ∧ other.rest = left ++ parting.one ∧ near = gap ++ keyword ++ said ∧ Gap gap ∧
      keyword ∈ Ansi.directions.map String.toList ∧ Told said far told told' ∧
      other.groups = [.some (String.ofList keyword), .some (String.ofList told)] ∧
      found.groups = [.some (String.ofList keyword), .some (String.ofList told')] := by
  have stays := Stays.of_match? stays
  have beside := start_beside parting pattern near
  have groups : (pattern.start (near ++ parting.two)).captures.map captured = [none, none] := by
    rw [start, heads.captureCount_eq]
    rfl
  rw [match?_eq_head?, heads.outcomes_eq] at matched
  obtain ⟨last, reached, rfl⟩ := Option.map_eq_some_iff.1 matched
  have unfailing : (Pattern.andThen (.capture 1 headText) tail).unfailing = true := by
    rw [Pattern.unfailing, heads.trailing.unfailing]
    rfl
  rw [head?_andThen unfailing] at reached
  obtain ⟨middle, reached, onward⟩ := Option.bind_eq_some_iff.1 reached
  obtain ⟨taken, rest, writes, takes, moves⟩ := outcome_takes (List.mem_of_head? reached)
  obtain ⟨said, rfl, rfl⟩ := heads.directs.near some takes slashed moves.source
  have stays : Stays parting (.andThen lead (.andThen (.capture 1 headText) tail))
      (pattern.start (taken ++ said ++ parting.one)) := by
    intro next reached
    exact stays next (by rw [heads.outcomes_eq]; exact reached)
  have ahead : parting.two.length ≤ middle.rest.length := by
    rw [moves.rest, List.length_append]
    exact Nat.le_add_left _ _
  obtain ⟨next, reached', beside'⟩ :=
    head?_beside beside (stays.before unfailing) reached ahead
  obtain ⟨front, here, here'⟩ := beside'.rest
  cases List.append_cancel_right (here'.symm.trans moves.rest)
  obtain ⟨gap, keyword, rfl, all, listed, rfl⟩ := heads.directs _ _ _ _ takes
  have captures : next.captures.map captured = [.some (String.ofList keyword), none] := by
    rw [← beside'.groups, moves.groups, groups]
    rfl
  obtain ⟨last', left, told, told', reached'', gap', rest, tells, one, two⟩ :=
    head_and_tail_pause slashed heads.loose heads.trailing beside' here here'
      (stays.behind unfailing reached')
      onward stands
  rw [captures] at one two
  refine ⟨⟨last'.taken, last'.rest, last'.captures.map captured⟩, left, gap, keyword, said, told,
    told', ?_, gap', rest, rfl, all, listed, tells, one, two⟩
  rw [match?_eq_head?, heads.outcomes_eq, head?_andThen unfailing, reached', Option.bind_some,
    reached'']
  rfl

end Heads

end Pattern

end VerilogInterface
