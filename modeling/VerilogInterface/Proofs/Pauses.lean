import VerilogInterface.Proofs.Confinement
import VerilogInterface.Proofs.Gaps

/-! Matches that stop early. Where one text has a space another one has a mark, which no blanks and
no list go on over. A match that takes the space and little behind it is the same match in the other
text, as far as its captures go, but for what it takes from the space on. -/

namespace VerilogInterface

open Text Verilog

namespace Text

/-- Blanks, and possibly a comma behind them. -/
def Trails (characters : List Char) : Prop :=
  ∃ gap, Gap gap ∧ (characters = gap ∨ characters = gap ++ [','])

def soft (character : Char) : Bool := isBlank character || character == ','

variable {first second characters : List Char}

theorem Gap.trails (gap : Gap characters) : Trails characters := ⟨characters, gap, .inl rfl⟩

/-- The comma is the last character. -/
theorem Trails.of_append (trails : Trails (first ++ second)) :
    second = [] ∧ Trails first ∨ Gap first ∧ Trails second := by
  obtain ⟨gap, all, same | same⟩ := trails
  · rw [← same] at all
    exact .inr ⟨all.of_append.1, all.of_append.2.trails⟩
  · rcases split_either same with ⟨later, rfl, none⟩ | ⟨middle, rfl, rfl⟩
    · obtain ⟨rfl, rfl⟩ := List.append_eq_nil_iff.1 none.symm
      exact .inl ⟨rfl, gap, all, .inr rfl⟩
    · exact .inr ⟨all.of_append.1, middle, all.of_append.2, .inr rfl⟩

theorem Trails.left (trails : Trails (first ++ second)) : Trails first := by
  rcases trails.of_append with ⟨_, trails⟩ | ⟨gap, _⟩
  · exact trails
  · exact gap.trails

/-- There is no comma before the last space. -/
theorem Trails.behind_space (trails : Trails (first ++ ' ' :: second)) : Trails second := by
  rcases (List.append_cons first ' ' second ▸ trails).of_append with ⟨rfl, _⟩ | ⟨_, behind⟩
  · exact Gap.trails nofun
  · exact behind

theorem Trails.soft (trails : Trails characters) {character : Char} (member : character ∈ characters) :
    soft character = true := by
  obtain ⟨gap, all, rfl | rfl⟩ := trails
  · rw [Text.soft, all _ member, Bool.true_or]
  · rcases List.mem_append.1 member with inside | last
    · rw [Text.soft, all _ inside, Bool.true_or]
    · cases List.mem_singleton.1 last
      rfl

end Text

namespace Pattern

variable {pattern first second tail : Pattern} {parting : Parting} {cursor other far last : Cursor}
  {previous : Option Char} {taken rest gap : List Char} {writes : Writes} {bytes : Nat}

theorem head?_andThen (unfailing : second.unfailing = true) (cursor : Cursor) :
    ((Pattern.andThen first second).outcomes cursor).head? =
      (first.outcomes cursor).head?.bind fun next => (second.outcomes next).head? := by
  rw [outcomes]
  cases first.outcomes cursor with
  | nil => rfl
  | cons next others =>
    obtain ⟨last, more, found⟩ := List.exists_cons_of_ne_nil (outcomes_ne_nil unfailing next)
    rw [List.flatMap_cons, List.head?_cons, Option.bind_some, found]
    rfl

theorem Prefers.head?_outcomes (prefers : pattern.Prefers previous taken rest writes)
    (behind : cursor.previous = previous) (source : cursor.rest = taken ++ rest) :
    ∃ last, (pattern.outcomes cursor).head? = some last ∧ cursor.Moves taken rest writes last := by
  obtain ⟨last, moves, reached⟩ := prefers cursor behind source
  have found := reached some last rfl
  rw [← findSome?_outcomes] at found
  refine ⟨last, ?_, moves⟩
  rw [← found]
  cases pattern.outcomes cursor <;> rfl

/-- The preferred outcome does not go beyond the parting. -/
def Stays (parting : Parting) (pattern : Pattern) (cursor : Cursor) : Prop :=
  ∀ next, (pattern.outcomes cursor).head? = some next → parting.one.length ≤ next.rest.length

theorem Stays.before (stays : Stays parting (.andThen first second) cursor)
    (unfailing : second.unfailing = true) : Stays parting first cursor := by
  intro next found
  obtain ⟨last, more, reached⟩ := List.exists_cons_of_ne_nil (outcomes_ne_nil unfailing next)
  have here : (second.outcomes next).head? = some last := by rw [reached]; rfl
  obtain ⟨taken, split, _⟩ := outcome_ahead (List.mem_of_head? here)
  have stays' := stays last (by rw [head?_andThen unfailing, found]; exact here)
  rw [split, List.length_append]
  omega

theorem Stays.behind (stays : Stays parting (.andThen first second) cursor)
    (unfailing : second.unfailing = true) {next : Cursor}
    (found : (first.outcomes cursor).head? = some next) : Stays parting second next := by
  intro last reached
  exact stays last (by rw [head?_andThen unfailing, found]; exact reached)

/-- The preferred outcome, if in both texts it does not go beyond the parting. -/
theorem head?_beside (beside : cursor.Beside parting bytes other)
    (stays : Stays parting pattern cursor)
    (found : (pattern.outcomes other).head? = some far)
    (near : parting.two.length ≤ far.rest.length) :
    ∃ next, (pattern.outcomes cursor).head? = some next ∧ next.Beside parting bytes far := by
  have alike := alike_outcomes pattern beside
  obtain ⟨others, split⟩ := List.head?_eq_some_iff.1 found
  rw [Alike, earlier, earlier, split, List.filter_cons_of_pos (by simpa using near)] at alike
  cases reached : pattern.outcomes cursor with
  | nil =>
    rw [reached] at alike
    cases alike
  | cons next nexts =>
    have here := stays next (by rw [reached]; rfl)
    rw [reached, List.filter_cons_of_pos (by simpa using here)] at alike
    cases alike with
    | cons both _ => exact ⟨next, rfl, both.2⟩

def ends : Pattern → Char → Bool
  | .one accept, character | .most accept, character | .fewest accept, character =>
    accept character
  | .literal characters, character => characters.getLast? == some character
  | .andThen first second, character =>
    second.ends character || (second.nullable && first.ends character)
  | .orElse first second, character => first.ends character || second.ends character
  | .rounds body, character | .capture _ body, character => body.ends character
  | _, _ => false

theorem Takes.ends {character : Char} (takes : pattern.Takes previous taken rest writes)
    (last : taken.getLast? = some character) : pattern.ends character = true := by
  have of_append {one two : List Char} (last : (one ++ two).getLast? = some character) :
      two.getLast? = some character ∨ two = [] ∧ one.getLast? = some character := by
    cases two with
    | nil =>
      rw [List.append_nil] at last
      exact .inr ⟨rfl, last⟩
    | cons first two =>
      rw [List.getLast?_append_of_ne_nil _ (List.cons_ne_nil _ _)] at last
      exact .inl last
  induction takes with
  | nothing | noRound | wordEdge | textEnd => cases last
  | one accepted =>
    cases last
    exact accepted
  | literal => simpa [Pattern.ends] using last
  | most accepted | fewest accepted => exact accepted _ (List.mem_of_getLast? last)
  | andThen _ right one two =>
    rcases of_append last with behind | ⟨rfl, before⟩
    · simp [Pattern.ends, two behind]
    · simp [Pattern.ends, right.nullable rfl, one before]
  | former _ one => simp [Pattern.ends, one last]
  | latter _ two => simp [Pattern.ends, two last]
  | round _ _ one again =>
    rcases of_append last with behind | ⟨_, before⟩
    · exact again behind
    · exact one before
  | capture _ inner => exact inner last

/-- Whether a match takes something and ends with no blank and no comma. -/
def firm (pattern : Pattern) : Bool :=
  !pattern.nullable && !pattern.ends ',' &&
    blankCodes.all fun code => !pattern.ends (Char.ofNat code)

theorem Takes.exists_firm (takes : pattern.Takes previous taken rest writes)
    (firm : pattern.firm = true) : ∃ last ∈ taken.getLast?, soft last = false := by
  obtain ⟨both, blanks⟩ := (Bool.and_eq_true _ _).mp firm
  obtain ⟨some, comma⟩ := (Bool.and_eq_true _ _).mp both
  cases last : taken.getLast? with
  | none =>
    rw [takes.nullable (List.getLast?_eq_none_iff.1 last)] at some
    contradiction
  | some character =>
    refine ⟨character, rfl, ?_⟩
    have ended := takes.ends last
    rw [soft, Bool.or_eq_false_iff]
    constructor
    · by_contra blank
      have none := List.all_eq_true.1 blanks _ (toNat_of_isBlank (Bool.not_eq_false _ ▸ blank))
      rw [Char.ofNat_toNat, ended] at none
      contradiction
    · rw [beq_eq_false_iff_ne]
      rintro rfl
      rw [ended] at comma
      contradiction

/-- What is taken last decides. -/
theorem firm_andThen (first : Pattern) (firm : second.firm = true) :
    (Pattern.andThen first second).firm = true := by
  have some : second.nullable = false := by
    rw [Pattern.firm, Bool.and_assoc, Bool.and_eq_true, Bool.not_eq_true'] at firm
    exact firm.1
  have none : (Pattern.andThen first second).nullable = false := by
    rw [Pattern.nullable, some, Bool.and_false]
  have same (character : Char) :
      (Pattern.andThen first second).ends character = second.ends character := by
    rw [Pattern.ends, some, Bool.false_and, Bool.or_false]
  rw [← firm]
  simp only [Pattern.firm, some, none, same]

/-- What a match ends with that may be left out. -/
structure Trailing (tail : Pattern) : Prop where
  unfailing : tail.unfailing = true
  loose : ∀ {previous : Option Char} {taken rest : List Char} {writes : Writes},
    tail.Takes previous taken rest writes → (∀ last ∈ taken.getLast?, soft last = true) →
    Trails taken ∧ writes = []
  pauses : ∀ (previous : Option Char) {gap rest : List Char}, Gap gap → rest.head? = some '/' →
    ∃ gone left, gap = gone ++ left ∧ tail.Prefers previous gone (left ++ rest) []

/-- Where the one text has a slash, the other has a space, with so much behind it. -/
structure Slashed (parting : Parting) (far behind : List Char) : Prop where
  slash : parting.one.head? = some '/'
  space : parting.two = ' ' :: (far ++ behind)

/-- The match comes to the slash or leaves some blanks in front of it, with the same captures as where
it takes more. -/
def Pauses (pattern : Pattern) : Prop :=
  ∀ (parting : Parting) (far behind : List Char) (bytes : Nat) (cursor other last : Cursor),
    Slashed parting far behind → Trails far → cursor.Beside parting bytes other →
    Stays parting pattern cursor →
    (pattern.outcomes other).head? = some last → last.rest = behind →
    ∃ next left, (pattern.outcomes cursor).head? = some next ∧ Gap left ∧
      next.rest = left ++ parting.one ∧ next.captures.map captured = last.captures.map captured

theorem Trailing.toPauses (trailing : Trailing tail) : Pauses tail := by
  intro parting far behind bytes cursor other last slashed trails beside stays found stands
  obtain ⟨taken, rest, writes, takes, moves⟩ := outcome_takes (List.mem_of_head? found)
  obtain ⟨front, split, split'⟩ := beside.rest
  have rest_eq : rest = behind := moves.rest.symm.trans stands
  subst rest_eq
  have same : taken = front ++ ' ' :: far := by
    have both := moves.source.symm.trans split'
    rw [slashed.space, ← List.cons_append, ← List.append_assoc] at both
    exact List.append_cancel_right both
  have ends : ∀ last ∈ taken.getLast?, soft last = true := by
    intro last final
    rw [same, List.getLast?_append_of_ne_nil _ (List.cons_ne_nil _ _)] at final
    rcases List.mem_cons.1 (List.mem_of_getLast? final) with rfl | inside
    · rfl
    · exact trails.soft inside
  obtain ⟨loose, none⟩ := trailing.loose takes ends
  have gap : Gap front := by
    rw [same] at loose
    rcases loose.of_append with ⟨empty, _⟩ | ⟨gap, _⟩
    · cases empty
    · exact gap
  obtain ⟨gone, left, rfl, prefers⟩ := trailing.pauses cursor.previous gap slashed.slash
  rw [List.append_assoc] at split
  obtain ⟨next, reached, moves'⟩ := prefers.head?_outcomes rfl split
  refine ⟨next, left, reached, gap.of_append.2, moves'.rest, ?_⟩
  rw [moves'.groups, moves.groups, none, beside.groups]

/-- What is taken beyond the space begins with everything in front of it. -/
theorem exists_taken {near taken rest behind : List Char}
    (split : near ++ ' ' :: behind = taken ++ rest) (less : rest.length < (' ' :: behind).length) :
    ∃ more, taken = near ++ ' ' :: more := by
  rcases split_either split.symm with ⟨more, same, _⟩ | ⟨middle, _, rfl⟩
  · exact ⟨more, same⟩
  · rw [List.length_append] at less
    omega

/-- A part of the text that reaches over the space, and what is taken behind it. -/
theorem Slashed.exists_between {far behind front part : List Char}
    (slashed : Slashed parting far behind)
    (same : front ++ parting.two = part ++ (taken ++ behind))
    (beyond : (taken ++ behind).length < parting.two.length) :
    ∃ between, far = between ++ taken ∧ part = front ++ ' ' :: between := by
  rw [slashed.space] at same beyond
  obtain ⟨between, rfl⟩ := exists_taken same beyond
  rw [List.append_assoc, List.cons_append] at same
  have rest := (List.cons.inj (List.append_cancel_left same)).2
  rw [← List.append_assoc] at rest
  exact ⟨between, List.append_cancel_right rest, rfl⟩

/-- Something that may be left out behind a match leaves it as it is. -/
theorem Pauses.andThen (one : Pauses first) (two : Trailing second) :
    Pauses (.andThen first second) := by
  intro parting far behind bytes cursor other last slashed trails beside stays found stands
  rw [head?_andThen two.unfailing] at found
  obtain ⟨middle, found, onward⟩ := Option.bind_eq_some_iff.1 found
  by_cases near : parting.two.length ≤ middle.rest.length
  · obtain ⟨next, reached, beside'⟩ := head?_beside beside (stays.before two.unfailing) found near
    obtain ⟨last', left, reached', gap, rest, groups⟩ :=
      two.toPauses _ _ _ _ _ _ _ slashed trails beside' (stays.behind two.unfailing reached) onward
        stands
    refine ⟨last', left, ?_, gap, rest, groups⟩
    rw [head?_andThen two.unfailing, reached]
    exact reached'
  · obtain ⟨taken, rest, writes, takes, moves⟩ := outcome_takes (List.mem_of_head? onward)
    obtain ⟨part, split, _⟩ := outcome_ahead (List.mem_of_head? found)
    obtain ⟨front, _, here⟩ := beside.rest
    have rest_eq : rest = behind := moves.rest.symm.trans stands
    subst rest_eq
    rw [here, moves.source] at split
    rw [moves.source] at near
    obtain ⟨between, rfl, _⟩ := slashed.exists_between split (Nat.lt_of_not_le near)
    have slashed' : Slashed parting between middle.rest := by
      refine ⟨slashed.slash, ?_⟩
      rw [slashed.space, moves.source, List.append_assoc]
    obtain ⟨next, left, reached, gap, rest, groups⟩ :=
      one _ _ _ _ _ _ _ slashed' trails.left beside (stays.before two.unfailing) found rfl
    obtain ⟨gone, left, rfl, prefers⟩ := two.pauses next.previous gap slashed.slash
    rw [List.append_assoc] at rest
    obtain ⟨last', reached', moves'⟩ := prefers.head?_outcomes rfl rest
    have ends : ∀ last ∈ taken.getLast?, soft last = true := fun last final =>
      trails.soft (List.mem_append_right _ (List.mem_of_getLast? final))
    refine ⟨last', left, ?_, gap.of_append.2, moves'.rest, ?_⟩
    · rw [head?_andThen two.unfailing, reached]
      exact reached'
    · rw [moves'.groups, moves.groups, (two.loose takes ends).2, groups]

/-- A match that ends with something of importance has come to its end before the space. -/
theorem Pauses.behind (firm : first.firm = true)
    (unfailing : second.unfailing = true) (two : Pauses second) :
    Pauses (.andThen first second) := by
  intro parting far behind bytes cursor other last slashed trails beside stays found stands
  rw [head?_andThen unfailing] at found
  obtain ⟨middle, found, onward⟩ := Option.bind_eq_some_iff.1 found
  have near : parting.two.length ≤ middle.rest.length := by
    by_contra beyond
    obtain ⟨taken, rest, writes, takes, moves⟩ := outcome_takes (List.mem_of_head? found)
    obtain ⟨part, split, _⟩ := outcome_ahead (List.mem_of_head? onward)
    obtain ⟨front, _, here⟩ := beside.rest
    rw [stands] at split
    have same := here.symm.trans moves.source
    rw [← moves.rest, split] at same
    rw [split] at beyond
    obtain ⟨between, rfl, rfl⟩ := slashed.exists_between same (Nat.lt_of_not_le beyond)
    obtain ⟨final, ends, plain⟩ := takes.exists_firm firm
    rw [List.getLast?_append_of_ne_nil _ (List.cons_ne_nil _ _)] at ends
    have loose : soft final = true := by
      rcases List.mem_cons.1 (List.mem_of_getLast? ends) with rfl | inside
      · rfl
      · exact trails.soft (List.mem_append_left _ inside)
    rw [loose] at plain
    contradiction
  obtain ⟨next, reached, beside'⟩ := head?_beside beside (stays.before unfailing) found near
  obtain ⟨last', left, reached', gap, rest, groups⟩ :=
    two _ _ _ _ _ _ _ slashed trails beside' (stays.behind unfailing reached) onward stands
  refine ⟨last', left, ?_, gap, rest, groups⟩
  rw [head?_andThen unfailing, reached]
  exact reached'

theorem ends_of_slash {accept : Char → Bool} (other : accept '/' = false)
    (slash : rest.head? = some '/') : Ends accept rest := by
  intro first head
  cases slash.symm.trans head
  exact other

theorem trailing_blanks : Trailing blanks := by
  refine ⟨rfl, ?_, ?_⟩
  · intro previous taken rest writes takes _
    exact ⟨Gap.trails (blanks_accepted takes), takes.writes_eq_nil rfl⟩
  · intro previous gap rest all slash
    exact ⟨gap, [], (List.append_nil gap).symm, .most all (ends_of_slash rfl slash)⟩

/-- Something that begins with no slash is not there in front of one. -/
theorem prefers_blanks_absent {body : Pattern} (some : body.nullable = false)
    (other : body.begins '/' = false) (all : Gap gap) (slash : rest.head? = .some '/') :
    (Pattern.andThen blanks (optional body)).Prefers previous gap rest [] := by
  obtain ⟨behind, rfl⟩ := List.head?_eq_some_iff.1 slash
  exact .cast (.chain (.most all (ends_of_slash rfl slash))
    (Ansi.prefers_absent (.of_begins some other)) rfl) (List.append_nil gap) rfl

theorem trailing_optional {body : Pattern} (firm : body.firm = true)
    (other : body.begins '/' = false) : Trailing (.andThen blanks (optional body)) := by
  have some : body.nullable = false := by
    simpa using ((Bool.and_eq_true _ _).mp ((Bool.and_eq_true _ _).mp firm).1).1
  refine ⟨by simp [unfailing, optional, blanks], ?_, ?_⟩
  · intro previous taken rest writes takes loose
    obtain ⟨gap, more, written, others, rfl, rfl, one, two⟩ := takes.of_andThen
    rcases two.of_orElse with inner | nothing
    · obtain ⟨last, ends, plain⟩ := inner.exists_firm firm
      have final : last ∈ (gap ++ more).getLast? := by
        rw [List.getLast?_append_of_ne_nil _ (List.ne_nil_of_mem (List.mem_of_getLast? ends))]
        exact ends
      rw [loose last final] at plain
      contradiction
    · cases nothing
      rw [List.append_nil, one.writes_eq_nil rfl]
      exact ⟨Gap.trails (blanks_accepted one), rfl⟩
  · intro previous gap rest all slash
    exact ⟨gap, [], (List.append_nil gap).symm, prefers_blanks_absent some other all slash⟩

def listTail : Pattern := .andThen blanks (optional (symbol ','))

def Loose (pattern : Pattern) : Prop :=
  ∀ previous taken rest writes, pattern.Takes previous taken rest writes →
    Trails taken ∧ writes = []

theorem loose_listTail : Loose listTail := by
  intro previous taken rest writes takes
  rw [takes.writes_eq_nil rfl]
  obtain ⟨gap, more, _, _, rfl, _, one, two⟩ := takes.of_andThen
  refine ⟨⟨gap, blanks_accepted one, ?_⟩, rfl⟩
  rcases two.of_orElse with comma | nothing
  · rw [comma.of_literal]
    exact .inr rfl
  · cases nothing
    exact .inl (List.append_nil gap)

theorem loose_nothing : Loose .nothing := by
  intro previous taken rest writes takes
  cases takes
  exact ⟨Gap.trails nofun, rfl⟩

theorem trailing_listTail : Trailing listTail := by
  refine ⟨rfl, fun takes _ => loose_listTail _ _ _ _ takes, ?_⟩
  intro previous gap rest all slash
  exact ⟨gap, [], (List.append_nil gap).symm, prefers_blanks_absent rfl rfl all slash⟩

theorem trailing_nothing : Trailing .nothing := by
  refine ⟨rfl, fun takes _ => loose_nothing _ _ _ _ takes, ?_⟩
  intro previous gap rest _ _
  exact ⟨[], gap, rfl, .nothing⟩

/-- A sequence may be taken in two parts. -/
theorem outcomes_sequence_append (front behind : List Pattern) (some : front ≠ [])
    (more : behind ≠ []) (cursor : Cursor) : (sequence (front ++ behind)).outcomes cursor =
      (Pattern.andThen (sequence front) (sequence behind)).outcomes cursor := by
  induction front generalizing cursor with
  | nil => exact (some rfl).elim
  | cons pattern front ih =>
    cases front with
    | nil =>
      cases behind with
      | nil => exact (more rfl).elim
      | cons next behind => rfl
    | cons next front =>
      show ((pattern.outcomes cursor).flatMap (sequence (next :: front ++ behind)).outcomes) =
        ((pattern.outcomes cursor).flatMap (sequence (next :: front)).outcomes).flatMap
          (sequence behind).outcomes
      rw [List.flatMap_assoc]
      exact List.flatMap_congr fun middle _ => ih nofun middle

theorem Pauses.of_outcomes (pauses : Pauses first)
    (same : ∀ cursor, second.outcomes cursor = first.outcomes cursor) : Pauses second := by
  unfold Pauses Stays at pauses ⊢
  simp only [same]
  exact pauses

theorem Pauses.of_sequence (front behind : List Pattern) (some : front ≠ []) (more : behind ≠ [])
    (pauses : Pauses (.andThen (sequence front) (sequence behind))) :
    Pauses (sequence (front ++ behind)) :=
  pauses.of_outcomes (outcomes_sequence_append front behind some more)

theorem firm_word : (capture 0 word).firm = true := by
  have blank : ∀ code ∈ blankCodes, isBlank (Char.ofNat code) = true := by decide
  have ends (character : Char) : (capture 0 word).ends character = isWord character :=
    Bool.or_self _
  have comma : isWord ',' = false := by decide
  rw [Pattern.firm, ends, comma, Bool.and_eq_true, List.all_eq_true]
  refine ⟨rfl, fun code member => ?_⟩
  rw [ends, isWord_of_isBlank (blank code member), Bool.not_false]

theorem pauses_moduleStart : Pauses moduleStart :=
  .of_sequence [exactly "module", run isBlank, .capture 0 word] [blanks] nofun nofun
    (.behind (firm_andThen _ (firm_andThen _ firm_word)) rfl trailing_blanks.toPauses)

theorem pauses_parameterItem : Pauses parameterItem :=
  .of_sequence [blanks, .capture 0 word, blanks, symbol '=', blanks,
    .capture 1 (.orElse quotedValue valueParts)] [blanks] nofun nofun
    (.behind (by decide +kernel) rfl trailing_blanks.toPauses)

theorem pauses_portName : Pauses portName :=
  .of_sequence [blanks, .capture 0 word] [blanks, optional (symbol ',')] nofun nofun
    (.behind (firm_andThen _ firm_word) rfl trailing_listTail.toPauses)

/-- The type of a parameter list may be left out in two places. -/
theorem pauses_parameterType : Pauses Verilog.parameterType :=
  .of_sequence [blanks, optional Ansi.qualifierPart] [blanks, optional (.capture 1 range)] nofun nofun
    ((trailing_optional (by decide +kernel) rfl).toPauses.andThen
      (trailing_optional (by decide +kernel) rfl))

theorem pauses_parameterHead : Pauses parameterHead :=
  .of_sequence [exactly "parameter", .wordEdge] [blanks, optional Ansi.qualifierPart, blanks,
    optional (.capture 1 range)] nofun nofun
    (.behind (by decide +kernel) (by decide) pauses_parameterType)

theorem pauses_furtherHead : Pauses (.andThen blanks parameterHead) :=
  .of_sequence [blanks, exactly "parameter", .wordEdge] [blanks, optional Ansi.qualifierPart, blanks,
    optional (.capture 1 range)] nofun nofun
    (.behind (by decide +kernel) (by decide) pauses_parameterType)

theorem Stays.of_match? {near : List Char}
    (stays : ∀ found, pattern.match? (near ++ parting.one) = some found →
      parting.one.length ≤ found.rest.length) :
    Stays parting pattern (pattern.start (near ++ parting.one)) := by
  intro next reached
  exact stays _ (by rw [match?_eq_head?, reached]; rfl)

theorem start_beside (parting : Parting) (pattern : Pattern) (near : List Char) :
    (pattern.start (near ++ parting.one)).Beside parting 0 (pattern.start (near ++ parting.two)) :=
  ⟨⟨near, rfl, rfl⟩, rfl, rfl, rfl⟩

/-- The same for matches. -/
theorem Pauses.match? {near far behind : List Char} {found : Match} (pauses : Pauses pattern)
    (slashed : Slashed parting far behind) (trails : Trails far)
    (stays : ∀ found, pattern.match? (near ++ parting.one) = some found →
      parting.one.length ≤ found.rest.length)
    (matched : pattern.match? (near ++ parting.two) = some found) (stands : found.rest = behind) :
    ∃ other left, pattern.match? (near ++ parting.one) = some other ∧ Gap left ∧
      other.rest = left ++ parting.one ∧ other.groups = found.groups := by
  rw [match?_eq_head?] at matched
  obtain ⟨last, reached, rfl⟩ := Option.map_eq_some_iff.1 matched
  obtain ⟨next, left, reached', gap, rest, groups⟩ := pauses _ _ _ _ _ _ _ slashed trails
    (start_beside parting pattern near) (.of_match? stays) reached stands
  exact ⟨_, left, by rw [match?_eq_head?, reached']; rfl, gap, rest, groups⟩

end Pattern

end VerilogInterface
