import VerilogInterface.Proofs.ContinuedHeads
import VerilogInterface.Proofs.Demands

/-! The rules of the grammar in a text with carriage returns in front of its line breaks. Each finds
the match that it finds without them, unless a port head goes on behind the line of its
direction. -/

namespace VerilogInterface.Pattern

open Text Verilog

variable {same : String → String → Prop} {characters : List Char} {cursor other next : Cursor}
  {continuation onward : Cursor → Option Cursor} {pattern mirror first second body : Pattern}
  {accept : Char → Bool}

/-- The matches take the same part of the text, and what they capture is the same. -/
structure Returned (same : String → String → Prop) (characters : List Char)
    (found other : Match) : Prop where
  taken : ∃ taken, characters = taken ++ found.rest ∧ found.taken = byteCount taken ∧
    other.taken = byteCount (crlf taken)
  rest : other.rest = crlf found.rest
  groups : List.Forall₂ (Option.Rel same) found.groups other.groups

theorem agree_some (same : String → String → Prop) (characters : List Char) :
    Agree same characters some some := fun _ _ aligned => .some aligned

theorem total_some : Total some := fun _ => rfl

theorem match?_crlf
    (agree : Agree same characters (pattern.search · some) (mirror.search · some))
    (captures : pattern.captureCount = mirror.captureCount) :
    Option.Rel (Returned same characters) (pattern.match? characters)
      (mirror.match? (crlf characters)) := by
  have begins : mirror.start (crlf characters) = pattern.start (crlf characters) := by
    rw [Pattern.start, Pattern.start, captures]
  have ends : Option.Rel (Aligned same characters)
      (pattern.search (pattern.start characters) some)
      (mirror.search (pattern.start (crlf characters)) some) :=
    agree _ _ (.start same characters pattern)
  rw [match?, match?, begins]
  generalize pattern.search _ some = last at ends ⊢
  generalize mirror.search _ some = last' at ends ⊢
  cases ends with
  | none => exact .none
  | some aligned => exact .some ⟨aligned.taken, aligned.rest, aligned.captures⟩

theorem search_lineEnd_break {rest : List Char} (source : next.rest = '\n' :: rest) :
    lineEnd.search next continuation = continuation (next.advance '\n' rest) := by
  rw [lineEnd, search_orElse]
  simp [search, Cursor.literal?, source, symbol]

theorem search_lineEnd_end (source : next.rest = []) :
    lineEnd.search next continuation = continuation next := by
  rw [lineEnd, search_orElse]
  simp [search, Cursor.literal?, source, symbol]

theorem search_lineEnd_other {character : Char} {rest : List Char}
    (source : next.rest = character :: rest) (other : character ≠ '\n') :
    lineEnd.search next continuation = none := by
  rw [lineEnd, search_orElse]
  simp [search, Cursor.literal?, source, symbol, other]

/-- Both searches go through to the end of the line; the second one takes a carriage return more
before the line break. -/
theorem Agree.throughLine (agree : Agree same characters continuation onward)
    (breaks : accept '\n' = false) (starts : accept '\r' = true) (mark mark' : Cursor → Cursor)
    (rests : ∀ next, (mark next).rest = next.rest) (rests' : ∀ next, (mark' next).rest = next.rest)
    (ends : ∀ next next', Aligned same characters next next' →
      Aligned same characters (mark next) (mark' next'))
    (turns : ∀ next next' rest, Aligned same characters next next' → next.rest = '\n' :: rest →
      Aligned same characters ((mark next).advance '\n' rest)
        ((mark' (next'.advance '\r' ('\n' :: crlf rest))).advance '\n' (crlf rest)))
    (aligned : Aligned same characters cursor other) :
    Option.Rel (Aligned same characters)
      ((cursor.furthestFirst accept cursor.rest []).findSome? fun next =>
        lineEnd.search (mark next) continuation)
      ((other.furthestFirst accept other.rest []).findSome? fun next =>
        lineEnd.search (mark' next) onward) := by
  generalize source : cursor.rest = rest
  induction rest generalizing cursor other with
  | nil =>
    have source' := aligned.nil source
    rw [source', Cursor.furthestFirst, Cursor.furthestFirst, List.findSome?_singleton,
      List.findSome?_singleton, search_lineEnd_end ((rests _).trans source),
      search_lineEnd_end ((rests' _).trans source')]
    exact agree _ _ (ends _ _ aligned)
  | cons character rest ih =>
    by_cases lineBreak : character = '\n'
    · subst lineBreak
      obtain ⟨source', _⟩ := aligned.breakLine source
      rw [source', Cursor.furthestFirst_cons, Cursor.furthestFirst_cons, Cursor.furthestFirst_cons,
        breaks, starts]
      simp only [Bool.false_eq_true, if_false, if_true, List.nil_append, List.findSome?_append,
        List.findSome?_singleton]
      rw [search_lineEnd_break ((rests _).trans source), search_lineEnd_break (rests' _),
        search_lineEnd_other ((rests' _).trans source') (by decide), Option.or_none]
      exact agree _ _ (turns _ _ rest aligned source)
    · obtain ⟨source', later⟩ := aligned.advance source lineBreak
      rw [source', Cursor.furthestFirst_cons, Cursor.furthestFirst_cons, List.findSome?_append,
        List.findSome?_append, List.findSome?_singleton, List.findSome?_singleton,
        search_lineEnd_other ((rests _).trans source) lineBreak,
        search_lineEnd_other ((rests' _).trans source') lineBreak, Option.or_none, Option.or_none]
      split
      · exact ih later rfl
      · exact .none

/-- Up to the end of the line both texts are alike. -/
theorem Agree.lineTail (agree : Agree same characters continuation onward)
    (breaks : accept '\n' = false) (starts : accept '\r' = true) :
    Agree same characters ((Pattern.andThen (.most accept) lineEnd).search · continuation)
      ((Pattern.andThen (.most accept) lineEnd).search · onward) := by
  intro cursor other aligned
  exact agree.throughLine breaks starts id id (fun _ => rfl) (fun _ => rfl)
    (fun _ _ later => later) (fun _ _ rest later source => (later.breakLine source).2) aligned

theorem agree_lineRest :
    Agree same characters ((Pattern.andThen (.most (allBut '\n')) lineEnd).search · some)
      ((Pattern.andThen (.most (allBut '\n')) lineEnd).search · some) :=
  (agree_some same characters).lineTail rfl rfl

/-- The rest of a line is captured with the carriage return at its end. -/
theorem Agree.capturedTail (agree : Agree same characters continuation onward)
    (plain : ∀ taken, same (String.ofList taken) (String.ofList (crlf taken)))
    (loose : ∀ taken, same (String.ofList taken) (String.ofList (crlf taken ++ ['\r'])))
    (breaks : accept '\n' = false) (starts : accept '\r' = true) (index : Nat) :
    Agree same characters
      ((Pattern.andThen (.capture index (.most accept)) lineEnd).search · continuation)
      ((Pattern.andThen (.capture index (.most accept)) lineEnd).search · onward) := by
  intro cursor other aligned
  refine agree.throughLine breaks starts (·.remember index cursor) (·.remember index other)
    (fun _ => rfl) (fun _ => rfl) (fun _ _ later => aligned.remember plain later index)
    (fun next next' rest later source => ?_) aligned
  refine (later.breakLine source).2.setCapture index (.some ?_)
  have one : '\r'.utf8Size = 1 := rfl
  show same (String.ofList (firstBytes (next.taken - cursor.taken) cursor.rest))
    (String.ofList (firstBytes (next'.taken + '\r'.utf8Size - other.taken) other.rest))
  rcases aligned.ahead_or later with ⟨between, split, bytes, bytes'⟩ | ⟨back, back'⟩
  · have text : other.rest = (crlf between ++ ['\r']) ++ '\n' :: crlf rest := by
      rw [aligned.rest, split, source, crlf_append, crlf_break]
      simp
    have count : next'.taken + '\r'.utf8Size - other.taken =
        byteCount (crlf between ++ ['\r']) := by
      rw [byteCount_append, bytes', Nat.add_assoc, Nat.add_sub_cancel_left]
      rfl
    rw [count, text, firstBytes_append, bytes, Nat.add_sub_cancel_left, split, firstBytes_append]
    exact loose between
  · rw [Nat.sub_eq_zero_of_le (Nat.le_of_lt back), Nat.sub_eq_zero_of_le (by omega),
      firstBytes_zero, firstBytes_zero]
    exact plain []

theorem crlf_head (characters rest : List Char) : crlf characters ≠ '\n' :: rest := by
  cases characters with
  | nil => simp
  | cons character characters =>
    rw [crlf]
    split
    · simp
    · next plain => simp [plain]

/-- A head on a later line is not found where a carriage return stands before the line break. -/
theorem simulates_headBelow :
    Simulates same characters .nothing (optional headBelow) .free := by
  intro continuation onward agree _ cursor other aligned
  have absent : ['\n'].isPrefixOf other.rest = false := by
    rw [aligned.rest]
    cases source : crlf cursor.rest with
    | nil => rfl
    | cons character rest =>
      have other : '\n' ≠ character := by
        rintro rfl
        exact crlf_head _ _ source
      simp [List.isPrefixOf, other]
  have none : headBelow.search other onward = none :=
    (Bars.of_first (.literal absent)).search_eq_none rfl onward
  show Option.Rel _ (continuation cursor) ((optional headBelow).search other onward)
  rw [optional, search_orElse, none, Option.none_or]
  exact agree cursor other aligned

section
variable (plain : ∀ taken, same (String.ofList taken) (String.ofList (crlf taken)))
include plain

theorem simulates_portHead : Simulates same characters portHeadInLine portHead .free := by
  have onLine : Simulates same characters
      (sequence [.most spaceOrTab, .one fun inner => startsHead inner || inner == '`',
        .most continuesHead])
      (sequence [.most spaceOrTab, .one fun inner => startsHead inner || inner == '`',
        .most continuesHead]) .free := simulates_of_demand plain rfl
  have below : Simulates same characters (.andThen (.most spaceOrTab) .nothing)
      (.andThen (.most spaceOrTab) (optional headBelow)) .free :=
    .andThen (simulates_of_demand plain rfl) simulates_headBelow fun _ met => ⟨met, trivial⟩
  have head := Simulates.capture plain (.orElse onLine below fun _ met => ⟨met, met⟩) 1
  exact .andThen (simulates_of_demand plain rfl)
    (.andThen (simulates_of_demand plain rfl) head fun _ met => ⟨met, trivial⟩)
    fun _ met => ⟨met, trivial⟩

theorem simulates_furtherHead :
    Simulates same characters (sequence [blanks, portHeadInLine, blanks, optional (symbol ',')])
      (sequence [blanks, portHead, blanks, optional (symbol ',')]) .total := by
  have tail : Simulates same characters (.andThen blanks (optional (symbol ',')))
      (.andThen blanks (optional (symbol ','))) .total := simulates_of_demand plain rfl
  refine .andThen (simulates_of_demand plain rfl)
    (.andThen (simulates_portHead plain) tail fun _ met => ⟨met, trivial⟩) fun onward met => ?_
  have solid :
      (Pattern.andThen portHead (.andThen blanks (optional (symbol ',')))).refuses = true := by decide
  exact ⟨met, .inr (refusing_of_refuses solid onward)⟩

/-- A pattern that needs nothing of what follows keeps the agreement behind it. -/
theorem Agree.after (agree : Agree same characters (second.search · continuation)
    (second.search · onward)) (known : first.demand = some .free) :
    Agree same characters ((Pattern.andThen first second).search · continuation)
      ((Pattern.andThen first second).search · onward) :=
  simulates_of_demand plain known _ _ agree trivial

/-- A pattern that can end inside a line break, before one that cannot begin there. -/
theorem Agree.afterBreak (agree : Agree same characters (second.search · continuation)
    (second.search · onward)) (known : first.demand = some .settled ∨ first.demand = some .refusing)
    (refuses : second.refuses = true) :
    Agree same characters ((Pattern.andThen first second).search · continuation)
      ((Pattern.andThen first second).search · onward) := by
  have refusing := refusing_of_refuses refuses onward
  rcases known with settled | refused
  · exact simulates_of_demand plain settled _ _ agree (.inr refusing)
  · exact simulates_of_demand plain refused _ _ agree refusing

theorem agree_documentation
    (loose : ∀ taken, same (String.ofList taken) (String.ofList (crlf taken ++ ['\r']))) :
    Agree same characters (documentation.search · some) (documentation.search · some) := by
  have line : Agree same characters
      ((Pattern.andThen (.capture 0 (.most (allBut '\n'))) lineEnd).search · some)
      ((Pattern.andThen (.capture 0 (.most (allBut '\n'))) lineEnd).search · some) :=
    (agree_some same characters).capturedTail plain loose rfl rfl 0
  exact (line.after plain rfl).after plain rfl

theorem agree_lineComment :
    Agree same characters (lineComment.search · some) (lineComment.search · some) :=
  .after plain agree_lineRest rfl

theorem agree_sectionLabel :
    Agree same characters (sectionLabel.search · some) (sectionLabel.search · some) := by
  refine Agree.after plain ?_ rfl
  refine Agree.afterBreak plain ?_ (.inl rfl) rfl
  refine Agree.after plain ?_ rfl
  refine Agree.afterBreak plain ?_ (.inr rfl) rfl
  exact Agree.after plain agree_lineRest rfl

end

theorem run_takes_break (breaks : accept '\n' = true) {rest : List Char}
    (source : next.rest = '\n' :: rest) : ((run accept).search next some).isSome = true := by
  show ((Pattern.one accept).search next
    fun behind => (Pattern.most accept).search behind some).isSome = true
  rw [search, source]
  show (if accept '\n' then _ else none).isSome = true
  rw [if_pos breaks]
  exact total_some.isSome_furthestFirst _ _

/-- A last resort that takes any character does not come to take a line break. -/
theorem Agree.orElse_any
    (agree : Agree same characters (first.search · some) (first.search · some))
    (breaks : ∀ next rest, next.rest = '\n' :: rest → (first.search next some).isSome = true) :
    Agree same characters ((Pattern.orElse first (.one fun _ => true)).search · some)
      ((Pattern.orElse first (.one fun _ => true)).search · some) := by
  intro cursor other aligned
  show Option.Rel _ ((Pattern.orElse first _).search cursor _)
    ((Pattern.orElse first _).search other _)
  have one : Option.Rel _ (first.search cursor some) (first.search other some) :=
    agree cursor other aligned
  rw [search_orElse, search_orElse]
  cases source : cursor.rest with
  | nil =>
    refine rel_or one ?_
    rw [search, search, source, aligned.nil source]
    exact .none
  | cons character rest =>
    by_cases lineBreak : character = '\n'
    · subst lineBreak
      refine rel_or_of_isSome one ?_
      have some := breaks cursor rest source
      generalize first.search cursor Option.some = last at one some
      generalize first.search other Option.some = last' at one ⊢
      cases one with
      | none => contradiction
      | some _ => rfl
    · obtain ⟨source', later⟩ := aligned.advance source lineBreak
      refine rel_or one ?_
      rw [search, search, source, source']
      exact .some later

theorem agree_run (starts : accept '\r' = true) (breaks : accept '\n' = true) :
    Agree same characters ((run accept).search · some) ((run accept).search · some) :=
  (agree_some same characters).run starts breaks starts breaks (.inl total_some)

theorem agree_anything (plain : ∀ taken, same (String.ofList taken) (String.ofList (crlf taken))) :
    Agree same characters (anything.search · some) (anything.search · some) := by
  have words : Agree same characters (word.search · some) (word.search · some) :=
    simulates_of_demand plain (show word.demand = some .free from rfl) _ _ (agree_some _ _) trivial
  exact agree_orElse words ((agree_run rfl rfl).orElse_any fun _ _ => run_takes_break rfl)

theorem agree_inComment :
    Agree same characters
      ((Pattern.orElse (run (allBut '*')) (.one fun _ => true)).search · some)
      ((Pattern.orElse (run (allBut '*')) (.one fun _ => true)).search · some) :=
  (agree_run rfl rfl).orElse_any fun _ _ => run_takes_break rfl

end VerilogInterface.Pattern

namespace VerilogInterface

open Text Verilog Pattern

variable {characters : List Char}

/-- A captured text and what is captured where carriage returns stand in front of line breaks. The
rest of a line comes with the carriage return at its end. -/
def Recaptured (tailed : Prop) (text other : String) : Prop :=
  other.toList = crlf text.toList ∨ tailed ∧ other.toList = crlf text.toList ++ ['\r']

theorem recaptured_plain (tailed : Prop) (taken : List Char) :
    Recaptured tailed (String.ofList taken) (String.ofList (crlf taken)) :=
  .inl (by rw [String.toList_ofList, String.toList_ofList])

namespace Rule

def Strays (rule : Rule) (found : Match) : Prop :=
  rule.action.isSome = true ∧ rule.transition ≠ some .pop ∧ 0 < found.taken ∧
    ∃ text, some text ∈ found.groups ∧ '\n' ∈ text.toList

/-- The rule finds the same in both texts, unless it captures a line break in the first one. -/
def Returns (rule : Rule) (characters : List Char) : Prop :=
  Option.Rel (Returned (Recaptured (rule.action = some .documentation)) characters)
      (rule.pattern.match? characters) (rule.pattern.match? (crlf characters)) ∨
    ∃ found, rule.pattern.match? characters = some found ∧ rule.Strays found

namespace Returns

theorem of_agree {rule : Rule}
    (agree : Agree (Recaptured (rule.action = some .documentation)) characters
      (rule.pattern.search · some) (rule.pattern.search · some)) : rule.Returns characters :=
  .inl (match?_crlf agree rfl)

theorem of_demand {rule : Rule} (known : rule.pattern.demand.any (· ≠ .refusing) = true) :
    rule.Returns characters := by
  obtain ⟨demand, needs, other⟩ := (Option.any_eq_true _ _).1 known
  refine .of_agree (simulates_of_demand (recaptured_plain _) needs _ _ (agree_some _ _) ?_)
  cases demand with
  | free => trivial
  | settled => exact .inl total_some
  | total => exact total_some
  | refusing => contradiction

theorem of_head {rule : Rule} (mirror : Pattern) (demand : Demand)
    (means : rule.action.isSome = true) (stays : rule.transition ≠ some .pop)
    (solid : rule.pattern.nullable = false)
    (captures : mirror.captureCount = rule.pattern.captureCount)
    (simulates : Simulates (Recaptured (rule.action = some .documentation)) characters mirror
      rule.pattern demand) (met : demand.Met some)
    (inLine : rule.pattern.match? characters = mirror.match? characters ∨
      ∃ found text, rule.pattern.match? characters = some found ∧ some text ∈ found.groups ∧
        '\n' ∈ text.toList) : rule.Returns characters := by
  rcases inLine with same | ⟨found, text, matched, member, lineBreak⟩
  · refine .inl ?_
    rw [same]
    exact match?_crlf (simulates _ _ (agree_some _ _) met) captures
  · refine .inr ⟨found, matched, means, stays, ?_, text, member, lineBreak⟩
    obtain ⟨taken, writes, _, bytes, takes, _⟩ := match?_takes matched
    rw [bytes, byteCount_pos_iff]
    rintro rfl
    rw [takes.nullable rfl] at solid
    contradiction

end Returns

end Rule

theorem guards_return : ∀ rule ∈ guards, rule.Returns characters := by
  simp only [guards, List.forall_mem_cons, List.not_mem_nil, false_implies, implies_true, and_true]
  exact ⟨.of_demand rfl, .of_demand rfl⟩

theorem openComment_returns : openComment.Returns characters := .of_demand rfl

theorem documentation_returns (transition : Option Transition) :
    Rule.Returns ⟨documentation, some .documentation, transition⟩ characters := by
  refine .of_agree (agree_documentation (recaptured_plain _) fun taken => .inr ⟨rfl, ?_⟩)
  rw [String.toList_ofList, String.toList_ofList]

theorem lineComment_returns : (skip lineComment).Returns characters :=
  .of_agree (agree_lineComment (recaptured_plain _))

theorem sectionLabel_returns (transition : Option Transition) :
    Rule.Returns ⟨sectionLabel, some .sectionLabel, transition⟩ characters :=
  .of_agree (agree_sectionLabel (recaptured_plain _))

theorem anything_returns : (skip anything).Returns characters :=
  .of_agree (agree_anything (recaptured_plain _))

theorem rootRules_return : ∀ rule ∈ rootRules, rule.Returns characters := by
  refine List.forall_mem_append.2 ⟨guards_return, ?_⟩
  simp only [List.forall_mem_cons, List.not_mem_nil, false_implies, implies_true, and_true]
  exact ⟨.of_demand rfl, openComment_returns, documentation_returns _, lineComment_returns,
    anything_returns⟩

theorem moduleRules_return : ∀ rule ∈ moduleRules, rule.Returns characters := by
  refine List.forall_mem_append.2 ⟨guards_return, ?_⟩
  simp only [List.forall_mem_cons, List.not_mem_nil, false_implies, implies_true, and_true]
  refine ⟨.of_demand rfl, .of_demand rfl, .of_demand rfl, .of_demand rfl,
    ?_, .of_demand rfl, openComment_returns, sectionLabel_returns _, documentation_returns _,
    lineComment_returns, anything_returns⟩
  exact .of_head portHeadInLine .free rfl (by decide) rfl rfl
    (simulates_portHead (recaptured_plain _)) trivial (portHead_or_strays characters)

theorem parameterRules_return : ∀ rule ∈ parameterRules, rule.Returns characters := by
  refine List.forall_mem_append.2 ⟨guards_return, ?_⟩
  simp only [List.forall_mem_cons, List.not_mem_nil, false_implies, implies_true, and_true]
  exact ⟨.of_demand rfl, .of_demand rfl, .of_demand rfl, .of_demand rfl,
    openComment_returns, documentation_returns _, lineComment_returns, .of_demand rfl⟩

theorem portRules_return : ∀ rule ∈ portRules, rule.Returns characters := by
  refine List.forall_mem_append.2 ⟨guards_return, ?_⟩
  simp only [List.forall_mem_cons, List.not_mem_nil, false_implies, implies_true, and_true]
  refine ⟨?_, .of_demand rfl, .of_demand rfl, .of_demand rfl, openComment_returns,
    sectionLabel_returns _, documentation_returns _, lineComment_returns, .of_demand rfl⟩
  exact .of_head (sequence [blanks, portHeadInLine, blanks, optional (symbol ',')]) .total rfl
    (by decide) rfl rfl (simulates_furtherHead (recaptured_plain _)) total_some
    (furtherHead_or_strays characters)

theorem commentRules_return : ∀ rule ∈ commentRules, rule.Returns characters := by
  simp only [commentRules, List.forall_mem_cons, List.not_mem_nil, false_implies, implies_true,
    and_true]
  exact ⟨.of_demand rfl, .of_agree agree_inComment⟩

theorem table_returns (state : State) : ∀ rule ∈ table state, rule.Returns characters := by
  cases state with
  | root => exact rootRules_return
  | module => exact moduleRules_return
  | parameters => exact parameterRules_return
  | modulePort => exact portRules_return
  | blockComment => exact commentRules_return

end VerilogInterface
