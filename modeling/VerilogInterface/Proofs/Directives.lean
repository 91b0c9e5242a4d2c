import VerilogInterface.Proofs.AnsiPatterns
import VerilogInterface.Proofs.Captures
import VerilogInterface.Proofs.Nesting
import VerilogInterface.Proofs.Scanning

/-! What becomes of the guard directives of a text. Outside of comments a directive at the front is
taken up at once, so one can be lost only behind the beginning of a match, and few matches can hold
one there. -/

namespace VerilogInterface

open Text Verilog

inductive Directive : Meaning → List Char → List Char → Prop where
  | enter {word : String} {blank name rest : List Char}
      (listed : word = "`ifdef" ∨ word = "`ifndef") (parted : blank ≠ []) (gap : Gap blank)
      (named : name ≠ []) (whole : ∀ character ∈ name, isWord character = true)
      (ends : Pattern.Ends isWord rest) :
      Directive (.guardEnter, [some word, some (String.ofList name)])
        (word.toList ++ (blank ++ name)) rest
  | exit {rest : List Char} (ends : Pattern.Ends isWord rest) :
      Directive (.guardExit, []) "`endif".toList rest

namespace Directive

variable {meaning : Meaning} {word rest : List Char}

theorem exists_cons (directive : Directive meaning word rest) : ∃ others, word = '`' :: others := by
  cases directive with
  | enter listed => rcases listed with rfl | rfl <;> exact ⟨_, rfl⟩
  | exit => exact ⟨_, rfl⟩

theorem guardEnter_prefers {word : String} {blank name : List Char}
    (listed : word = "`ifdef" ∨ word = "`ifndef") (parted : blank ≠ []) (gap : Gap blank)
    (named : name ≠ []) (whole : ∀ character ∈ name, isWord character = true)
    (ends : Pattern.Ends isWord rest) :
    guardEnter.Prefers none (word.toList ++ (blank ++ name)) rest
      [(0, word), (1, String.ofList name)] := by
  have spelled : (Pattern.oneOf [.exactly "`ifdef", .exactly "`ifndef"]).Prefers none word.toList
      (blank ++ (name ++ rest)) [] := by
    rcases listed with rfl | rfl
    · exact .former .literal
    · exact .latter (.literal rfl) .literal
  have apart : Pattern.Ends isBlank (name ++ rest) := by
    obtain ⟨first, others, rfl⟩ := List.exists_cons_of_ne_nil named
    apply Pattern.Ends.cons
    by_contra same
    have word := whole first List.mem_cons_self
    rw [isWord_of_isBlank ((Bool.not_eq_false _).mp same)] at word
    contradiction
  have macroName : (Pattern.capture 1 Verilog.word).Prefers
      (blank.getLast?.or (word.toList.getLast?.or none)) name rest [(1, String.ofList name)] :=
    .capture (.run named whole ends)
  refine .cast (.chain (.capture spelled) (.chain (.run parted gap apart) macroName rfl) ?_) rfl ?_
  · rw [List.append_assoc]
  · rw [String.ofList_toList]
    rfl

/-- Outside of block comments a directive at the front of a scan is the next match. -/
theorem moved {scanner : Scanner} (directive : Directive meaning word rest)
    (working : scanner.failed = false) (outside : scanner.state ≠ .blockComment)
    (split : scanner.rest = word ++ rest) :
    scanner.step Verilog.table = .moved
      { state := scanner.state, action := some meaning.1, groups := meaning.2,
        offset := scanner.position, stop := scanner.position + byteCount word }
      { scanner with rest, position := scanner.position + byteCount word } := by
  have listed : ∀ state ≠ State.blockComment,
      (Verilog.table state)[0]? = some ⟨guardEnter, some .guardEnter, none⟩ ∧
        (Verilog.table state)[1]? = some ⟨guardExit, some .guardExit, none⟩ ∧
        (Verilog.table state).take 1 = [⟨guardEnter, some .guardEnter, none⟩] := by
    intro state other
    cases state with
    | blockComment => exact (other rfl).elim
    | root | module | parameters | modulePort => exact ⟨rfl, rfl, rfl⟩
  obtain ⟨first, second, before⟩ := listed _ outside
  cases directive with
  | enter spelled parted gap named whole ends =>
    exact Scanner.moved_of_rule 0 first nofun
      (guardEnter_prefers spelled parted gap named whole ends) (by simp [named]) working split rfl
  | exit ends =>
    have takes : guardExit.Prefers none "`endif".toList rest [] :=
      .chain .literal (Ansi.prefers_wordEdge rfl ends) rfl
    have bars : ∀ rule ∈ (Verilog.table scanner.state).take 1,
        rule.pattern.Bars scanner.rest := by
      rw [before, split]
      intro rule member
      cases List.mem_singleton.1 member
      apply Pattern.Bars.of_first
      intro previous taken behind writes same takes
      obtain ⟨_, _, spelled⟩ := takes.of_capture
      rcases spelled.of_orElse with ifdef | ifndef
      · exact Pattern.Bars.literal rfl previous taken behind _ same ifdef
      · exact Pattern.Bars.literal rfl previous taken behind _ same ifndef
    exact Scanner.moved_of_rule 1 second bars takes nofun working split rfl

end Directive

/-- The places where a match can hold a directive behind its beginning: comments and literals,
blocks, and what is captured in a list, which is the range of a parameter list, the value of a
parameter or the head of a port list. -/
inductive Holds (state : State) (action : Option Action) (taken : List Char) (captured : Prop) :
    Prop where
  | comment (action : action = some .documentation ∨ action = some .sectionLabel)
  | lineComment (silent : action = none) (opens : "//".toList <+: taken)
  | blockComment (inside : state = .blockComment)
  | literal (inside : state = .module) (silent : action = none) (opens : "\"".toList <+: taken)
  | block (inside : state = .module) (silent : action = none)
      (opens : "function".toList <+: taken ∨ "task".toList <+: taken)
  | captured (listed : action ∈ [some .parameterStart, some .parameterItem, some .portStart])
      (inside : captured)

theorem Holds.imp {state : State} {action : Option Action} {taken : List Char}
    {captured captured' : Prop} (holds : Holds state action taken captured)
    (implies : captured → captured') : Holds state action taken captured' := by
  cases holds with
  | comment action => exact .comment action
  | lineComment silent opens => exact .lineComment silent opens
  | blockComment inside => exact .blockComment inside
  | literal inside silent opens => exact .literal inside silent opens
  | block inside silent opens => exact .block inside silent opens
  | captured listed inside => exact .captured listed (implies inside)

/-- A match of the rule has the first character of a directive at its beginning only, or in one of
these places. -/
def Rule.Admits (state : State) (rule : Rule) : Prop :=
  ∀ {taken rest : List Char} {writes : Pattern.Writes} {before more : List Char},
    rule.pattern.Takes none taken rest writes → taken = before ++ '`' :: more →
      before = [] ∨ Holds state rule.action taken
        (Pattern.Takes.Wrote 1 '`' before more writes ∧ (writes.map (·.1)).Nodup ∧
          1 < rule.pattern.captureCount)

namespace Rule.Admits

variable {state : State} {rule : Rule}

theorem of_never (never : rule.pattern.mayTake '`' = false) : rule.Admits state := by
  intro taken rest writes before more takes split
  exact absurd (by rw [split]; simp) (takes.lacks never)

theorem of_action (action : rule.action = some .documentation ∨ rule.action = some .sectionLabel) :
    rule.Admits state := fun _ _ => .inr (.comment action)

theorem of_captured
    (listed : rule.action ∈ [some .parameterStart, some .parameterItem, some .portStart])
    (only : rule.pattern.takesOutside 1 '`' = false) (once : rule.pattern.possible.Nodup)
    (made : 1 < rule.pattern.captureCount) : rule.Admits state := by
  intro taken rest writes before more takes split
  exact .inr (.captured listed
    ⟨takes.in_capture only split, (takes.writes_sublist once).nodup once, made⟩)

theorem opens {expected : List Char} {others : Pattern} {previous : Option Char}
    {taken rest : List Char} {writes : Pattern.Writes}
    (takes : (Pattern.andThen (.literal expected) others).Takes previous taken rest writes) :
    expected <+: taken := by
  obtain ⟨front, behind, _, _, rfl, _, first, _⟩ := takes.of_andThen
  rw [first.of_literal]
  exact List.prefix_append _ _

theorem lineComment : (skip Verilog.lineComment).Admits state := by
  intro taken rest writes before more takes _
  exact .inr (.lineComment rfl (opens takes))

theorem anything : (skip Verilog.anything).Admits state := by
  intro taken rest writes before more takes split
  refine .inl ?_
  have here : '`' ∈ taken := by simp [split]
  rcases takes.of_orElse with word | others
  · exact absurd here (word.lacks (by decide))
  · rcases others.of_orElse with blanks | single
    · exact absurd here (blanks.lacks (by decide))
    · cases single with
      | one accepted =>
        have length := congrArg List.length split
        rw [List.length_append] at length
        simp only [List.length_cons, List.length_nil] at length
        exact List.length_eq_zero_iff.1 (by omega)

theorem guards : ∀ rule ∈ Verilog.guards, rule.Admits state := by
  -- the sign stands first in the words of the guards and nowhere else
  have front {word before later : List Char} (same : '`' :: word = before ++ '`' :: later)
      (absent : '`' ∉ word) : before = [] := by
    cases before with
    | nil => rfl
    | cons first before =>
      obtain ⟨_, rest⟩ := List.cons.inj same
      exact (absent (by simp [rest])).elim
  simp only [Verilog.guards, List.forall_mem_cons, List.not_mem_nil, false_implies, implies_true,
    and_true]
  constructor
  · intro taken rest writes before more takes split
    obtain ⟨word, behind, _, _, rfl, _, first, second⟩ := takes.of_andThen
    obtain ⟨_, _, spelled⟩ := first.of_capture
    rcases split_either split with ⟨later, part, _⟩ | ⟨earlier, _, part⟩
    · rcases spelled.of_orElse with ifdef | ifndef
      · rw [ifdef.of_literal] at part
        exact .inl (front part (by decide))
      · rw [ifndef.of_literal] at part
        exact .inl (front part (by decide))
    · have absent : '`' ∉ behind := second.lacks (by decide)
      exact absurd (by simp [part]) absent
  · intro taken rest writes before more takes split
    obtain ⟨word, behind, _, _, rfl, _, first, second⟩ := takes.of_andThen
    rcases split_either split with ⟨later, part, _⟩ | ⟨earlier, _, part⟩
    · rw [first.of_literal] at part
      exact .inl (front part (by decide))
    · have absent : '`' ∉ behind := second.lacks (by decide)
      exact absurd (by simp [part]) absent

theorem rootRules : ∀ rule ∈ Verilog.rootRules, rule.Admits state := by
  refine List.forall_mem_append.2 ⟨guards, ?_⟩
  simp only [List.forall_mem_cons, List.not_mem_nil, false_implies, implies_true, and_true]
  refine ⟨?_, ?_, ?_, ?_, ?_⟩
  · exact of_never (by decide)
  · exact of_never (by decide)
  · exact of_action (.inl rfl)
  · exact lineComment
  · exact anything

theorem moduleRules : ∀ rule ∈ Verilog.moduleRules, rule.Admits .module := by
  refine List.forall_mem_append.2 ⟨guards, ?_⟩
  simp only [List.forall_mem_cons, List.not_mem_nil, false_implies, implies_true, and_true]
  refine ⟨?_, ?_, ?_, ?_, ?_, ?_, ?_, ?_, ?_, ?_, ?_⟩
  · exact fun takes _ => .inr (.literal rfl rfl (opens takes))
  · exact fun takes _ => .inr (.block rfl rfl (.inl (opens takes)))
  · exact fun takes _ => .inr (.block rfl rfl (.inr (opens takes)))
  · exact of_captured (by simp) (by decide) (by decide) (by decide)
  · exact of_captured (by simp) (by decide) (by decide) (by decide)
  · exact of_never (by decide)
  · exact of_never (by decide)
  · exact of_action (.inr rfl)
  · exact of_action (.inl rfl)
  · exact lineComment
  · exact anything

theorem parameterRules : ∀ rule ∈ Verilog.parameterRules, rule.Admits state := by
  refine List.forall_mem_append.2 ⟨guards, ?_⟩
  simp only [List.forall_mem_cons, List.not_mem_nil, false_implies, implies_true, and_true]
  refine ⟨?_, ?_, ?_, ?_, ?_, ?_, ?_, ?_⟩
  · exact of_captured (by simp) (by decide) (by decide) (by decide)
  · exact of_captured (by simp) (by decide) (by decide) (by decide)
  · exact of_never (by decide)
  · exact of_never (by decide)
  · exact of_never (by decide)
  · exact of_action (.inl rfl)
  · exact lineComment
  · exact of_never (by decide)

theorem portRules : ∀ rule ∈ Verilog.portRules, rule.Admits state := by
  refine List.forall_mem_append.2 ⟨guards, ?_⟩
  simp only [List.forall_mem_cons, List.not_mem_nil, false_implies, implies_true, and_true]
  refine ⟨?_, ?_, ?_, ?_, ?_, ?_, ?_, ?_, ?_⟩
  · exact of_captured (by simp) (by decide) (by decide) (by decide)
  · exact of_never (by decide)
  · exact of_never (by decide)
  · exact of_never (by decide)
  · exact of_never (by decide)
  · exact of_action (.inr rfl)
  · exact of_action (.inl rfl)
  · exact lineComment
  · exact of_never (by decide)

theorem table : ∀ rule ∈ Verilog.table state, rule.Admits state := by
  cases state with
  | root => exact rootRules
  | module => exact moduleRules
  | parameters => exact parameterRules
  | modulePort => exact portRules
  | blockComment => exact fun _ _ _ _ _ _ _ _ _ => .inr (.blockComment rfl)

end Rule.Admits

/-- A directive stands at the offset of the text, up to the stop. -/
def DirectiveAt (text : String) (offset stop : Nat) (meaning : Meaning) : Prop :=
  ∃ front word rest, text.toList = front ++ (word ++ rest) ∧ offset = byteCount front ∧
    stop = offset + byteCount word ∧ Directive meaning word rest

namespace Lexeme

def Spans (text : String) (lexeme : Lexeme) (taken : List Char) : Prop :=
  ∃ front behind, text.toList = front ++ (taken ++ behind) ∧ lexeme.offset = byteCount front ∧
    lexeme.stop = lexeme.offset + byteCount taken

/-- The offset lies in what the match captured under the index. -/
def Captured (text : String) (lexeme : Lexeme) (index offset : Nat) : Prop :=
  ∃ front value behind, text.toList = front ++ (value ++ behind) ∧
    lexeme.groups[index]? = some (some (String.ofList value)) ∧
    lexeme.offset ≤ byteCount front ∧ byteCount front ≤ offset ∧
    offset < byteCount front + byteCount value ∧
    byteCount front + byteCount value ≤ lexeme.stop

end Lexeme

namespace Scanner

variable {text : String} {scanner after : Scanner} {lexeme : Lexeme} {offset stop : Nat}
  {meaning : Meaning}

/-- A directive that begins inside of what a step takes, seen from the step. -/
theorem exists_before {taken rest : List Char} (stands : scanner.Stands text)
    (split : scanner.rest = taken ++ rest) (directive : DirectiveAt text offset stop meaning)
    (behind : scanner.position ≤ offset) (within : offset < scanner.position + byteCount taken) :
    ∃ before more word further, taken = before ++ '`' :: more ∧
      scanner.rest = before ++ (word ++ further) ∧ offset = scanner.position + byteCount before ∧
      stop = offset + byteCount word ∧ Directive meaning word further := by
  obtain ⟨passed, whole, place⟩ := stands
  obtain ⟨front, word, further, divided, rfl, rfl, directive⟩ := directive
  obtain ⟨before, rfl, ahead⟩ :=
    append_split_of_byteCount (whole.symm.trans divided) (place ▸ behind)
  rw [byteCount_append, ← place] at within ⊢
  have less : byteCount before < byteCount taken := Nat.lt_of_add_lt_add_left within
  obtain ⟨middle, rfl, onward⟩ := append_split_of_byteCount (ahead.symm.trans split) less.le
  obtain ⟨others, rfl⟩ := directive.exists_cons
  cases middle with
  | nil => simp at less
  | cons first more =>
    obtain ⟨rfl, _⟩ := List.cons.inj onward
    exact ⟨before, more, _, further, rfl, ahead, rfl, rfl, directive⟩

/-- What was written around a character is captured around its offset. -/
theorem captured_of_wrote {before more rest : List Char} {writes : Pattern.Writes} {count : Nat}
    (stands : scanner.Stands text) (split : scanner.rest = before ++ '`' :: more ++ rest)
    (begins : lexeme.offset = scanner.position)
    (ends : lexeme.stop = scanner.position + byteCount (before ++ '`' :: more))
    (groups : lexeme.groups = writes.apply (List.replicate count none))
    (wrote : Pattern.Takes.Wrote 1 '`' before more writes) (once : (writes.map (·.1)).Nodup)
    (made : 1 < count) : lexeme.Captured text 1 (scanner.position + byteCount before) := by
  obtain ⟨passed, whole, place⟩ := stands
  obtain ⟨front, within, further, final, rfl, rfl, member⟩ := wrote
  refine ⟨passed ++ front, within ++ '`' :: further, final ++ rest, ?_, ?_, ?_⟩
  · rw [whole, split]
    simp
  · rw [groups]
    exact Pattern.Writes.getElem?_apply member once (by simpa using made)
  · have positive := '`'.utf8Size_pos
    simp only [begins, ends, place, byteCount_append, byteCount]
    omega

/-- A directive that begins inside of a match is the match itself, or the match can hold it. -/
theorem holds_of_moved (reached : (start text).Reaches Verilog.table scanner)
    (moved : scanner.step Verilog.table = .moved lexeme after)
    (directive : DirectiveAt text offset stop meaning) (behind : lexeme.offset ≤ offset)
    (within : offset < lexeme.stop) :
    (lexeme.offset = offset ∧ lexeme.stop = stop ∧
        lexeme.token?.map Token.meaning = some meaning) ∨
      ∃ taken, lexeme.Spans text taken ∧
        Holds lexeme.state lexeme.action taken (lexeme.Captured text 1 offset) := by
  obtain ⟨rule, taken, writes, moves⟩ := exists_movesBy moved
  have begins := moves.offset
  have ends : lexeme.stop = scanner.position + byteCount taken := moves.stop.trans moves.position
  have spans : lexeme.Spans text taken := by
    obtain ⟨passed, whole, place⟩ := reached.stands
    exact ⟨passed, after.rest, by rw [whole, moves.source], begins.trans place, by
      rw [ends, begins]⟩
  obtain ⟨before, more, word, further, rfl, ahead, rfl, rfl, spelled⟩ :=
    exists_before reached.stands moves.source directive (begins ▸ behind) (ends ▸ within)
  rcases Rule.Admits.table rule moves.listed moves.takes rfl with rfl | holds
  · by_cases comment : scanner.state = .blockComment
    · exact .inr ⟨_, spans, .blockComment (moves.state.trans comment)⟩
    · have working := (first_of_moved moved).1
      have same := moved.symm.trans (spelled.moved working comment ahead)
      obtain ⟨same, _⟩ := Scanner.Step.moved.inj same
      rw [same]
      exact .inl ⟨rfl, rfl, rfl⟩
  · refine .inr ⟨_, spans, ?_⟩
    rw [moves.state, ← moves.action]
    apply holds.imp
    rintro ⟨wrote, once, counted⟩
    exact captured_of_wrote reached.stands moves.source begins ends moves.groups wrote once counted

/-- Every offset of what remains is in some match, unless the scan comes to a failure before it. -/
theorem exists_lexeme_at (working : scanner.failed = false) (nested : Nested scanner.entered)
    (ahead : scanner.position ≤ offset)
    (within : offset < scanner.position + byteCount scanner.rest) :
    (∃ step ∈ (scanner.trace Verilog.table).lexemes,
        step.1.offset ≤ offset ∧ offset < step.1.stop) ∨
      ∃ state place, scanner.ending = .failure (.noRule state place) ∧ place ≤ offset := by
  induction scanner using scan_induction with
  | ended scanner ended =>
    rcases step_eq_ended.1 ended with failed | empty
    · rw [working] at failed
      contradiction
    · rw [empty] at within
      exact absurd within (Nat.not_lt_of_le ahead)
  | stopped scanner error after stopped =>
    obtain ⟨_, _, ⟨_, rfl, _⟩ | ⟨_, _, _, _, rfl, _⟩⟩ := first_of_stopped stopped
    · exact .inr ⟨_, _, (tokens_of_stopped stopped).2, ahead⟩
    · exact (step_ne_underflow nested stopped).elim
  | moved scanner lexeme after moved ih =>
    obtain ⟨onward, begins, ends, _⟩ := onward_of_moved moved
    rw [trace_of_moved moved, (tokens_of_moved moved).2]
    by_cases here : offset < after.position
    · exact .inl ⟨_, List.mem_cons_self, begins ▸ ahead, ends ▸ here⟩
    · have later := ih (working_of_moved moved) (nested.shift (shift_of_step nested moved))
        (Nat.le_of_not_lt here) (onward.bytes ▸ within)
      exact later.imp_left fun ⟨step, member, around⟩ =>
        ⟨step, List.mem_cons_of_mem _ member, around⟩

theorem mem_tokens_of_mem_trace {token : Token}
    (member : (lexeme, after) ∈ (scanner.trace Verilog.table).lexemes)
    (meant : lexeme.token? = some token) : token ∈ scanner.tokens := by
  have kept : lexeme.token?.map (·, after) = some (token, after) := by rw [meant, Option.map_some]
  exact List.mem_map.2 ⟨(token, after), List.mem_filterMap.2 ⟨_, member, kept⟩, rfl⟩

end Scanner

structure KeepsDirectives (text : String) : Prop where
  /-- A directive that begins inside of a match is all of it, or the match is one that can hold
  it. -/
  inside : ∀ {lexeme after},
    (lexeme, after) ∈ ((Scanner.start text).trace Verilog.table).lexemes →
    ∀ {offset stop meaning}, DirectiveAt text offset stop meaning →
      lexeme.offset ≤ offset → offset < lexeme.stop →
      (lexeme.offset = offset ∧ lexeme.stop = stop ∧
          lexeme.token?.map Token.meaning = some meaning) ∨
        ∃ taken, lexeme.Spans text taken ∧
          Holds lexeme.state lexeme.action taken (lexeme.Captured text 1 offset)
  /-- A directive is a token, unless a match holds it or the scan fails before it. -/
  reaches : ∀ {offset stop meaning}, DirectiveAt text offset stop meaning →
    (∃ token ∈ tokens text, token.offset = offset ∧ token.stop = stop ∧ token.meaning = meaning) ∨
      (∃ lexeme after, (lexeme, after) ∈ ((Scanner.start text).trace Verilog.table).lexemes ∧
        lexeme.offset ≤ offset ∧ offset < lexeme.stop ∧
          ∃ taken, lexeme.Spans text taken ∧
            Holds lexeme.state lexeme.action taken (lexeme.Captured text 1 offset)) ∨
      ∃ state place, ending text = .failure (.noRule state place) ∧ place ≤ offset

theorem directives_kept (text : String) : KeepsDirectives text where
  inside {lexeme after} member {offset stop meaning} directive behind within := by
    obtain ⟨scanner, reached, moved⟩ := Scanner.exists_of_mem_trace member
    exact Scanner.holds_of_moved reached moved directive behind within
  reaches {offset stop meaning} directive := by
    have within : offset < byteCount text.toList := by
      obtain ⟨front, word, rest, whole, rfl, rfl, spelled⟩ := directive
      obtain ⟨others, rfl⟩ := spelled.exists_cons
      have positive : 0 < byteCount ('`' :: others) := byteCount_pos nofun
      rw [whole, byteCount_append, byteCount_append]
      omega
    have start : (Scanner.start text).position + byteCount (Scanner.start text).rest =
        byteCount text.toList := Nat.zero_add _
    rcases Scanner.exists_lexeme_at rfl .outside (Nat.zero_le offset) (start ▸ within) with
      ⟨⟨lexeme, after⟩, member, begins, ends⟩ | failed
    · obtain ⟨scanner, reached, moved⟩ := Scanner.exists_of_mem_trace member
      rcases Scanner.holds_of_moved reached moved directive begins ends with
        ⟨same, same', meant⟩ | holds
      · obtain ⟨token, found, rfl⟩ := Option.map_eq_some_iff.1 meant
        obtain ⟨action, _, rfl⟩ := Option.map_eq_some_iff.1 found
        exact .inl ⟨_, Scanner.mem_tokens_of_mem_trace member found, same, same', rfl⟩
      · exact .inr (.inl ⟨lexeme, after, member, begins, ends, holds⟩)
    · exact .inr (.inr failed)

/-- A match in the given state and with the given meaning contains a whole directive. -/
def Swallows (text : String) (state : State) (action : Option Action) : Prop :=
  ∃ offset stop meaning, DirectiveAt text offset stop meaning ∧
    ∃ step ∈ ((Scanner.start text).trace Verilog.table).lexemes,
      step.1.state = state ∧ step.1.action = action ∧
        step.1.offset ≤ offset ∧ stop ≤ step.1.stop

def skippedText : String := "module m (input a);\nfunction f;\n`endif\nendfunction\nendmodule\n"

/-- The end of a guard that was never opened is swallowed by the rule that skips a function, and in a
list by what is taken for the range or the value of a parameter or for the head of a port. Behind a
further name under the head of a port it is found. -/
theorem swallows_directives :
    (Swallows skippedText .module none ∧
      parse skippedText = .ok [{ name := "m", ports := [
        { name := "a", direction := some .input, dataType := "" }] }]) ∧
    Swallows "module m #(parameter [`endif] W = 4) ();\nendmodule\n" .module
      (some .parameterStart) ∧
    Swallows "module m #(parameter W = 4 `endif\n) ();\nendmodule\n" .parameters
      (some .parameterItem) ∧
    Swallows "module m (input a `endif\n);\nendmodule\n" .module (some .portStart) ∧
    parse "module m (input a `endif\n);\nendmodule\n" = .ok [{ name := "m", ports := [
      { name := "`endif", direction := some .input, dataType := "a" }] }] ∧
    parse "module m (input b, a `endif\n);\nendmodule\n" = .error (.unmatchedEndif 1) := by
  have exit (front rest : String) (ends : Pattern.Ends isWord rest.toList) :
      DirectiveAt (front ++ ("`endif" ++ rest)) (byteCount front.toList)
        (byteCount front.toList + 6) (.guardExit, []) :=
    ⟨front.toList, _, _, by rw [String.toList_append, String.toList_append], rfl, rfl, .exit ends⟩
  refine ⟨⟨?_, by decide +kernel⟩, ?_, ?_, ?_, by decide +kernel, by decide +kernel⟩
  · exact ⟨_, _, _, exit "module m (input a);\nfunction f;\n" "\nendfunction\nendmodule\n"
      (.cons (by decide) _), by decide +kernel⟩
  · exact ⟨_, _, _, exit "module m #(parameter [" "] W = 4) ();\nendmodule\n"
      (.cons (by decide) _), by decide +kernel⟩
  · exact ⟨_, _, _, exit "module m #(parameter W = 4 " "\n) ();\nendmodule\n"
      (.cons (by decide) _), by decide +kernel⟩
  · exact ⟨_, _, _, exit "module m (input a " "\n);\nendmodule\n" (.cons (by decide) _),
      by decide +kernel⟩

end VerilogInterface
