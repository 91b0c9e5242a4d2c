import VerilogInterface.Proofs.Comments
import VerilogInterface.Proofs.ListTails
import VerilogInterface.Proofs.NamedHeads

/-! Matches across a space that stands in the place of a comment. In front of the comment the scan has
a match that stops early. Its token does the same where the longer one takes but blanks and a comma
behind the space, and where a head takes the name it has not: the port list takes that name as well. -/

namespace VerilogInterface

open Text Verilog Pattern

def Action.behind? : Action → Option State
  | .moduleStart => some .module
  | .parameterStart | .parameterItem => some .parameters
  | .portStart | .portName => some .modulePort
  | _ => none

theorem Shift.state_of_behind? {stack after : List State} {action : Action} {state : State}
    (shift : Shift stack (some action) after) (behind : action.behind? = some state) :
    after.headD .root = state := by
  cases shift with
  | aside _ kind => rcases kind with rfl | rfl | rfl <;> cases behind
  | label => cases behind
  | closeModule => cases behind
  | openComment => cases behind
  | closeComment => cases behind
  | _ =>
    cases behind
    rfl

def Rule.declares (rule : Rule) : Bool := (rule.action.bind Action.behind?).isSome

/-- What is said by a match for a head or a member of a list does not depend on a space behind it,
unless it is a head of ports. -/
theorem pauses_or_heads (state : State) : ∀ rule ∈ (table state).filter Rule.declares,
    rule.action ≠ some .portStart ∧ Pauses rule.pattern ∨
      rule.action = some .portStart ∧ ∃ lead tail, Heads rule.pattern lead tail := by
  cases state with
  | root => exact List.forall_mem_singleton.2 (.inl ⟨nofun, pauses_moduleStart⟩)
  | module =>
    exact List.forall_mem_cons.2
      ⟨.inl ⟨nofun, pauses_parameterHead⟩, List.forall_mem_singleton.2 (.inr ⟨rfl, _, _, .first⟩)⟩
  | parameters =>
    exact List.forall_mem_cons.2
      ⟨.inl ⟨nofun, pauses_furtherHead⟩,
        List.forall_mem_singleton.2 (.inl ⟨nofun, pauses_parameterItem⟩)⟩
  | modulePort =>
    exact List.forall_mem_cons.2
      ⟨.inr ⟨rfl, _, _, .further⟩, List.forall_mem_singleton.2 (.inl ⟨nofun, pauses_portName⟩)⟩
  | blockComment => exact nofun

theorem heads_of_starts {state : State} {rule : Rule} (listed : rule ∈ table state)
    (starts : rule.action = some .portStart) : ∃ lead tail, Heads rule.pattern lead tail := by
  have declares : rule.declares = true := by
    rw [Rule.declares, starts]
    rfl
  rcases pauses_or_heads state rule (List.mem_filter.2 ⟨listed, declares⟩) with
    ⟨other, _⟩ | ⟨_, heads⟩
  · exact (other starts).elim
  · exact heads

/-- A comma is never part of a match that leads into a module. -/
theorem comma_outside {state : State} {rule : Rule} {action : Action} (listed : rule ∈ table state)
    (means : rule.action = some action) (behind : action.behind? = some .module) :
    rule.pattern.mayTake ',' = false := by
  have all : ∀ rule ∈ table state,
      rule.action.bind Action.behind? = some .module → rule.pattern.mayTake ',' = false := by
    cases state <;> decide
  exact all rule listed (by rw [means]; exact behind)

/-- Blanks and what else is left out behind a head or a member of a list mean nothing here. -/
def Calm (state : State) (far : List Char) : Prop :=
  state = .parameters ∨ state = .modulePort ∨ state ≠ .blockComment ∧ ',' ∉ far

theorem Calm.ne_blockComment {state : State} {far : List Char} (calm : Calm state far) :
    state ≠ .blockComment := by
  rcases calm with rfl | rfl | ⟨plain, _⟩
  · nofun
  · nofun
  · exact plain

theorem Pattern.Told.parse_eq {said told told' far : List Char} (tells : Told said far told told')
    (trails : Trails far) :
    PortHead.parse (String.ofList told') = PortHead.parse (String.ofList told) := by
  cases tells with
  | alike => rfl
  | @further left more tail split gap same _ plain =>
    subst split same
    apply PortHead.parse_congr
    have all : Gap more := by
      obtain ⟨gap, all, same | same⟩ := trails.left
      · exact same ▸ all
      · simp [same] at plain
    have blank : Gap (' ' :: more) := List.forall_mem_cons.2 ⟨rfl, all⟩
    rw [String.toList_ofList, String.toList_ofList, trimBoth_append_gap blank,
      trimBoth_append_gap gap]

inductive Unnamed (said : List Char) : List Char → Prop where
  | intro {lead keyword : List Char} (blank : Gap lead)
      (listed : keyword ∈ Ansi.directions.map String.toList)
      (unnamed : (PortHead.parse (String.ofList said)).bind PortHead.name = none) :
      Unnamed said (lead ++ keyword ++ said)

/-- A name, which is a whole word and no direction, and what may be left out behind it. -/
inductive Names (name behind : List Char) : List Char → Prop where
  | intro {gap tail : List Char} (blank : Gap gap) (some : name ≠ [])
      (word : ∀ character ∈ name, isWord character = true)
      (free : name ∉ Ansi.directions.map String.toList) (trails : Trails tail)
      (whole : Ends isWord (tail ++ behind)) : Names name behind (gap ++ name ++ tail)

theorem ends_direction {keyword : List Char} (listed : keyword ∈ Ansi.directions.map String.toList)
    (rest : List Char) : Ends isBlank (keyword ++ rest) := by
  obtain ⟨some, word⟩ := directions_words keyword listed
  exact ends_word (fun _ => isWord_of_isBlank) some word rest

/-- No direction is the beginning of another one. -/
theorem direction_unique {keyword keyword' said said' : List Char}
    (listed : keyword ∈ Ansi.directions.map String.toList)
    (listed' : keyword' ∈ Ansi.directions.map String.toList)
    (same : keyword ++ said = keyword' ++ said') : said = said' := by
  have free : ∀ keyword ∈ Ansi.directions.map String.toList,
      ∀ keyword' ∈ Ansi.directions.map String.toList, keyword.isPrefixOf keyword' = true →
        keyword = keyword' := by decide
  have equal : keyword = keyword' := by
    rcases List.prefix_or_prefix_of_prefix (List.prefix_append keyword said)
      (same ▸ List.prefix_append keyword' said') with shorter | longer
    · exact free _ listed _ listed' (List.isPrefixOf_iff_prefix.2 shorter)
    · exact (free _ listed' _ listed (List.isPrefixOf_iff_prefix.2 longer)).symm
  rw [equal] at same
  exact List.append_cancel_left same

theorem Unnamed.said_eq {said said' lead keyword near : List Char} (head : Unnamed said near)
    (blank : Gap lead) (listed : keyword ∈ Ansi.directions.map String.toList)
    (split : near = lead ++ keyword ++ said') : said = said' := by
  obtain ⟨blank', listed', _⟩ := head
  rw [List.append_assoc, List.append_assoc] at split
  have same := run_unique split blank' blank (ends_direction listed' _) (ends_direction listed _)
  rw [same] at split
  exact direction_unique listed' listed (List.append_cancel_left split)

theorem Unnamed.parse_eq {said near : List Char} (head : Unnamed said near) :
    (PortHead.parse (String.ofList said)).bind PortHead.name = none := by
  obtain ⟨_, _, unnamed⟩ := head
  exact unnamed

theorem Text.isWord_of_soft {character : Char} (soft : soft character = true) :
    isWord character = false := by
  rw [Text.soft, Bool.or_eq_true, beq_iff_eq] at soft
  rcases soft with blank | rfl
  · exact isWord_of_isBlank blank
  · decide

/-- A name is more than what may be left out. -/
theorem Names.not_trails {name behind far : List Char} (names : Names name behind far) :
    ¬ Trails far := by
  intro trails
  obtain ⟨_, some, word, _⟩ := names
  obtain ⟨first, member⟩ := List.exists_mem_of_ne_nil _ some
  have plain := isWord_of_soft
    (trails.soft (List.mem_append_left _ (List.mem_append_right _ member)))
  rw [word first member] at plain
  contradiction

/-- What a head goes on with, if a name is behind the space. -/
theorem Text.Trails.exists_gap_behind {name tail more tail' gap : List Char} (some : name ≠ [])
    (word : ∀ character ∈ name, isWord character = true) (trails : Trails tail)
    (trails' : Trails tail') (plain : ',' ∉ more) (same : gap ++ name ++ tail = more ++ tail') :
    ∃ blank, more = gap ++ name ++ blank ∧ Gap blank := by
  rcases List.append_eq_append_iff.1 same with ⟨middle, rfl, rfl⟩ | ⟨middle, split, rfl⟩
  · refine ⟨middle, rfl, ?_⟩
    obtain ⟨blank, all, same | same⟩ := trails.left
    · exact same ▸ all
    · simp [same] at plain
  · -- the last character of the name would be a blank or a comma
    cases last : middle.getLast? with
    | none =>
      rw [List.getLast?_eq_none_iff.1 last, List.append_nil] at split
      exact ⟨[], by rw [split, List.append_nil], nofun⟩
    | some final =>
      have none := isWord_of_soft
        (trails'.soft (List.mem_append_left tail (List.mem_of_getLast? last)))
      have ends : (gap ++ name).getLast? = .some final := by
        rw [split, List.getLast?_append, last]
        rfl
      rw [List.getLast?_append_of_ne_nil _ some] at ends
      rw [word _ (List.mem_of_getLast? ends)] at none
      contradiction

/-- In front of the comment the head has no name; it has this one where it goes on. -/
theorem Pattern.Told.parse_named {said told told' far name behind : List Char}
    (tells : Told said far told told') (names : Names name behind far)
    (unnamed : (PortHead.parse (String.ofList said)).bind PortHead.name = none) :
    (PortHead.parse (String.ofList told)).bind PortHead.name = none ∧
      PortHead.parse (String.ofList told') = (PortHead.parse (String.ofList told)).map
        ({ · with name := String.ofList name }) := by
  cases tells with
  | alike trails => exact (names.not_trails trails).elim
  | @further left more tail split gap same trails plain =>
    obtain ⟨blank, some, word, _, trails', _⟩ := names
    obtain ⟨blank', rfl, all⟩ := trails'.exists_gap_behind some word trails plain same
    have apart (mark : Char) (other : isWord mark = false) : mark ∉ name := by
      intro member
      rw [word mark member] at other
      contradiction
    have solid : ∀ character ∈ name, isBlank character = false := by
      intro character member
      by_contra blank
      have plain := isWord_of_isBlank (by simpa using blank)
      rw [word character member] at plain
      contradiction
    have head : PortHead.parse (String.ofList said) = PortHead.parse (String.ofList told) := by
      apply PortHead.parse_congr
      rw [String.toList_ofList, String.toList_ofList, split, trimBoth_append_gap gap]
    have space : Gap (' ' :: _) := List.forall_mem_cons.2 ⟨rfl, blank⟩
    have whole := PortHead.parse_named unnamed space some solid (apart '[' (by decide))
      (apart ']' (by decide))
    rw [head] at unnamed whole
    refine ⟨unnamed, ?_⟩
    rw [← whole]
    apply PortHead.parse_congr
    rw [String.toList_append, String.toList_ofList, String.toList_ofList, String.toList_ofList,
      ← List.cons_append, ← List.cons_append, ← List.append_assoc said, trimBoth_append_gap all]

section

variable {token token' : Token} {name : String}

/-- A head that gets its name with it does what the head without it and the name do. -/
theorem openPorts_named (text text' : String) {keyword told told' : String}
    (groups : token.groups = [some keyword, some told])
    (groups' : token'.groups = [some keyword, some told'])
    (unnamed : (PortHead.parse told).bind PortHead.name = none)
    (head : PortHead.parse told' = (PortHead.parse told).map ({ · with name := name }))
    (assembly : Assembly) :
    (∃ next error error', assembly.openPorts text token = (next, some error) ∧
        assembly.openPorts text' token' = (next, some error') ∧ error'.kind = error.kind) ∨
      ∃ next, assembly.openPorts text token = (next, none) ∧
        assembly.openPorts text' token' = (next.addWaiting name, none) := by
  have said : token.group 0 = keyword ∧ token.group 1 = told := by
    rw [Token.group, Token.group, Token.group?, Token.group?, groups]
    exact ⟨rfl, rfl⟩
  have said' : token'.group 0 = keyword ∧ token'.group 1 = told' := by
    rw [Token.group, Token.group, Token.group?, Token.group?, groups']
    exact ⟨rfl, rfl⟩
  rw [Assembly.openPorts, Assembly.openPorts, said.1, said.2, said'.1, said'.2, head]
  cases parsed : PortHead.parse told with
  | none => exact .inl ⟨_, _, _, rfl, rfl, rfl⟩
  | some head =>
    rw [parsed] at unnamed
    have none : head.name = none := unnamed
    refine .inr ⟨assembly.settle.underHead keyword head, ?_, rfl⟩
    simp only [none]

end

variable {before comment after : String} {target scanner other next : Scanner} {lexeme : Lexeme}
  {near far : List Char}

def Facing.parting (facing : Facing before comment after target) : Parting where
  one := comment.toList ++ after.toList
  two := ' ' :: after.toList
  ended := by
    obtain ⟨more, opens⟩ := facing.opens
    simp [opens]
  words := by
    obtain ⟨more, opens⟩ := facing.opens
    rw [opens]
    rfl

/-- The scan of the text with a space takes the space in one match with what is on both sides of it;
that of the text with a comment still comes to the comment. -/
structure Crossing (before comment after : String) (target scanner other : Scanner) (lexeme : Lexeme)
    (next : Scanner) (near far : List Char) : Prop where
  facing : Facing before comment after target
  onward : scanner.Reaches table target
  reached : (Scanner.start (spaced before after)).Reaches table other
  rest : scanner.rest = near ++ (comment.toList ++ after.toList)
  rest' : other.rest = near ++ ' ' :: after.toList
  entered : other.entered = scanner.entered
  moved : other.step table = .moved lexeme next
  far : after.toList = far ++ next.rest
  plain : scanner.state ≠ .blockComment

namespace Crossing

variable (crossing : Crossing before comment after target scanner other lexeme next near far)
include crossing

theorem working : scanner.failed = false := crossing.onward.working crossing.facing.working

theorem state_eq : other.state = scanner.state := by
  rw [Scanner.state, Scanner.state, crossing.entered]

theorem nested : Nested other.entered := crossing.reached.nested .outside

/-- In front of blanks and the comment there is nothing to say. -/
theorem outlook_of_gap (line : '\n' ∉ comment.toList) (gap : Gap near) :
    other.outlook ParseError.kind (spaced before after) =
      scanner.outlook ParseError.kind (commented before comment after) := by
  have facing := crossing.facing
  have split : scanner.rest = near ++ target.rest := by rw [crossing.rest, facing.rest]
  obtain ⟨entered, onward⟩ := facing.of_gap ParseError.kind (commented before comment after)
    crossing.onward crossing.plain gap split
  rw [onward]
  exact facing.outlook_eq_of_gap line crossing.reached (Scanner.first_of_moved crossing.moved).1
    (crossing.entered.trans entered.symm) gap crossing.rest'

theorem exists_moved (some : ¬ Gap near) :
    ∃ lexeme' next', scanner.step table = .moved lexeme' next' ∧ next'.Reaches table target := by
  refine crossing.onward.exists_moved crossing.facing.working ?_
  rintro rfl
  have same := crossing.rest.symm.trans crossing.facing.rest
  rw [List.append_left_eq_self.1 same] at some
  exact some nofun

/-- The rule for the match with the space is tried in front of the comment, and no other one that is
tried there before it has a match. -/
theorem firstMatch_eq (some : ¬ Gap near)
    (first : firstMatch other.rest (table other.state) = .some (rule, found)) :
    rule.pattern.match? (near ++ crossing.facing.parting.two) = .some found ∧
      (∀ found', rule.pattern.match? (near ++ crossing.facing.parting.one) = .some found' →
        crossing.facing.parting.one.length ≤ found'.rest.length) ∧
      ∀ found', rule.pattern.match? (near ++ crossing.facing.parting.one) = .some found' →
        0 < found'.taken → firstMatch scanner.rest (table scanner.state) = .some (rule, found') := by
  have rest : scanner.rest = near ++ crossing.facing.parting.one := crossing.rest
  have stands : target.rest = crossing.facing.parting.one := crossing.facing.rest
  have stays : ¬ Crosses crossing.facing.parting.one
      (firstMatch (near ++ crossing.facing.parting.one) (table scanner.state)) := by
    obtain ⟨_, middle, moved, later⟩ := crossing.exists_moved some
    rw [← rest]
    exact Scanner.not_crosses_of_moved moved (stands ▸ later.onward.length_le)
  have first : firstMatch (near ++ crossing.facing.parting.two) (table scanner.state) =
      .some (rule, found) := by
    rw [← crossing.state_eq]
    exact crossing.rest' ▸ first
  obtain ⟨matched, before', after', _, same⟩ := firstMatch_of_stays first stays
  rw [same, firstMatch_cons] at stays
  refine ⟨matched, ?_, ?_⟩
  · intro found' matched'
    by_contra beyond
    have positive := taken_pos_of_length_lt matched' (by rw [List.length_append]; omega)
    rw [matched'] at stays
    simp only [positive, if_true] at stays
    exact stays ⟨rule, found', rfl, Nat.lt_of_not_le beyond⟩
  · intro found' matched' positive
    rw [rest, same, firstMatch_cons, matched']
    simp only [positive, if_true]

/-- The rule for the match across the space, which stops in front of the comment if it matches there. -/
theorem exists_rule (some : ¬ Gap near) :
    ∃ rule found, firstMatch other.rest (table other.state) = .some (rule, found) ∧
      rule.action = lexeme.action ∧ lexeme.groups = found.groups ∧ found.rest = next.rest ∧
      rule.pattern.match? (near ++ crossing.facing.parting.two) = .some found ∧
      ∀ found', rule.pattern.match? (near ++ crossing.facing.parting.one) = .some found' →
        crossing.facing.parting.one.length ≤ found'.rest.length := by
  obtain ⟨_, rule, found, _, first, _, same, same'⟩ := Scanner.first_of_moved crossing.moved
  obtain ⟨matched, stays, _⟩ := crossing.firstMatch_eq some first
  exact ⟨rule, found, first, by rw [same], by rw [same], by rw [same'], matched, stays⟩

/-- A match that stops at the comment or at blanks in front of it leads behind the comment, in the
same states as the match in the other text. -/
theorem exists_step (line : '\n' ∉ comment.toList) (some : ¬ Gap near)
    (plain : next.state ≠ .blockComment)
    (first : firstMatch other.rest (table other.state) = .some (rule, found))
    (matched : rule.pattern.match? (near ++ crossing.facing.parting.one) = .some other')
    (gap : Gap left) (stops : other'.rest = left ++ crossing.facing.parting.one) :
    ∃ lexeme' next', scanner.step table = .moved lexeme' next' ∧ lexeme'.action = lexeme.action ∧
      lexeme'.groups = other'.groups ∧ target.entered = next.entered ∧
      next'.outlook ParseError.kind (commented before comment after) =
        (resumed before after target).outlook ParseError.kind
          (spaced before after) := by
  obtain ⟨_, rule', found', entered, first', enters, same, same'⟩ :=
    Scanner.first_of_moved crossing.moved
  cases first.symm.trans first'
  have positive : 0 < other'.taken := by
    obtain ⟨taken, split, bytes⟩ := match?_splits matched
    rw [bytes]
    apply byteCount_pos
    rintro rfl
    rw [stops] at split
    rw [List.append_cancel_right split] at some
    exact some gap
  have first'' := (crossing.firstMatch_eq some first).2.2 other' matched positive
  rw [crossing.entered] at enters
  have moved := Scanner.step_of_first crossing.working first'' enters
  obtain ⟨_, _, moved', onward⟩ := crossing.exists_moved some
  cases moved.symm.trans moved'
  subst same same'
  have split : other'.rest = left ++ target.rest := by
    rw [stops, crossing.facing.rest]
    rfl
  obtain ⟨entered', same⟩ := crossing.facing.of_gap ParseError.kind (commented before comment after)
    onward plain gap split
  refine ⟨_, _, moved, rfl, rfl, entered', ?_⟩
  rw [same, crossing.facing.outlook_eq line]

theorem outlook_of_trails (calm : Calm next.state far) (trails : Trails far)
    (entered : target.entered = next.entered) :
    next.outlook ParseError.kind (spaced before after) =
      (resumed before after target).outlook ParseError.kind (spaced before after) := by
  have stands := stands_resumed before after target
  have split : (resumed before after target).rest = far ++ next.rest := crossing.far
  have same : (resumed before after target).past far next.rest = next :=
    ((crossing.reached.moved crossing.moved).stands).eq (stands.past split) rfl entered
      (Scanner.working_of_moved crossing.moved).symm
  have state : (resumed before after target).state = next.state := by
    rw [Scanner.state, Scanner.state, ← entered]
    rfl
  rw [Calm, ← state, ← or_assoc] at calm
  conv => lhs; rw [← same]
  rcases calm with list | ⟨plain, none⟩
  · exact (Scanner.outlook_trails _ rfl list trails split).symm
  · obtain ⟨gap, all, rfl | rfl⟩ := trails
    · exact (Scanner.outlook_gap _ rfl plain all split).symm
    · simp at none

theorem slashed : Slashed crossing.facing.parting far next.rest := by
  obtain ⟨more, opens⟩ := crossing.facing.opens
  refine ⟨?_, congrArg (' ' :: ·) crossing.far⟩
  show (comment.toList ++ after.toList).head? = some '/'
  rw [opens]
  rfl

theorem takes (first : firstMatch other.rest (table other.state) = some (rule, found)) :
    ∃ writes, rule.pattern.Takes none (near ++ ' ' :: far) next.rest writes := by
  obtain ⟨_, rule', found', _, first', _, _, same⟩ := Scanner.first_of_moved crossing.moved
  cases first.symm.trans first'
  have matched : rule.pattern.match? other.rest = some found := (firstMatch_eq_some first).2.1
  obtain ⟨taken, writes, split, _, takes, _⟩ := match?_takes matched
  have rest : found.rest = next.rest := by rw [same]
  rw [rest, crossing.rest', crossing.far, ← List.cons_append, ← List.append_assoc] at split
  rw [rest, ← List.append_cancel_right split] at takes
  exact ⟨writes, takes⟩

/-- Only a rule that leads to a list takes a comma. -/
theorem calm (first : firstMatch other.rest (table other.state) = some (rule, found))
    {action : Action} (means : rule.action = some action)
    (behind : action.behind? = some next.state) : Calm next.state far := by
  cases inside : next.state with
  | parameters => exact .inl rfl
  | modulePort => exact .inr (.inl rfl)
  | module =>
    refine .inr (.inr ⟨nofun, fun comma => ?_⟩)
    obtain ⟨writes, takes⟩ := crossing.takes first
    have none := comma_outside (firstMatch_eq_some first).1 means (inside ▸ behind)
    rw [takes.mayTake (by simp [comma])] at none
    contradiction
  | _ =>
    rw [inside] at behind
    cases action <;> cases behind

/-- A head or a member of a list that takes nothing of importance behind the space is the same in
front of the comment. -/
theorem outlook_eq_of_trails (line : '\n' ∉ comment.toList) (some : ¬ Gap near) {action : Action}
    {state : State} (means : lexeme.action = .some action) (behind : action.behind? = .some state)
    (trails : Trails far) :
    other.outlook ParseError.kind (spaced before after) =
      scanner.outlook ParseError.kind (commented before comment after) := by
  have shift := Scanner.shift_of_step crossing.nested crossing.moved
  rw [means] at shift
  cases shift.state_of_behind? behind
  obtain ⟨rule, found, first, same, groups, stands, matched, stays⟩ := crossing.exists_rule some
  have means' : rule.action = .some action := same.trans means
  have declares : rule.declares = true := by
    rw [Rule.declares, means']
    exact (congrArg Option.isSome behind).trans rfl
  have calm := crossing.calm first means' behind
  have plain : next.state ≠ .blockComment := calm.ne_blockComment
  have listed := (firstMatch_eq_some first).1
  rcases pauses_or_heads other.state rule (List.mem_filter.2 ⟨listed, declares⟩) with
    ⟨_, pauses⟩ | ⟨starts, lead, tail, heads⟩
  · obtain ⟨other', left, matched', gap, stops, alike⟩ :=
      pauses.match? crossing.slashed trails stays matched stands
    obtain ⟨lexeme', next', moved', action', groups', entered', onward⟩ :=
      crossing.exists_step line some plain first matched' gap stops
    exact Scanner.outlook_congr moved' crossing.moved action'.symm
      (Scanner.Effects.of_lexemes action'.symm (by rw [groups, groups', alike]))
      ((crossing.outlook_of_trails calm trails entered').trans onward.symm)
  · obtain ⟨other', left, _, keyword, said, told, told', matched', gap, stops, _, _, _, tells, alike,
      alike'⟩ := heads.match? some crossing.slashed stays matched stands
    obtain ⟨lexeme', next', moved', action', groups', entered', onward⟩ :=
      crossing.exists_step line some plain first matched' gap stops
    have starts : lexeme.action = .some .portStart := same.symm.trans starts
    exact Scanner.outlook_congr moved' crossing.moved action'.symm
      (Scanner.Effects.of_head_lexemes (action'.trans starts) starts (groups'.trans alike)
        (groups.trans alike') (tells.parse_eq trails))
      ((crossing.outlook_of_trails calm trails entered').trans onward.symm)

/-- Behind the comment a name is a port of its own. -/
theorem outlook_name (inside : next.state = .modulePort) (entered : target.entered = next.entered)
    {name : List Char} (names : Names name next.rest far) (assembly : Assembly) :
    (resumed before after target).outlook ParseError.kind (spaced before after) assembly =
      next.outlook ParseError.kind (spaced before after)
        (assembly.addWaiting (String.ofList name)) := by
  have stands := stands_resumed before after target
  have split := crossing.far
  obtain @⟨gap, tail, all, some, word, free, trails, whole⟩ := names
  have state : (resumed before after target).state = .modulePort := by
    rw [← inside, Scanner.state, Scanner.state, ← entered]
    rfl
  have plain : (resumed before after target).state ≠ .blockComment := by
    rw [state]
    decide
  have split : (resumed before after target).rest = gap ++ (name ++ (tail ++ next.rest)) := by
    rw [resumed, Scanner.between, split]
    simp only [List.append_assoc]
  have split' : ((resumed before after target).past gap
      (name ++ (tail ++ next.rest))).rest = name ++ tail ++ next.rest :=
    (List.append_assoc _ _ _).symm
  have here : ((resumed before after target).past gap
      (name ++ (tail ++ next.rest))).past (name ++ tail) next.rest = next :=
    ((crossing.reached.moved crossing.moved).stands).eq ((stands.past split).past split') rfl entered
      (Scanner.working_of_moved crossing.moved).symm
  rw [List.append_assoc] at split'
  have state' : ((resumed before after target).past gap (name ++ (tail ++ next.rest))).state =
      .modulePort := state
  rw [Scanner.outlook_gap _ rfl plain all split,
    Scanner.outlook_name _ rfl state' some word free trails whole split', here]

/-- A head that takes its name behind the space is followed by the name behind the comment. -/
theorem outlook_eq_of_name (line : '\n' ∉ comment.toList) (some : ¬ Gap near)
    (starts : lexeme.action = .some .portStart) {said name : List Char} (unnamed : Unnamed said near)
    (names : Names name next.rest far) :
    other.outlook ParseError.kind (spaced before after) =
      scanner.outlook ParseError.kind (commented before comment after) := by
  have shift := Scanner.shift_of_step crossing.nested crossing.moved
  rw [starts] at shift
  have inside : next.state = .modulePort := shift.state_of_behind? rfl
  have plain : next.state ≠ .blockComment := by
    rw [inside]
    nofun
  obtain ⟨rule, found, first, same, groups, stands, matched, stays⟩ := crossing.exists_rule some
  obtain ⟨lead, tail, heads⟩ :=
    heads_of_starts (firstMatch_eq_some first).1 (same.trans starts)
  obtain ⟨other', left, lead', keyword, said', told, told', matched', gap, stops, split, blank,
    listed, tells, alike, alike'⟩ := heads.match? some crossing.slashed stays matched stands
  cases unnamed.said_eq blank listed split
  obtain ⟨lexeme', next', moved', action', groups', entered', onward⟩ :=
    crossing.exists_step line some plain first matched' gap stops
  obtain ⟨none, head⟩ := tells.parse_named names unnamed.parse_eq
  obtain ⟨token, meant, action, same⟩ := lexeme'.exists_token (action'.trans starts)
  obtain ⟨token', meant', action', same'⟩ := lexeme.exists_token starts
  have opened := openPorts_named (commented before comment after) (spaced before after)
    (same.trans (groups'.trans alike)) (same'.trans (groups.trans alike')) none head
  funext assembly
  rw [Scanner.outlook_of_token moved' meant, Scanner.outlook_of_token crossing.moved meant',
    Assembly.apply, Assembly.apply, action, action']
  rcases opened assembly with ⟨next, error, error', opens, opens', kind⟩ | ⟨next, opens, opens'⟩
  · rw [opens, opens']
    exact congrArg Except.error kind
  · rw [opens, opens', onward]
    exact (crossing.outlook_name inside entered' names next).symm

end Crossing

end VerilogInterface
