import VerilogInterface.Proofs.Partings
import VerilogInterface.Proofs.Scanning

/-! What comes of going on from some point of a scan. It depends on what remains of the text and on
the states entered, and on what came before only for the lines of errors. So the outcomes of two
texts that are the same at the end can be compared from the end backwards. -/

namespace VerilogInterface

open Text Verilog

namespace ParseError

inductive Kind where
  | lexical
  | stateUnderflow
  | unmatchedEndif
  | unterminatedGuard
  | unknownPortFormat
deriving DecidableEq, Repr

def kind : ParseError → Kind
  | .lexical .. => .lexical
  | .stateUnderflow .. => .stateUnderflow
  | .unmatchedEndif .. => .unmatchedEndif
  | .unterminatedGuard .. => .unterminatedGuard
  | .unknownPortFormat .. => .unknownPortFormat

def line : ParseError → Nat
  | .lexical _ _ line | .stateUnderflow _ line | .unmatchedEndif line
  | .unterminatedGuard _ line | .unknownPortFormat _ _ line => line

def located (error : ParseError) : Kind × Nat := (error.kind, error.line)

end ParseError

variable {shown : Type} {view : ParseError → shown} {text text' : String}
  {scanner after other after' : Scanner} {lexeme lexeme' : Lexeme} {token token' : Token}

theorem Lexeme.exists_token {action : Action} (lexeme : Lexeme) (means : lexeme.action = some action) :
    ∃ token, lexeme.token? = some token ∧ token.action = action ∧ token.groups = lexeme.groups :=
  ⟨_, congrArg (Option.map _) means, rfl, rfl⟩

namespace Scanner

/-- What comes of going on from here with what has been put together before. Errors are viewed from
as far as the comparison needs. -/
def outlook (view : ParseError → shown) (text : String) (scanner : Scanner) (assembly : Assembly) :
    Except shown (List Module) :=
  (assembly.read text scanner).mapError view

theorem outlook_start (view : ParseError → shown) (text : String) :
    (start text).outlook view text {} = (parse text).mapError view := rfl

theorem outlook_of_ended (ended : scanner.step table = .ended) :
    scanner.outlook view text = fun assembly => (assembly.finish text).mapError view := by
  funext assembly
  obtain ⟨none, complete⟩ := tokens_of_ended ended
  rw [outlook, Assembly.read_eq_run, none, complete]
  rfl

theorem outlook_of_stopped {error : ScanError} (stopped : scanner.step table = .stopped error after) :
    scanner.outlook view text = fun _ => .error (view (error.within text)) := by
  funext assembly
  obtain ⟨none, failure⟩ := tokens_of_stopped stopped
  rw [outlook, Assembly.read_eq_run, none, failure]
  rfl

theorem outlook_of_silent (moved : scanner.step table = .moved lexeme after)
    (silent : lexeme.action = none) : scanner.outlook view text = after.outlook view text := by
  funext assembly
  obtain ⟨same, onward⟩ := tokens_of_moved moved
  rw [Lexeme.token?, silent, Option.map_none, Option.toList_none, List.nil_append] at same
  rw [outlook, outlook, Assembly.read_eq_run, Assembly.read_eq_run, same, onward]

theorem outlook_of_token (moved : scanner.step table = .moved lexeme after)
    (meant : lexeme.token? = some token) (assembly : Assembly) :
    scanner.outlook view text assembly =
      match assembly.apply text token with
      | (_, some error) => .error (view error)
      | (next, none) => after.outlook view text next := by
  obtain ⟨first, onward⟩ := tokens_of_moved moved
  rw [meant, Option.toList_some, List.singleton_append] at first
  rw [outlook, Assembly.read_eq_run, first, onward]
  obtain ⟨⟨next, error⟩, taken⟩ : ∃ result, assembly.apply text token = result := ⟨_, rfl⟩
  rw [taken]
  cases error with
  | none =>
    rw [Assembly.run_cons_of_ok _ taken, ← Assembly.read_eq_run]
    rfl
  | some error =>
    rw [Assembly.run_cons_of_error _ taken]
    rfl

/-- Two tokens do the same to every assembly, up to the view of errors. -/
def Effects (view : ParseError → shown) (text text' : String) (token token' : Token) : Prop :=
  ∀ assembly : Assembly,
    (assembly.apply text' token').1 = (assembly.apply text token).1 ∧
      (assembly.apply text' token').2.map view = (assembly.apply text token).2.map view

theorem outlook_congr (moved : scanner.step table = .moved lexeme after)
    (moved' : other.step table = .moved lexeme' after') (action : lexeme'.action = lexeme.action)
    (effects : ∀ token ∈ lexeme.token?, ∀ token' ∈ lexeme'.token?,
      Effects view text text' token token')
    (onward : after'.outlook view text' = after.outlook view text) :
    other.outlook view text' = scanner.outlook view text := by
  cases meant : lexeme.token? with
  | none =>
    have silent : lexeme.action = none := Option.map_eq_none_iff.1 meant
    rw [outlook_of_silent moved silent, outlook_of_silent moved' (action.trans silent), onward]
  | some token =>
    obtain ⟨token', meant'⟩ : ∃ token', lexeme'.token? = some token' := by
      obtain ⟨meaning, means, _⟩ := Option.map_eq_some_iff.1 meant
      exact ⟨_, by rw [Lexeme.token?, action, means, Option.map_some]⟩
    funext assembly
    obtain ⟨next, refusal⟩ := effects token meant token' meant' assembly
    rw [outlook_of_token moved meant, outlook_of_token moved' meant', onward]
    generalize assembly.apply text token = one at next refusal ⊢
    generalize assembly.apply text' token' = two at next refusal ⊢
    obtain ⟨one, error⟩ := one
    obtain ⟨two, error'⟩ := two
    cases next
    have refusal : error'.map view = error.map view := refusal
    cases error with
    | none =>
      cases Option.map_eq_none_iff.1 refusal
      rfl
    | some error =>
      obtain ⟨_, rfl, seen⟩ := Option.map_eq_some_iff.1 refusal
      exact congrArg Except.error seen

/-- A token says the same on the same line. -/
theorem Effects.of_line (view : ParseError → shown) (action : token'.action = token.action)
    (groups : token'.groups = token.groups)
    (line : lineAt text' token'.offset = lineAt text token.offset) :
    Effects view text text' token token' := by
  intro assembly
  rw [Assembly.apply_congr action groups line]
  exact ⟨rfl, rfl⟩

/-- Two heads of port lists do the same if they are read the same, up to where errors point. -/
theorem Effects.of_head (action : token.action = .portStart) (action' : token'.action = .portStart)
    (keyword : token'.group 0 = token.group 0)
    (head : PortHead.parse (token'.group 1) = PortHead.parse (token.group 1)) :
    Effects ParseError.kind text text' token token' := by
  intro assembly
  simp only [Assembly.apply, action, action', Assembly.openPorts, keyword, head]
  cases PortHead.parse (token.group 1) with
  | none => exact ⟨rfl, rfl⟩
  | some head => cases head.name <;> exact ⟨rfl, rfl⟩

/-- Tokens that say the same do the same, up to where errors point. -/
theorem Effects.of_groups (action : token'.action = token.action)
    (groups : token'.groups = token.groups) : Effects ParseError.kind text text' token token' := by
  by_cases opens : token.action = .portStart
  · exact .of_head opens (action.trans opens) (Token.group_congr groups 0)
      (congrArg PortHead.parse (Token.group_congr groups 1))
  · intro assembly
    simp only [Assembly.apply, action, Token.group_congr groups, Token.group?_congr groups,
      Assembly.closeModule]
    cases meaning : token.action
    case portStart => exact (opens meaning).elim
    case guardExit => cases assembly.guards <;> exact ⟨rfl, rfl⟩
    case moduleEnd => cases assembly.guards <;> exact ⟨rfl, rfl⟩
    all_goals exact ⟨rfl, rfl⟩

theorem Effects.of_lexemes (action : lexeme'.action = lexeme.action)
    (groups : lexeme'.groups = lexeme.groups) :
    ∀ token ∈ lexeme.token?, ∀ token' ∈ lexeme'.token?,
      Effects ParseError.kind text text' token token' := by
  intro token meant token' meant'
  obtain ⟨meaning, means, rfl⟩ := Option.map_eq_some_iff.1 meant
  obtain ⟨meaning', means', rfl⟩ := Option.map_eq_some_iff.1 meant'
  exact .of_groups (Option.some.inj (means'.symm.trans (action.trans means))) groups

theorem Effects.of_head_lexemes {keyword told told' : String}
    (starts : lexeme.action = some .portStart) (starts' : lexeme'.action = some .portStart)
    (groups : lexeme.groups = [some keyword, some told])
    (groups' : lexeme'.groups = [some keyword, some told'])
    (head : PortHead.parse told' = PortHead.parse told) :
    ∀ token ∈ lexeme.token?, ∀ token' ∈ lexeme'.token?,
      Effects ParseError.kind text text' token token' := by
  intro token meant token' meant'
  rw [Lexeme.token?, starts, groups] at meant
  rw [Lexeme.token?, starts', groups'] at meant'
  cases meant
  cases meant'
  exact .of_head rfl rfl rfl head

/-- The scans stand in front of the same characters, with as many line breaks behind them. -/
structure Resumes (text text' : String) (scanner other : Scanner) : Prop where
  rest : other.rest = scanner.rest
  entered : other.entered = scanner.entered
  failed : other.failed = scanner.failed
  passed : ∃ passed passed', text.toList = passed ++ scanner.rest ∧
    text'.toList = passed' ++ scanner.rest ∧ scanner.position = byteCount passed ∧
    other.position = byteCount passed' ∧ passed'.count '\n' = passed.count '\n'

namespace Resumes

variable (resumes : Resumes text text' scanner other)
include resumes

theorem lineAt_eq : lineAt text' other.position = lineAt text scanner.position := by
  obtain ⟨passed, passed', split, split', place, place', breaks⟩ := resumes.passed
  rw [place, place', lineAt_byteCount split, lineAt_byteCount split', breaks]

theorem state_eq : other.state = scanner.state := by
  rw [state, state, resumes.entered]

theorem moved (moved : scanner.step table = .moved lexeme after) :
    ∃ lexeme' after', other.step table = .moved lexeme' after' ∧ Resumes text text' after after' ∧
      lexeme'.action = lexeme.action ∧ lexeme'.groups = lexeme.groups ∧
      lexeme.offset = scanner.position ∧ lexeme'.offset = other.position := by
  obtain ⟨working, rule, matched, entered, first, enters, rfl, rfl⟩ := first_of_moved moved
  rw [← resumes.rest, ← resumes.state_eq] at first
  rw [← resumes.entered] at enters
  have moved' := step_of_first (resumes.failed.trans working) first enters
  obtain ⟨passed, passed', split, split', place, place', breaks⟩ := resumes.passed
  obtain ⟨taken, onward, bytes⟩ := Pattern.match?_splits (firstMatch_eq_some first).2.1
  rw [resumes.rest] at onward
  refine ⟨_, _, moved', ⟨rfl, rfl, resumes.failed, passed ++ taken, passed' ++ taken, ?_, ?_, ?_,
    ?_, ?_⟩, rfl, rfl, rfl, rfl⟩
  · rw [split, onward, List.append_assoc]
  · rw [split', onward, List.append_assoc]
  · rw [byteCount_append, ← place, ← bytes]
  · rw [byteCount_append, ← place', ← bytes]
  · rw [List.count_append, List.count_append, breaks]

theorem symm : Resumes text' text other scanner := by
  obtain ⟨passed, passed', split, split', place, place', breaks⟩ := resumes.passed
  refine ⟨resumes.rest.symm, resumes.entered.symm, resumes.failed.symm, passed', passed, ?_, ?_,
    place', place, breaks.symm⟩
  · rw [resumes.rest]
    exact split'
  · rw [resumes.rest]
    exact split

theorem ended (ended : scanner.step table = .ended) : other.step table = .ended := by
  rw [step_eq_ended] at ended ⊢
  rwa [resumes.failed, resumes.rest]

theorem stopped {error : ScanError} (stopped : scanner.step table = .stopped error after) :
    ∃ error' after', other.step table = .stopped error' after' ∧
      (error'.within text').located = (error.within text).located := by
  have line := resumes.lineAt_eq
  cases found : other.step table with
  | ended => cases stopped.symm.trans (resumes.symm.ended found)
  | moved lexeme' after' =>
    obtain ⟨_, _, moved, _⟩ := resumes.symm.moved found
    cases stopped.symm.trans moved
  | stopped error' after' =>
    refine ⟨error', after', rfl, ?_⟩
    obtain ⟨_, _, ⟨none, rfl, _⟩ | ⟨_, _, first, _, rfl, _⟩⟩ := first_of_stopped stopped
    all_goals
      rw [← resumes.rest, ← resumes.state_eq] at *
      obtain ⟨_, _, ⟨none', rfl, _⟩ | ⟨_, _, first', _, rfl, _⟩⟩ := first_of_stopped found
    · simp only [ScanError.within, ParseError.located, ParseError.kind, ParseError.line, line]
    · cases none.symm.trans first'
    · cases none'.symm.trans first
    · simp only [ScanError.within, ParseError.located, ParseError.kind, ParseError.line, line]

theorem finish_eq (assembly : Assembly) : assembly.finish text' = assembly.finish text := by
  obtain ⟨passed, passed', split, split', _, _, breaks⟩ := resumes.passed
  have last (text : String) : lineAt text text.utf8ByteSize = 1 + text.toList.count '\n' := by
    rw [← byteCount_toList]
    exact lineAt_byteCount (List.append_nil _).symm
  rw [Assembly.finish, Assembly.finish, last, last, split, split', List.count_append,
    List.count_append, breaks]

omit resumes in
/-- Going on depends on nothing but what remains, the states, and the line. -/
theorem outlook_eq (resumes : Resumes text text' scanner other) :
    other.outlook ParseError.located text' = scanner.outlook ParseError.located text := by
  induction scanner using scan_induction generalizing other with
  | ended scanner found =>
    rw [outlook_of_ended found, outlook_of_ended (resumes.ended found)]
    simp only [resumes.finish_eq]
  | stopped scanner error after found =>
    obtain ⟨error', after', found', same⟩ := resumes.stopped found
    rw [outlook_of_stopped found, outlook_of_stopped found', same]
  | moved scanner lexeme after found ih =>
    obtain ⟨lexeme', after', found', onward, action, groups, place, place'⟩ := resumes.moved found
    refine outlook_congr found found' action ?_ (ih onward)
    intro token meant token' meant'
    obtain ⟨meaning, means, rfl⟩ := Option.map_eq_some_iff.1 meant
    obtain ⟨meaning', means', rfl⟩ := Option.map_eq_some_iff.1 meant'
    refine .of_line _ ?_ groups ?_
    · exact Option.some.inj (means'.symm.trans (action.trans means))
    · show lineAt text' lexeme'.offset = lineAt text lexeme.offset
      rw [place, place', resumes.lineAt_eq]

end Resumes

/-- A scan that moves and has the rest still before it has not gone beyond its beginning. -/
theorem not_crosses_of_moved {rest : List Char} (moved : scanner.step table = .moved lexeme after)
    (stays : rest.length ≤ after.rest.length) :
    ¬ Crosses rest (firstMatch scanner.rest (table scanner.state)) := by
  rintro ⟨_, _, first, less⟩
  obtain ⟨_, _, _, _, first', _, _, rfl⟩ := first_of_moved moved
  cases first.symm.trans first'
  exact Nat.not_lt_of_le stays less

/-- The scans stand at the same offset in the same states, in front of the same characters up to
where the texts part. -/
structure Abeam (parting : Parting) (scanner other : Scanner) : Prop where
  rest : ∃ front, scanner.rest = front ++ parting.one ∧ other.rest = front ++ parting.two
  position : other.position = scanner.position
  entered : other.entered = scanner.entered
  failed : other.failed = scanner.failed

namespace Abeam

variable {parting : Parting} {target : Scanner} {whole : List Char}

theorem state_eq (abeam : Abeam parting scanner other) : other.state = scanner.state := by
  rw [state, state, abeam.entered]

/-- A step that stays in front of the parting is the same in the other text, unless the first match
there goes beyond. -/
theorem moved (abeam : Abeam parting scanner other)
    (moved : scanner.step table = .moved lexeme after)
    (stays : parting.one.length ≤ after.rest.length) :
    (∃ after', other.step table = .moved lexeme after' ∧ Abeam parting after after') ∨
      Crosses parting.two (firstMatch other.rest (table other.state)) := by
  obtain ⟨working, rule, matched, entered, first, enters, rfl, rfl⟩ := first_of_moved moved
  obtain ⟨front, rest, rest'⟩ := abeam.rest
  rw [abeam.state_eq, rest']
  rw [rest] at first
  rcases firstMatch_beside (table scanner.state) parting front with same | crosses | crosses
  · rw [first] at same
    generalize first' : firstMatch (front ++ parting.two) (table scanner.state) = two at same
    cases same with
    | @some _ second both =>
      obtain ⟨rule', matched'⟩ := second
      obtain ⟨same, beside⟩ := both
      cases same
      rw [← rest', ← abeam.state_eq] at first'
      rw [← abeam.entered] at enters
      have moved' := step_of_first (abeam.failed.trans working) first' enters
      rw [abeam.state_eq, abeam.position, beside.taken, beside.groups] at moved'
      exact .inl ⟨_, moved', ⟨beside.rest, rfl, rfl, abeam.failed⟩⟩
  · obtain ⟨_, _, same, less⟩ := crosses
    cases first.symm.trans same
    exact absurd stays (Nat.not_le_of_lt less)
  · exact .inr crosses

/-- The scans are on the same line. -/
theorem lineAt_eq (abeam : Abeam parting scanner other) (split : text.toList = whole ++ parting.one)
    (split' : text'.toList = whole ++ parting.two) (reached : (start text).Reaches table scanner)
    (reached' : (start text').Reaches table other) :
    lineAt text' scanner.position = lineAt text scanner.position := by
  obtain ⟨front, rest, rest'⟩ := abeam.rest
  obtain ⟨passed, here, place⟩ := reached.stands
  obtain ⟨passed', here', _⟩ := reached'.stands
  have same : passed ++ front = whole := by
    rw [split, rest, ← List.append_assoc] at here
    exact (List.append_cancel_right here).symm
  have same' : passed' ++ front = whole := by
    rw [split', rest', ← List.append_assoc] at here'
    exact (List.append_cancel_right here').symm
  cases List.append_cancel_right (same.trans same'.symm)
  rw [place, lineAt_byteCount here, lineAt_byteCount here']

/-- Two texts that are the same up to a place which the scan of the one comes to: if they yield the
same from there, and from wherever the other scan passes over that place, they yield the same. -/
theorem outlook_eq (abeam : Abeam parting scanner other) (split : text.toList = whole ++ parting.one)
    (split' : text'.toList = whole ++ parting.two) (reached : (start text).Reaches table scanner)
    (reached' : (start text').Reaches table other) (onward : scanner.Reaches table target)
    (working : target.failed = false) (stands : target.rest = parting.one)
    (base : ∀ other, (start text').Reaches table other → Abeam parting target other →
      other.outlook view text' = target.outlook view text)
    (crossing : ∀ scanner other, scanner.Reaches table target → (start text').Reaches table other →
      Abeam parting scanner other → parting.two.length < other.rest.length →
      Crosses parting.two (firstMatch other.rest (table other.state)) →
      other.outlook view text' = scanner.outlook view text) :
    other.outlook view text' = scanner.outlook view text := by
  induction onward using Reaches.head_induction generalizing other with
  | working => exact working
  | here => exact base other reached' abeam
  | @moved scanner after lexeme found later ih =>
    have stays : parting.one.length ≤ after.rest.length := stands ▸ later.onward.length_le
    rcases abeam.moved found stays with ⟨after', found', abeam'⟩ | crosses
    · refine outlook_congr found found' rfl ?_
        (ih abeam' (reached.moved found) (reached'.moved found'))
      intro token meant token' meant'
      cases meant.symm.trans meant'
      obtain ⟨meaning, _, rfl⟩ := Option.map_eq_some_iff.1 meant
      refine .of_line _ rfl rfl ?_
      rw [(onward_of_moved found).2.1]
      exact abeam.lineAt_eq split split' reached reached'
    · refine crossing scanner other (.trans (.moved .here found) later) reached' abeam ?_ crosses
      have fewer := length_rest_lt_of_step found
      obtain ⟨front, rest, rest'⟩ := abeam.rest
      rw [rest, List.length_append] at fewer
      rw [rest', List.length_append]
      omega

end Abeam

end Scanner

/-- The outcomes of two texts that are the same up to a place which the scan of the one comes to. -/
theorem parse_parted {parting : Parting} {whole : List Char} {target : Scanner}
    (split : text.toList = whole ++ parting.one) (split' : text'.toList = whole ++ parting.two)
    (reached : (Scanner.start text).Reaches table target) (working : target.failed = false)
    (stands : target.rest = parting.one)
    (base : ∀ other : Scanner, (Scanner.start text').Reaches table other →
      target.Abeam parting other → other.outlook view text' = target.outlook view text)
    (crossing : ∀ scanner other : Scanner, scanner.Reaches table target →
      (Scanner.start text').Reaches table other → scanner.Abeam parting other →
      parting.two.length < other.rest.length →
      Crosses parting.two (firstMatch other.rest (table other.state)) →
      other.outlook view text' = scanner.outlook view text) :
    (parse text').mapError view = (parse text).mapError view := by
  have abeam : (Scanner.start text).Abeam parting (.start text') :=
    ⟨⟨whole, split, split'⟩, rfl, rfl, rfl⟩
  have same := abeam.outlook_eq split split' .here .here reached working stands base crossing
  rw [← Scanner.outlook_start, ← Scanner.outlook_start, same]

end VerilogInterface
