import VerilogInterface.Proofs.Relocation
import VerilogInterface.Proofs.ReturnedRules
import VerilogInterface.Proofs.TokenSteps
import VerilogInterface.Proofs.Words

/-! A text with carriage returns in front of its line breaks. Where no captured text goes on over a
line break it has the same tokens on the same lines, and so the same modules or the same error. -/

namespace VerilogInterface

open Text Pattern

namespace Text

def withReturns (text : String) : String := String.ofList (crlf text.toList)

theorem crlf_eq_self {characters : List Char} (inLine : '\n' ∉ characters) :
    crlf characters = characters := by
  induction characters with
  | nil => rfl
  | cons character rest ih =>
    obtain ⟨here, later⟩ := List.ne_and_not_mem_of_not_mem_cons inLine
    rw [crlf_cons (Ne.symm here), ih later]

theorem count_crlf (characters : List Char) :
    (crlf characters).count '\n' = characters.count '\n' := by
  induction characters with
  | nil => rfl
  | cons character rest ih =>
    rw [crlf]
    split
    · next lineBreak =>
      subst lineBreak
      simp [ih]
    · simp [List.count_cons, ih]

/-- What stands at one offset of a text stands at the other with carriage returns in it. -/
def Moved (text : String) (offset other : Nat) : Prop :=
  ∃ passed rest, text.toList = passed ++ rest ∧ offset = byteCount passed ∧
    other = byteCount (crlf passed)

theorem Moved.lineAt {text : String} {offset other : Nat} (moved : Moved text offset other) :
    lineAt (withReturns text) other = lineAt text offset := by
  obtain ⟨passed, rest, split, rfl, rfl⟩ := moved
  have split' : (withReturns text).toList = crlf passed ++ crlf rest := by
    rw [withReturns, String.toList_ofList, split, crlf_append]
  rw [lineAt_byteCount split, lineAt_byteCount split', count_crlf]

theorem byteCount_crlf (characters : List Char) :
    byteCount (crlf characters) = byteCount characters + characters.count '\n' := by
  induction characters with
  | nil => rfl
  | cons character rest ih =>
    rw [crlf]
    split
    · next lineBreak =>
      subst lineBreak
      have width : '\r'.utf8Size = 1 := by decide
      rw [byteCount, byteCount, byteCount, ih, List.count_cons_self, width]
      omega
    · next other =>
      rw [byteCount, byteCount, ih, List.count_cons_of_ne other, Nat.add_assoc]

theorem Moved.offset {text : String} {offset other : Nat} (moved : Moved text offset other) :
    other = offset + (Text.lineAt text offset - 1) := by
  obtain ⟨passed, rest, split, rfl, rfl⟩ := moved
  rw [lineAt_byteCount split, byteCount_crlf, Nat.add_sub_cancel_left]

theorem trimBoth_return (characters : List Char) :
    trimBoth (characters ++ ['\r']) = trimBoth characters :=
  trimBoth_append_gap (List.forall_mem_singleton.2 rfl) characters

end Text

variable {text : String} {characters : List Char}

theorem firstMatch_returns {rules : List Rule} (all : ∀ rule ∈ rules, rule.Returns characters) :
    Option.Rel (fun first other => other.1 = first.1 ∧
        Returned (Recaptured (first.1.action = some .documentation)) characters first.2 other.2)
      (firstMatch characters rules) (firstMatch (crlf characters) rules) ∨
    ∃ rule found, firstMatch characters rules = some (rule, found) ∧ rule.Strays found := by
  induction rules with
  | nil => exact .inl .none
  | cons rule rules ih =>
    obtain ⟨here, later⟩ := List.forall_mem_cons.1 all
    rw [firstMatch_cons, firstMatch_cons]
    rcases here with alike | ⟨found, matched, strays⟩
    · generalize rule.pattern.match? characters = one at alike
      generalize rule.pattern.match? (crlf characters) = two at alike
      cases alike with
      | none => exact ih later
      | @some found other returned =>
        have nonempty : 0 < other.taken ↔ 0 < found.taken := by
          obtain ⟨taken, _, bytes, bytes'⟩ := returned.taken
          rw [bytes, bytes', byteCount_pos_iff, byteCount_pos_iff, Ne, crlf_eq_nil_iff]
        simp only [nonempty]
        split
        · exact .inl (.some ⟨rfl, returned⟩)
        · exact ih later
    · refine .inr ⟨rule, found, ?_, strays⟩
      simp only [matched]
      rw [if_pos strays.2.2.1]

structure Scanner.Abreast (text : String) (scanner other : Scanner) : Prop where
  passed : ∃ passed, text.toList = passed ++ scanner.rest ∧ scanner.position = byteCount passed ∧
    other.position = byteCount (crlf passed)
  rest : other.rest = crlf scanner.rest
  entered : other.entered = scanner.entered
  failed : other.failed = scanner.failed

structure Lexeme.Rewritten (text : String) (lexeme other : Lexeme) : Prop where
  action : other.action = lexeme.action
  offset : Moved text lexeme.offset other.offset
  groups : List.Forall₂ (Option.Rel (Recaptured (lexeme.action = some .documentation)))
    lexeme.groups other.groups

inductive ScanError.Rewritten (text : String) : ScanError → ScanError → Prop where
  | noRule {state : State} {offset other : Nat} (moved : Moved text offset other) :
      Rewritten text (.noRule state offset) (.noRule state other)
  | underflow {offset other : Nat} (moved : Moved text offset other) :
      Rewritten text (.underflow offset) (.underflow other)

inductive Scanner.Step.Rewritten (text : String) : Scanner.Step → Scanner.Step → Prop where
  | ended : Rewritten text .ended .ended
  | moved {lexeme lexeme' : Lexeme} {after after' : Scanner}
      (lexemes : lexeme.Rewritten text lexeme') (abreast : after.Abreast text after') :
      Rewritten text (.moved lexeme after) (.moved lexeme' after')
  | stopped {error error' : ScanError} {after after' : Scanner}
      (errors : error.Rewritten text error') :
      Rewritten text (.stopped error after) (.stopped error' after')

namespace Scanner

variable {scanner other : Scanner}

theorem Abreast.offset (abreast : scanner.Abreast text other) :
    Moved text scanner.position other.position := by
  obtain ⟨passed, split, position, position'⟩ := abreast.passed
  exact ⟨passed, _, split, position, position'⟩

theorem Abreast.onward {same : String → String → Prop} (abreast : scanner.Abreast text other)
    {found found' : Match} (returned : Returned same scanner.rest found found')
    (entered : List State) :
    Abreast text
      { scanner with
        rest := found.rest, position := scanner.position + found.taken, entered }
      { other with
        rest := found'.rest, position := other.position + found'.taken, entered } := by
  obtain ⟨passed, split, position, position'⟩ := abreast.passed
  obtain ⟨taken, onward, bytes, bytes'⟩ := returned.taken
  refine ⟨⟨passed ++ taken, ?_, ?_, ?_⟩, returned.rest, rfl, abreast.failed⟩
  · rw [split, onward, List.append_assoc]
  · rw [byteCount_append, ← position, ← bytes]
  · rw [crlf_append, byteCount_append, ← position', ← bytes']

theorem Abreast.follow (abreast : scanner.Abreast text other) {rule : Rule} {found found' : Match}
    (returned : Returned (Recaptured (rule.action = some .documentation)) scanner.rest found
      found') :
    Step.Rewritten text (scanner.follow rule found) (other.follow rule found') := by
  have later := abreast.onward returned
  rw [Scanner.follow, Scanner.follow]
  cases rule.transition with
  | none =>
    have same := later scanner.entered
    rw [abreast.entered]
    exact .moved ⟨rfl, abreast.offset, returned.groups⟩ same
  | some transition =>
    cases transition with
    | push state =>
      rw [abreast.entered]
      exact .moved ⟨rfl, abreast.offset, returned.groups⟩ (later _)
    | pop =>
      rw [abreast.entered]
      cases scanner.entered with
      | nil => exact .stopped (.underflow abreast.offset)
      | cons state outer => exact .moved ⟨rfl, abreast.offset, returned.groups⟩ (later outer)

theorem follow_of_stays (scanner : Scanner) {rule : Rule} (stays : rule.transition ≠ some .pop)
    (found : Match) :
    ∃ after, scanner.follow rule found = .moved
      { state := scanner.state, action := rule.action, groups := found.groups,
        offset := scanner.position, stop := scanner.position + found.taken } after := by
  rw [Scanner.follow]
  cases transition : rule.transition with
  | none => exact ⟨_, rfl⟩
  | some change =>
    cases change with
    | push state => exact ⟨_, rfl⟩
    | pop => exact (stays transition).elim

/-- A step does the same in both texts, unless it captures a line break. -/
theorem Abreast.step (abreast : scanner.Abreast text other) :
    Step.Rewritten text (scanner.step Verilog.table) (other.step Verilog.table) ∨
      ∃ lexeme after group, scanner.step Verilog.table = .moved lexeme after ∧
        lexeme.action.isSome = true ∧ some group ∈ lexeme.groups ∧ '\n' ∈ group.toList := by
  have ended : other.rest.isEmpty = scanner.rest.isEmpty := by
    rw [abreast.rest, Bool.eq_iff_iff, List.isEmpty_iff, List.isEmpty_iff, crlf_eq_nil_iff]
  have state : other.state = scanner.state := by rw [Scanner.state, Scanner.state, abreast.entered]
  rw [Scanner.step, Scanner.step, abreast.failed, ended, state]
  split
  · exact .inl .ended
  · rw [abreast.rest]
    rcases firstMatch_returns (table_returns scanner.state) with
      alike | ⟨rule, found, first, means, stays, _, group, member, lineBreak⟩
    · refine .inl ?_
      generalize firstMatch scanner.rest (Verilog.table scanner.state) = one at alike ⊢
      generalize firstMatch (crlf scanner.rest) (Verilog.table scanner.state) = two at alike ⊢
      cases alike with
      | none => exact .stopped (.noRule abreast.offset)
      | @some first second both =>
        obtain ⟨rule, found⟩ := first
        obtain ⟨_, found'⟩ := second
        obtain ⟨rfl, returned⟩ := both
        exact abreast.follow returned
    · refine .inr ?_
      rw [first]
      obtain ⟨after, moves⟩ := scanner.follow_of_stays stays found
      exact ⟨_, after, group, moves, means, member, lineBreak⟩

end Scanner

structure Token.Rewritten (text : String) (token other : Token) : Prop where
  action : other.action = token.action
  line : lineAt (withReturns text) other.offset = lineAt text token.offset
  groups : token.action ≠ .documentation → other.groups = token.groups
  documentation : token.action = .documentation →
    trim (other.group 0) = trim (token.group 0)

theorem Recaptured.eq {tailed : Prop} {group other : String} (same : Recaptured tailed group other)
    (inLine : '\n' ∉ group.toList) (plain : ¬ tailed) : other = group := by
  rcases same with same | ⟨tail, _⟩
  · rw [← String.toList_inj, same, crlf_eq_self inLine]
  · exact (plain tail).elim

theorem Recaptured.trim {tailed : Prop} {group other : String}
    (same : Recaptured tailed group other) (inLine : '\n' ∉ group.toList) :
    Text.trim other = Text.trim group := by
  rw [Text.trim, Text.trim]
  rcases same with same | ⟨_, same⟩
  · rw [same, crlf_eq_self inLine]
  · rw [same, crlf_eq_self inLine, trimBoth_return]

theorem groups_eq {tailed : Prop} {groups others : List (Option String)}
    (same : List.Forall₂ (Option.Rel (Recaptured tailed)) groups others)
    (inLine : ∀ group, some group ∈ groups → '\n' ∉ group.toList) (plain : ¬ tailed) :
    others = groups := by
  induction same with
  | nil => rfl
  | cons here _ ih =>
    rw [ih fun group member => inLine group (List.mem_cons_of_mem _ member)]
    cases here with
    | none => rfl
    | some here => rw [here.eq (inLine _ List.mem_cons_self) plain]

theorem Lexeme.Rewritten.token? {lexeme other : Lexeme} (lexemes : lexeme.Rewritten text other)
    (inLine : ∀ token ∈ lexeme.token?, ∀ group, some group ∈ token.groups → '\n' ∉ group.toList) :
    Option.Rel (Token.Rewritten text) lexeme.token? other.token? := by
  unfold Lexeme.token? at inLine ⊢
  rw [lexemes.action]
  have groups := lexemes.groups
  cases means : lexeme.action with
  | none => exact .none
  | some action =>
    rw [means] at inLine groups
    have inLine : ∀ group, some group ∈ lexeme.groups → '\n' ∉ group.toList := inLine _ rfl
    refine .some ⟨rfl, lexemes.offset.lineAt, fun other => ?_, fun _ => ?_⟩
    · exact groups_eq groups inLine fun same => other (Option.some.inj same)
    · show Text.trim ((other.groups[0]?).join.getD "") =
        Text.trim ((lexeme.groups[0]?).join.getD "")
      generalize lexeme.groups = listed at groups inLine
      generalize other.groups = listed' at groups
      cases groups with
      | nil => rfl
      | cons here _ =>
        cases here with
        | none => rfl
        | some here => exact here.trim (inLine _ List.mem_cons_self)

inductive Scanner.Ending.Rewritten (text : String) : Scanner.Ending → Scanner.Ending → Prop where
  | complete : Rewritten text .complete .complete
  | failure {error error' : ScanError} (errors : error.Rewritten text error') :
      Rewritten text (.failure error) (.failure error')

/-- Where no token captures a line break, the tokens of both texts are the same. -/
theorem Scanner.Abreast.tokens {scanner other : Scanner} (abreast : scanner.Abreast text other)
    (inLine : ∀ token ∈ scanner.tokens, ∀ group, some group ∈ token.groups → '\n' ∉ group.toList) :
    List.Forall₂ (Token.Rewritten text) scanner.tokens other.tokens ∧
      Ending.Rewritten text scanner.ending other.ending := by
  induction scanner using Scanner.scan_induction generalizing other with
  | ended scanner found =>
    rcases abreast.step with same | ⟨_, _, _, moved, _⟩
    · rw [found] at same
      generalize found' : other.step Verilog.table = step at same
      cases same
      rw [(tokens_of_ended found).1, (tokens_of_ended found').1, (tokens_of_ended found).2,
        (tokens_of_ended found').2]
      exact ⟨.nil, .complete⟩
    · cases found.symm.trans moved
  | stopped scanner error after found =>
    rcases abreast.step with same | ⟨_, _, _, moved, _⟩
    · rw [found] at same
      generalize found' : other.step Verilog.table = step at same
      cases same with
      | stopped errors =>
        rw [(tokens_of_stopped found).1, (tokens_of_stopped found').1, (tokens_of_stopped found).2,
          (tokens_of_stopped found').2]
        exact ⟨.nil, .failure errors⟩
    · cases found.symm.trans moved
  | moved scanner lexeme after found ih =>
    obtain ⟨tokens, ending⟩ := tokens_of_moved found
    rw [tokens] at inLine ⊢
    rcases abreast.step with same | ⟨lexeme', after', group, moved, means, member, lineBreak⟩
    · rw [found] at same
      generalize found' : other.step Verilog.table = step at same
      cases same with
      | moved lexemes later =>
        obtain ⟨tokens', ending'⟩ := tokens_of_moved found'
        obtain ⟨others, ends⟩ := ih later fun token member =>
          inLine token (List.mem_append_right _ member)
        rw [tokens', ending, ending']
        refine ⟨?_, ends⟩
        have first := lexemes.token? fun token member =>
          inLine token (List.mem_append_left _ (Option.mem_toList.2 member))
        generalize lexeme.token? = one at first ⊢
        generalize Lexeme.token? _ = two at first ⊢
        cases first with
        | none => exact others
        | some first => exact .cons first others
    · cases found.symm.trans moved
      obtain ⟨action, means⟩ := Option.isSome_iff_exists.1 means
      have captured : ∀ group, some group ∈ lexeme.groups → '\n' ∉ group.toList :=
        inLine { action, groups := lexeme.groups, offset := lexeme.offset, stop := lexeme.stop }
          (List.mem_append_left _ (by rw [Lexeme.token?, means]; exact List.mem_cons_self))
      exact (captured group member lineBreak).elim

namespace Assembly

variable {token other : Token}

theorem apply_rewritten (same : token.Rewritten text other) (assembly : Assembly) :
    assembly.apply (withReturns text) other = assembly.apply text token := by
  by_cases documents : token.action = .documentation
  · simp only [apply, same.action, documents, same.documentation documents]
  · exact apply_congr same.action (same.groups documents) same.line assembly

theorem run_rewritten {list list' : List Token}
    (same : List.Forall₂ (Token.Rewritten text) list list') (assembly : Assembly) :
    assembly.run (withReturns text) list' = assembly.run text list := by
  induction same generalizing assembly with
  | nil => rfl
  | cons here _ ih =>
    rw [run, run, apply_rewritten here]
    split
    · rfl
    · exact ih _

end Assembly

/-- The error in the text with carriage returns. Its offset grows by the line breaks in front of it,
which its line tells. -/
def ParseError.withReturns : ParseError → ParseError
  | .lexical state offset line => .lexical state (offset + (line - 1)) line
  | .stateUnderflow offset line => .stateUnderflow (offset + (line - 1)) line
  | error => error

theorem ScanError.Rewritten.within {error other : ScanError} (errors : error.Rewritten text other) :
    other.within (withReturns text) = (error.within text).withReturns := by
  cases errors with
  | noRule moved => rw [ScanError.within, moved.lineAt, moved.offset]; rfl
  | underflow moved => rw [ScanError.within, moved.lineAt, moved.offset]; rfl

namespace Assembly

theorem Refuses.withReturns {token : Token} {assembly next : Assembly} {error : ParseError}
    (refuses : Refuses text token assembly next error) : error.withReturns = error := by
  cases refuses <;> rfl

theorem withReturns_of_run {list : List Token} {assembly : Assembly} {error : ParseError}
    (failed : assembly.run text list = .error error) : error.withReturns = error := by
  induction list generalizing assembly with
  | nil => cases failed
  | cons token list ih =>
    rw [run] at failed
    split at failed
    · next refused =>
      cases failed
      exact (refuses_of_apply refused).withReturns
    · exact ih failed

theorem conclude_rewritten {ending other : Scanner.Ending} (ends : ending.Rewritten text other)
    (assembly : Assembly) :
    assembly.conclude (withReturns text) other =
      (assembly.conclude text ending).mapError ParseError.withReturns := by
  cases ends with
  | complete =>
    rw [conclude, conclude, finish, finish]
    cases assembly.guards with
    | nil => rfl
    | cons guard outer =>
      have all : Moved text text.utf8ByteSize (withReturns text).utf8ByteSize :=
        ⟨text.toList, [], (List.append_nil _).symm, (byteCount_toList text).symm, by
          rw [← byteCount_toList, Text.withReturns, String.toList_ofList]⟩
      show Except.error (ParseError.unterminatedGuard guard (lineAt (Text.withReturns text)
        (Text.withReturns text).utf8ByteSize)) = _
      rw [all.lineAt]
      rfl
  | failure errors =>
    rw [conclude, conclude, errors.within]
    rfl

end Assembly

/-- Carriage returns in front of the line breaks of a text change nothing but the offset of its
error, where no captured text holds a line break. -/
theorem parse_withReturns (text : String)
    (inLine : ∀ token ∈ tokens text, ∀ group, some group ∈ token.groups → '\n' ∉ group.toList) :
    parse (withReturns text) = (parse text).mapError ParseError.withReturns := by
  have abreast : (Scanner.start text).Abreast text (.start (withReturns text)) :=
    ⟨⟨[], rfl, rfl, rfl⟩, String.toList_ofList, rfl, rfl⟩
  obtain ⟨same, ends⟩ := abreast.tokens inLine
  rw [parse_eq_run, parse_eq_run, tokens, tokens, Assembly.run_rewritten same]
  cases ran : ({} : Assembly).run text (Scanner.start text).tokens with
  | error error =>
    show Except.error error = .error error.withReturns
    rw [Assembly.withReturns_of_run ran]
  | ok last => exact Assembly.conclude_rewritten ends last

/-- A stray character on the third line: two bytes more stand in front of it. -/
theorem parse_withReturns_stray :
    (∀ token ∈ tokens "module m (\n  input clk,\n  ?\n", ∀ group, some group ∈ token.groups →
      '\n' ∉ group.toList) ∧
    parse (withReturns "module m (\n  input clk,\n  ?\n") = .error (.lexical .modulePort 28 3) := by
  have captured : tokens "module m (\n  input clk,\n  ?\n" =
      [⟨.moduleStart, [some "m"], 0, 9⟩, ⟨.portStart, [some "input", some " clk"], 13, 22⟩] := by
    decide +kernel
  have inLine : ∀ token ∈ tokens "module m (\n  input clk,\n  ?\n", ∀ group,
      some group ∈ token.groups → '\n' ∉ group.toList := by
    rw [captured]
    simp
  have refused : parse "module m (\n  input clk,\n  ?\n" =
      .error (.lexical .modulePort 26 3) := by
    decide +kernel
  refine ⟨inLine, ?_⟩
  rw [parse_withReturns _ inLine, refused]
  rfl

/-- A direction alone on its line takes its head from the next one; behind a carriage return it does
not, and what stands on the next line is refused. -/
theorem not_parse_withReturns :
    parse "module m (\ninput\nwire [7:0] a\n);\nendmodule\n" =
        .ok [{ name := "m", ports :=
          [{ name := "a", direction := some .input, dataType := "wire [7:0]" }] }] ∧
      parse (withReturns "module m (\ninput\nwire [7:0] a\n);\nendmodule\n") =
        .error (.lexical .modulePort 24 3) := by
  constructor <;> decide +kernel

end VerilogInterface
