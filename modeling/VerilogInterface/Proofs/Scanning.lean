import VerilogInterface.Proofs.Nesting
import VerilogInterface.Proofs.Preference

/-! Stretches of a scan. Where the tokens stand is left out; what counts is which characters are
taken in which states, and what is found in them. -/

namespace VerilogInterface

abbrev Meaning := Action × List (Option String)

def Token.meaning (token : Token) : Meaning := (token.action, token.groups)

/-- A scan at the first characters with the first states entered comes to the others, and finds
these meanings on its way. -/
def Scans (rest : List Char) (entered : List State) (found : List Meaning)
    (rest' : List Char) (entered' : List State) : Prop :=
  ∀ scanner : Scanner, scanner.failed = false → scanner.rest = rest → scanner.entered = entered →
    ∃ (after : Scanner) (passed : List Token), after.failed = false ∧ after.rest = rest' ∧
      after.entered = entered' ∧ scanner.tokens = passed ++ after.tokens ∧
      passed.map Token.meaning = found ∧ scanner.ending = after.ending

variable {rest rest' rest'' taken : List Char} {entered entered' entered'' : List State}
  {found others : List Meaning}

theorem Scans.refl (rest : List Char) (entered : List State) : Scans rest entered [] rest entered :=
  fun scanner working same inside => ⟨scanner, [], working, same, inside, rfl, rfl, rfl⟩

theorem Scans.trans (one : Scans rest entered found rest' entered')
    (two : Scans rest' entered' others rest'' entered'') :
    Scans rest entered (found ++ others) rest'' entered'' := by
  intro scanner working same inside
  obtain ⟨middle, passed, working, same, inside, tokens, meanings, ending⟩ :=
    one scanner working same inside
  obtain ⟨after, passed', working, same, inside, tokens', meanings', ending'⟩ :=
    two middle working same inside
  refine ⟨after, passed ++ passed', working, same, inside, ?_, ?_, ending.trans ending'⟩
  · rw [tokens, tokens', List.append_assoc]
  · rw [List.map_append, meanings, meanings']

theorem bars_of_begins {rules : List Rule} {first : Char}
    (others : ∀ rule ∈ rules, rule.pattern.nullable = false ∧ rule.pattern.begins first = false)
    (rest : List Char) : ∀ rule ∈ rules, rule.pattern.Bars (first :: rest) :=
  fun rule member => .of_begins (others rule member).1 (others rule member).2

theorem firstMatch_append {characters : List Char} {before : List Rule}
    (bars : ∀ rule ∈ before, rule.pattern.Bars characters) (after : List Rule) :
    firstMatch characters (before ++ after) = firstMatch characters after := by
  induction before with
  | nil => rfl
  | cons rule before ih =>
    obtain ⟨here, later⟩ := List.forall_mem_cons.1 bars
    have none : rule.pattern.match? characters = none := by
      rw [Pattern.match?, here.search_eq_none rfl]
      rfl
    rw [List.cons_append, firstMatch_cons, none]
    exact ih later

theorem Scanner.step_of_first {scanner : Scanner} {rule : Rule} {matched : Pattern.Match}
    (working : scanner.failed = false)
    (first : firstMatch scanner.rest (Verilog.table scanner.state) = some (rule, matched))
    (enters : rule.enters scanner.entered = some entered') :
    scanner.step Verilog.table = .moved
      { state := scanner.state, action := rule.action, groups := matched.groups,
        offset := scanner.position, stop := scanner.position + matched.taken }
      { scanner with
        rest := matched.rest, position := scanner.position + matched.taken,
        entered := entered' } := by
  have nonempty : scanner.rest ≠ [] := by
    intro empty
    obtain ⟨_, accepted, positive⟩ := firstMatch_eq_some first
    obtain ⟨_, split, bytes⟩ := Pattern.match?_splits accepted
    rw [empty] at split
    rw [bytes, (List.append_eq_nil_iff.1 split.symm).1] at positive
    contradiction
  rw [step, working, Bool.false_or, if_neg (by simpa using nonempty), first]
  show scanner.follow rule matched = _
  rw [follow_eq, enters]
  simp only [working]

/-- A rule takes what its pattern prefers if no rule listed before it can match. The index is the
rule's place among those of the state. -/
theorem Scanner.moved_of_rule {scanner : Scanner} {rule : Rule} {writes : Pattern.Writes}
    (index : Nat) (listed : (Verilog.table scanner.state)[index]? = some rule)
    (bars : ∀ rule ∈ (Verilog.table scanner.state).take index, rule.pattern.Bars scanner.rest)
    (prefers : rule.pattern.Prefers none taken rest writes) (nonempty : taken ≠ [])
    (working : scanner.failed = false) (split : scanner.rest = taken ++ rest)
    (enters : rule.enters scanner.entered = some entered') :
    scanner.step Verilog.table = .moved
      { state := scanner.state, action := rule.action,
        groups := writes.apply (List.replicate rule.pattern.captureCount none),
        offset := scanner.position, stop := scanner.position + Text.byteCount taken }
      { scanner with
        rest, position := scanner.position + Text.byteCount taken, entered := entered' } := by
  have positive := Text.byteCount_pos nonempty
  obtain ⟨inside, found⟩ := List.getElem?_eq_some_iff.1 listed
  have divided := List.take_append_drop index (Verilog.table scanner.state)
  rw [List.drop_eq_getElem_cons inside, found] at divided
  have first := firstMatch_append bars
    (rule :: (Verilog.table scanner.state).drop (index + 1))
  rw [divided, firstMatch_cons, split, prefers.match?_eq] at first
  simp only [positive, if_true] at first
  rw [← split] at first
  exact step_of_first working first enters

/-- The same for a stretch of a scan. -/
theorem Scans.of_rule {characters : List Char} {rule : Rule} {writes : Pattern.Writes}
    (index : Nat) (listed : (Verilog.table (entered.headD .root))[index]? = .some rule)
    (bars : ∀ rule ∈ (Verilog.table (entered.headD .root)).take index, rule.pattern.Bars characters)
    (prefers : rule.pattern.Prefers none taken rest writes) (some : taken ≠ [])
    (split : characters = taken ++ rest) (enters : rule.enters entered = .some entered')
    (meant : (rule.action.map fun action =>
      (action, writes.apply (List.replicate rule.pattern.captureCount none))).toList = found) :
    Scans characters entered found rest entered' := by
  subst meant
  rintro scanner working rfl rfl
  obtain ⟨tokens, ending⟩ := Scanner.tokens_of_moved
    (Scanner.moved_of_rule index listed bars prefers some working split enters)
  refine ⟨_, _, ?_, ?_, ?_, tokens, ?_, ending⟩
  · exact working
  · rfl
  · rfl
  · unfold Lexeme.token?
    cases rule.action <;> rfl

theorem Scans.tokens_eq {text : String} (scans : Scans text.toList [] found [] entered) :
    (tokens text).map Token.meaning = found ∧ ending text = .complete := by
  obtain ⟨after, passed, working, empty, _, tokens, meanings, ending⟩ :=
    scans (.start text) rfl rfl rfl
  have ended : after.step Verilog.table = .ended := by
    rw [Scanner.step, empty]
    simp
  obtain ⟨none, complete⟩ := Scanner.tokens_of_ended ended
  rw [none, List.append_nil] at tokens
  exact ⟨(congrArg _ tokens).trans meanings, ending.trans complete⟩

end VerilogInterface
