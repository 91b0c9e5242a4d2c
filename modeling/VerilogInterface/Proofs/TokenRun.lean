import Mathlib.Data.List.Induction
import VerilogInterface.Parse

/-! Reading a text is a run over its tokens. The scan and the assembly take turns in `parse`; here
they are pulled apart, because neither looks at what the other keeps. -/

namespace VerilogInterface

namespace Token

variable {token other : Token}

theorem group?_congr (groups : other.groups = token.groups) (index : Nat) :
    other.group? index = token.group? index := by
  rw [group?, group?, groups]

theorem group_congr (groups : other.groups = token.groups) (index : Nat) :
    other.group index = token.group index := by
  rw [group, group, group?_congr groups]

end Token

namespace Assembly

def run (text : String) (assembly : Assembly) : List Token → Except ParseError Assembly
  | [] => .ok assembly
  | token :: rest =>
    match assembly.apply text token with
    | (_, some error) => .error error
    | (next, none) => next.run text rest

/-- What a text gives once all its tokens are taken up. -/
def conclude (text : String) (assembly : Assembly) : Scanner.Ending → Except ParseError (List Module)
  | .complete => assembly.finish text
  | .failure error => .error (error.within text)

variable {text : String} {assembly next : Assembly} {token : Token}

/-- Of a token only its action, what it captured and its line matter. -/
theorem apply_congr {text' : String} {other : Token} (action : other.action = token.action)
    (groups : other.groups = token.groups)
    (line : Text.lineAt text' other.offset = Text.lineAt text token.offset)
    (assembly : Assembly) : assembly.apply text' other = assembly.apply text token := by
  have heads : assembly.openPorts text' other = assembly.openPorts text token := by
    simp only [openPorts, Token.group_congr groups, line]
  have ends : assembly.closeModule text' other = assembly.closeModule text token := by
    simp only [closeModule, line]
  simp only [apply, action, Token.group_congr groups, Token.group?_congr groups, heads, ends, line]

theorem run_cons_of_ok (rest : List Token) (taken : assembly.apply text token = (next, none)) :
    assembly.run text (token :: rest) = next.run text rest := by
  rw [run, taken]

theorem run_cons_of_error {error : ParseError} (rest : List Token)
    (refused : assembly.apply text token = (next, some error)) :
    assembly.run text (token :: rest) = .error error := by
  rw [run, refused]

theorem run_append (first second : List Token) :
    assembly.run text (first ++ second) =
      match assembly.run text first with
      | .error error => .error error
      | .ok middle => middle.run text second := by
  induction first generalizing assembly with
  | nil => rfl
  | cons token rest ih =>
    rw [List.cons_append, run, run]
    split
    · rfl
    · exact ih

theorem run_append_eq_ok {first second : List Token} {last : Assembly}
    (ran : assembly.run text (first ++ second) = .ok last) :
    ∃ middle, assembly.run text first = .ok middle ∧ middle.run text second = .ok last := by
  rw [run_append] at ran
  split at ran
  · contradiction
  · next middle reached => exact ⟨middle, reached, ran⟩

theorem run_append_of_ok {first : List Token} {middle : Assembly} (second : List Token)
    (reached : assembly.run text first = .ok middle) :
    assembly.run text (first ++ second) = middle.run text second := by
  rw [run_append, reached]

theorem run_singleton_eq_ok :
    assembly.run text [token] = .ok next ↔ assembly.apply text token = (next, none) := by
  constructor
  · intro ran
    rw [run] at ran
    split at ran
    · contradiction
    · next after taken =>
      cases ran
      exact taken
  · intro taken
    rw [run_cons_of_ok [] taken]
    rfl

theorem run_concat_eq_ok {before : List Token}
    (ran : assembly.run text (before ++ [token]) = .ok next) :
    ∃ middle, assembly.run text before = .ok middle ∧ middle.apply text token = (next, none) := by
  obtain ⟨middle, reached, last⟩ := run_append_eq_ok ran
  exact ⟨middle, reached, run_singleton_eq_ok.1 last⟩

/-- A property of a list of tokens and an assembly holds after every successful run if the empty
assembly has it and each token keeps it. -/
theorem run_induction {motive : List Token → Assembly → Prop} (initial : motive [] {})
    (step : ∀ before token middle next, ({} : Assembly).run text before = .ok middle →
      motive before middle → middle.apply text token = (next, none) →
      motive (before ++ [token]) next)
    {before : List Token} {last : Assembly} (ran : ({} : Assembly).run text before = .ok last) :
    motive before last := by
  induction before using List.reverseRecOn generalizing last with
  | nil =>
    cases ran
    exact initial
  | append_singleton before token ih =>
    obtain ⟨middle, reached, taken⟩ := run_concat_eq_ok ran
    exact step before token middle last reached (ih reached) taken

end Assembly

namespace Scanner

section Unfolding

variable {kind : Type} [Matcher kind] {table : RuleTable kind} {scanner after : Scanner}
  {lexeme : Lexeme}

theorem trace_of_ended (ended : scanner.step table = .ended) :
    scanner.trace table = { lexemes := [], ending := .complete, last := scanner } := by
  rw [trace]
  split
  · rfl
  · next stopped => cases ended.symm.trans stopped
  · next moved => cases ended.symm.trans moved

theorem trace_of_stopped {error : ScanError} (stopped : scanner.step table = .stopped error after) :
    scanner.trace table = { lexemes := [], ending := .failure error, last := after } := by
  rw [trace]
  split
  · next ended => cases ended.symm.trans stopped
  · next stopped' =>
    cases stopped'.symm.trans stopped
    rfl
  · next moved => cases stopped.symm.trans moved

theorem trace_of_moved (moved : scanner.step table = .moved lexeme after) :
    scanner.trace table =
      { after.trace table with lexemes := (lexeme, after) :: (after.trace table).lexemes } := by
  rw [trace]
  split
  · next ended => cases ended.symm.trans moved
  · next stopped => cases stopped.symm.trans moved
  · next moved' =>
    cases moved'.symm.trans moved
    rfl

theorem next_of_ended (ended : scanner.step table = .ended) :
    scanner.next table = (none, scanner) := by
  rw [next]
  split
  · rfl
  · next stopped => cases ended.symm.trans stopped
  · next moved => cases ended.symm.trans moved

theorem next_of_moved (moved : scanner.step table = .moved lexeme after) :
    scanner.next table =
      match lexeme.token? with
      | some token => (some (.ok token), after)
      | none => after.next table := by
  rw [next]
  split
  · next ended => cases ended.symm.trans moved
  · next stopped => cases stopped.symm.trans moved
  · next moved' =>
    cases moved'.symm.trans moved
    rfl

end Unfolding

def tokens (scanner : Scanner) : List Token := (scanner.trace Verilog.table).tokens.map (·.1)

def ending (scanner : Scanner) : Ending := (scanner.trace Verilog.table).ending

variable {scanner after : Scanner}

theorem tokens_of_ended (ended : scanner.step Verilog.table = .ended) :
    scanner.tokens = [] ∧ scanner.ending = .complete := by
  rw [tokens, ending, trace_of_ended ended]
  exact ⟨rfl, rfl⟩

theorem tokens_of_stopped {error : ScanError}
    (stopped : scanner.step Verilog.table = .stopped error after) :
    scanner.tokens = [] ∧ scanner.ending = .failure error := by
  rw [tokens, ending, trace_of_stopped stopped]
  exact ⟨rfl, rfl⟩

theorem tokens_of_moved {lexeme : Lexeme}
    (moved : scanner.step Verilog.table = .moved lexeme after) :
    scanner.tokens = lexeme.token?.toList ++ after.tokens ∧ scanner.ending = after.ending := by
  rw [tokens, ending, trace_of_moved moved]
  refine ⟨?_, rfl⟩
  cases found : lexeme.token? <;>
    simp [tokens, Trace.tokens, found]

/-- A property holds of every scan if it holds of those that end or stop at once and passes from
the scan after a match to the scan before it. -/
theorem scan_induction {motive : Scanner → Prop}
    (ended : ∀ scanner : Scanner, scanner.step Verilog.table = .ended → motive scanner)
    (stopped : ∀ (scanner : Scanner) error after,
      scanner.step Verilog.table = .stopped error after → motive scanner)
    (moved : ∀ (scanner : Scanner) lexeme after,
      scanner.step Verilog.table = .moved lexeme after → motive after → motive scanner)
    (scanner : Scanner) : motive scanner := by
  fun_induction scanner.trace Verilog.table with
  | case1 scanner found => exact ended scanner found
  | case2 scanner error after found => exact stopped scanner error after found
  | case3 scanner lexeme after found others ih => exact moved scanner lexeme after found ih

end Scanner

/-- Reading what remains of a text is a run over its tokens, followed by the end of the scan. -/
theorem Assembly.read_eq_run (text : String) (scanner : Scanner) (assembly : Assembly) :
    assembly.read text scanner =
      match assembly.run text scanner.tokens with
      | .error error => .error error
      | .ok last => last.conclude text scanner.ending := by
  fun_induction assembly.read text scanner with
  | case1 assembly scanner ended =>
    obtain ⟨none, complete⟩ := Scanner.tokens_of_ended ended
    rw [none, complete]
    rfl
  | case2 assembly scanner error after stopped =>
    obtain ⟨none, failure⟩ := Scanner.tokens_of_stopped stopped
    rw [none, failure]
    rfl
  | case3 assembly scanner lexeme after moved silent ih =>
    obtain ⟨same, onward⟩ := Scanner.tokens_of_moved moved
    rw [ih, same, onward, silent]
    rfl
  | case4 assembly scanner lexeme after moved token found next error refused =>
    obtain ⟨first, _⟩ := Scanner.tokens_of_moved moved
    rw [first, found, Option.toList_some, List.singleton_append, run_cons_of_error _ refused]
  | case5 assembly scanner lexeme after moved token found next taken ih =>
    obtain ⟨first, onward⟩ := Scanner.tokens_of_moved moved
    rw [ih, onward, first, found, Option.toList_some, List.singleton_append,
      run_cons_of_ok _ taken]

def tokens (text : String) : List Token := (Scanner.start text).tokens

def ending (text : String) : Scanner.Ending := (Scanner.start text).ending

/-- The outcome of a text depends on its tokens and the way its scan ends alone. -/
theorem parse_eq_run (text : String) :
    parse text =
      match ({} : Assembly).run text (tokens text) with
      | .error error => .error error
      | .ok last => last.conclude text (ending text) :=
  Assembly.read_eq_run text (.start text) {}

theorem run_of_parse {text : String} {modules : List Module} (parsed : parse text = .ok modules) :
    ∃ last, ({} : Assembly).run text (tokens text) = .ok last ∧ ending text = .complete ∧
      last.guards = [] ∧ last.modules = modules := by
  rw [parse_eq_run] at parsed
  split at parsed
  · contradiction
  · next last ran =>
    cases scanned : ending text with
    | failure error =>
      rw [scanned] at parsed
      contradiction
    | complete =>
      rw [scanned, Assembly.conclude, Assembly.finish] at parsed
      split at parsed
      · contradiction
      · next outside => exact ⟨last, ran, rfl, outside, Except.ok.inj parsed⟩

end VerilogInterface
