import VerilogInterface.Grammar.Rule

/-! The scan of a text under a rule table. Each step applies one rule at the front of what remains;
because empty matches do not count, what remains gets shorter and every scan ends. A scan stops for
good at its first failure. -/

namespace VerilogInterface

inductive ScanError where
  /-- No rule of the state matches at the offset. -/
  | noRule (state : State) (offset : Nat)
  /-- A rule matched at the offset asks to leave the outermost state. -/
  | underflow (offset : Nat)
deriving DecidableEq, Repr

/-- A scan on its way: the characters that remain, the bytes behind them, the states entered above
the outermost one, innermost first, and whether the scan has failed. -/
structure Scanner where
  rest : List Char
  position : Nat := 0
  entered : List State := []
  failed : Bool := false
deriving DecidableEq, Repr

/-- One match of a rule, silent or not. -/
structure Lexeme where
  state : State
  action : Option Action
  groups : List (Option String)
  offset : Nat
  stop : Nat
deriving DecidableEq, Repr

/-- A match with a meaning, with the texts captured in it. -/
structure Token where
  action : Action
  groups : List (Option String) := []
  offset : Nat := 0
  stop : Nat := 0
deriving DecidableEq, Repr

namespace Token

/-- The captured text of the given index, if that capture took part in the match. -/
def group? (token : Token) (index : Nat) : Option String := (token.groups[index]?).join

/-- The captured text of the given index, empty if the capture took no part. -/
def group (token : Token) (index : Nat) : String := (token.group? index).getD ""

end Token

/-- The token of a match that has a meaning. -/
def Lexeme.token? (lexeme : Lexeme) : Option Token :=
  lexeme.action.map fun action =>
    { action, groups := lexeme.groups, offset := lexeme.offset, stop := lexeme.stop }

namespace Scanner

def start (text : String) : Scanner := { rest := text.toList }

def state (scanner : Scanner) : State := scanner.entered.headD .root

/-- All states the scan is in, innermost first; the outermost is always the root. -/
def stack (scanner : Scanner) : List State := scanner.entered ++ [.root]

def depth (scanner : Scanner) : Nat := scanner.stack.length

/-- What one step of a scan does. -/
inductive Step where
  | ended
  | moved (lexeme : Lexeme) (after : Scanner)
  | stopped (error : ScanError) (after : Scanner)

variable {kind : Type}

/-- The scan after a match; leaving the outermost state is refused, and by then the match is
already behind the scan. -/
def follow (scanner : Scanner) (rule : Rule kind) (found : Pattern.Match) : Step :=
  let lexeme : Lexeme :=
    { state := scanner.state, action := rule.action, groups := found.groups,
      offset := scanner.position, stop := scanner.position + found.taken }
  let after := { scanner with rest := found.rest, position := scanner.position + found.taken }
  match rule.transition with
  | none => .moved lexeme after
  | some (.push state) => .moved lexeme { after with entered := state :: scanner.entered }
  | some .pop =>
    match scanner.entered with
    | [] => .stopped (.underflow scanner.position) { after with failed := true }
    | _ :: outer => .moved lexeme { after with entered := outer }

variable [Matcher kind]

def step (table : RuleTable kind) (scanner : Scanner) : Step :=
  if scanner.failed || scanner.rest.isEmpty then .ended
  else
    match firstMatch scanner.rest (table scanner.state) with
    | none =>
      .stopped (.noRule scanner.state scanner.position) { scanner with failed := true }
    | some (rule, found) => scanner.follow rule found

theorem length_rest_lt_of_step {table : RuleTable kind} {scanner after : Scanner} {lexeme : Lexeme}
    (moved : scanner.step table = .moved lexeme after) :
    after.rest.length < scanner.rest.length := by
  rw [step] at moved
  split at moved
  · contradiction
  · split at moved
    · contradiction
    · next rule found first =>
      have shorter :=
        length_rest_lt_of_match? (firstMatch_eq_some first).2.1 (firstMatch_eq_some first).2.2
      rw [follow] at moved
      split at moved
      · cases moved; exact shorter
      · cases moved; exact shorter
      · split at moved
        · contradiction
        · cases moved; exact shorter

/-- The next token or failure, passing over silent matches; nothing once the scan has ended. -/
def next (table : RuleTable kind) (scanner : Scanner) :
    Option (Except ScanError Token) × Scanner :=
  match _moved : scanner.step table with
  | .ended => (none, scanner)
  | .stopped error after => (some (.error error), after)
  | .moved lexeme after =>
    match lexeme.token? with
    | some token => (some (.ok token), after)
    | none => after.next table
termination_by scanner.rest.length
decreasing_by exact length_rest_lt_of_step _moved

inductive Ending where
  | complete
  | failure (error : ScanError)
deriving DecidableEq, Repr

/-- A whole scan: every match with the scan just after it, how it ends, and where. -/
structure Trace where
  lexemes : List (Lexeme × Scanner)
  ending : Ending
  last : Scanner

def trace (table : RuleTable kind) (scanner : Scanner) : Trace :=
  match _moved : scanner.step table with
  | .ended => { lexemes := [], ending := .complete, last := scanner }
  | .stopped error after => { lexemes := [], ending := .failure error, last := after }
  | .moved lexeme after =>
    let others := after.trace table
    { others with lexemes := (lexeme, after) :: others.lexemes }
termination_by scanner.rest.length
decreasing_by exact length_rest_lt_of_step _moved

/-- The tokens of a whole scan, each with the scan just after it. -/
def Trace.tokens (trace : Trace) : List (Token × Scanner) :=
  trace.lexemes.filterMap fun (lexeme, after) => lexeme.token?.map (·, after)

end Scanner

end VerilogInterface
