import VerilogInterface.Scanner
import VerilogInterface.Text.Line

/-! The reasons why a text yields no modules, each with the line it points at. -/

namespace VerilogInterface

inductive ParseError where
  | lexical (state : State) (offset line : Nat)
  | stateUnderflow (offset line : Nat)
  | unmatchedEndif (line : Nat)
  /-- A module or the text ends inside a guard. -/
  | unterminatedGuard (guard : String) (line : Nat)
  /-- The brackets of a port head are not a range and an array. -/
  | unknownPortFormat (direction head : String) (line : Nat)
deriving DecidableEq, Repr

namespace ParseError

/-- A guard as it is written in a source: directive and macro with a space between them. -/
def spelledGuard (guard : String) : String :=
  String.ofList (guard.toList.map fun character => if character = '=' then ' ' else character)

def message : ParseError → String
  | lexical state offset line =>
    s!"no rule matches in state `{state.name}` at line {line} (offset {offset})"
  | stateUnderflow offset line =>
    s!"lexer state stack underflow at line {line} (offset {offset})"
  | unmatchedEndif line =>
    s!"no matching '`ifdef' or '`ifndef' for the '`endif' at line {line}"
  | unterminatedGuard guard line =>
    s!"'{spelledGuard guard}' is not terminated with a matching '`endif' (line {line})"
  | unknownPortFormat direction head line =>
    s!"unknown port format: {direction} {head} (line {line})"

end ParseError

/-- A failed scan of the text, with the line of its offset. -/
def ScanError.within (text : String) : ScanError → ParseError
  | .noRule state offset => .lexical state offset (Text.lineAt text offset)
  | .underflow offset => .stateUnderflow offset (Text.lineAt text offset)

end VerilogInterface
