import VerilogInterface.Assembly
import VerilogInterface.Grammar.Verilog
import VerilogInterface.Interface.Object

/-! From a text to its modules. Tokens are taken up as the scan finds them, so whichever comes first
in the text, a failing token or a failing scan, decides the error. -/

namespace VerilogInterface

def Assembly.read (text : String) (scanner : Scanner) (assembly : Assembly) :
    Except ParseError (List Module) :=
  match _moved : scanner.step Verilog.table with
  | .ended => assembly.finish text
  | .stopped error _ => .error (error.within text)
  | .moved lexeme after =>
    match lexeme.token? with
    | none => assembly.read text after
    | some token =>
      match assembly.apply text token with
      | (_, some error) => .error error
      | (next, none) => next.read text after
termination_by scanner.rest.length
decreasing_by all_goals exact Scanner.length_rest_lt_of_step _moved

/-- The modules that a text declares, in the order of their ends, or the first failure. -/
def parse (text : String) : Except ParseError (List Module) :=
  Assembly.read text (.start text) {}

/-- The declarations of a text, all of them or those of one kind. -/
def declarations (text : String) (kind : Option Kind) : Except ParseError (List Object) :=
  (parse text).map fun modules => Object.ofKind kind (modules.map .module)

end VerilogInterface
