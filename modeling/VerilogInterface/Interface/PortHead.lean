import VerilogInterface.Text.Blank

/-! The head of a port declaration after its direction: an optional net type, a range, an array
dimension and the declared name. Ranges and arrays look alike, so the pieces are told apart by the
brackets around them. -/

namespace VerilogInterface

structure PortHead where
  netType : Option String := none
  range : Option String := none
  array : Option String := none
  name : Option String := none
deriving DecidableEq, Repr

namespace PortHead

def phrase (characters : List Char) : Option String := Text.joinedWords (String.ofList characters)

def bracketed (characters : List Char) : String :=
  String.ofList ('[' :: Text.trimBoth characters ++ [']'])

/-- A head without brackets: the last word is the name, the words before it are the net type. -/
def ofWords (characters : List Char) : PortHead :=
  match (Text.words (String.ofList characters)).reverse with
  | [] => {}
  | [name] => { name := some name }
  | name :: net => { netType := some (" ".intercalate net.reverse), name := some name }

/-- Reads a head. Every opening bracket needs a closing one before the next, and there may be two
bracketed pieces at most. The name follows the brackets; only when an array comes last may it stand
between them. -/
def parse (text : String) : Option PortHead :=
  match Text.pieces '[' (Text.trimBoth text.toList) with
  | [whole] => some (ofWords whole)
  | [net, first] => do
    let (range, after) ← Text.cut? ']' first
    some { netType := phrase net, range := some (bracketed range), name := phrase after }
  | [net, first, second] => do
    let (range, between) ← Text.cut? ']' first
    let (array, after) ← Text.cut? ']' second
    some {
      netType := phrase net
      range := some (bracketed range)
      array := some (bracketed array)
      name := (phrase between).or (phrase after) }
  | _ => none

/-- The declared type: net type and range with a space between them, the array right behind. -/
def dataType (head : PortHead) : String :=
  " ".intercalate (head.netType.toList ++ head.range.toList) ++ head.array.getD ""

end PortHead

/-- The type of a parameter list: its qualifier and its range, as far as they are written. -/
def parameterType (qualifier range : Option String) : String :=
  " ".intercalate (((qualifier.toList ++ range.toList).map Text.trim).filter (! ·.isEmpty))

end VerilogInterface
