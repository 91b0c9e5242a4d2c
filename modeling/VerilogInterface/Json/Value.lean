/-! JSON values and their printed form. Members of an object keep their order; a number keeps its
spelling, since nothing here computes with it. In print every item and member stands on a line of
its own, two spaces deeper than its container, and only quotation marks, backslashes and control
characters are escaped. -/

namespace VerilogInterface

inductive Json where
  | null
  | boolean (holds : Bool)
  | number (spelling : String)
  | text (content : String)
  | array (items : List Json)
  | object (members : List (String × Json))
deriving Inhabited, Repr

namespace Json

def member? (name : String) : List (String × Json) → Option Json
  | [] => none
  | (other, value) :: rest => if other = name then some value else member? name rest

def hexDigit (digit : Nat) : Char :=
  if digit < 10 then Char.ofNat ('0'.toNat + digit) else Char.ofNat ('a'.toNat + (digit - 10))

/-- The form of a character inside quotation marks. -/
def escape (character : Char) : List Char :=
  if character = '"' then ['\\', '"']
  else if character = '\\' then ['\\', '\\']
  else if character = '\n' then ['\\', 'n']
  else if character = '\t' then ['\\', 't']
  else if character = '\r' then ['\\', 'r']
  else if character = '\x08' then ['\\', 'b']
  else if character = '\x0c' then ['\\', 'f']
  else if character < ' ' then
    ['\\', 'u', '0', '0', hexDigit (character.toNat / 16), hexDigit (character.toNat % 16)]
  else [character]

def printText (content : String) : List Char :=
  '"' :: content.toList.flatMap escape ++ ['"']

def newLine (depth : Nat) : List Char := '\n' :: List.replicate (2 * depth) ' '

mutual
/-- Prints a value that stands at the given depth. -/
def print (depth : Nat) : Json → List Char
  | .null => "null".toList
  | .boolean true => "true".toList
  | .boolean false => "false".toList
  | .number spelling => spelling.toList
  | .text content => printText content
  | .array [] => ['[', ']']
  | .array (item :: items) =>
    '[' :: newLine (depth + 1) ++ print (depth + 1) item ++
      printItems (depth + 1) items ++ newLine depth ++ [']']
  | .object [] => ['\x7b', '\x7d']
  | .object ((name, value) :: members) =>
    '\x7b' :: newLine (depth + 1) ++ printText name ++ ':' :: ' ' :: print (depth + 1) value ++
      printMembers (depth + 1) members ++ newLine depth ++ ['\x7d']

def printItems (depth : Nat) : List Json → List Char
  | [] => []
  | item :: items => ',' :: newLine depth ++ print depth item ++ printItems depth items

def printMembers (depth : Nat) : List (String × Json) → List Char
  | [] => []
  | (name, value) :: members =>
    ',' :: newLine depth ++ printText name ++ ':' :: ' ' :: print depth value ++
      printMembers depth members
end

def pretty (value : Json) : String := String.ofList (value.print 0)

end Json

end VerilogInterface
