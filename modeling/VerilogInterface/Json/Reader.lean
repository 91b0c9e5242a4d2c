import VerilogInterface.Json.Value

/-! Reading JSON documents. Every value the grammar allows is read, whatever its layout; a document
is one value with nothing but blanks around it. -/

namespace VerilogInterface.Json

/-- Reads something from the beginning of the characters and leaves the rest. -/
abbrev Reader (α : Type) := List Char → Option (α × List Char)

def isBlank (character : Char) : Bool :=
  character == ' ' || character == '\n' || character == '\t' || character == '\r'

def skipBlanks (characters : List Char) : List Char := characters.dropWhile isBlank

def digit? (character : Char) : Option Nat :=
  if character.isDigit then some (character.toNat - '0'.toNat)
  else if 'a' ≤ character && character ≤ 'f' then some (character.toNat - 'a'.toNat + 10)
  else if 'A' ≤ character && character ≤ 'F' then some (character.toNat - 'A'.toNat + 10)
  else none

def code? : List Char → Option Nat
  | [first, second, third, fourth] => do
    some (((← digit? first) * 16 + (← digit? second)) * 256 +
      ((← digit? third) * 16 + (← digit? fourth)))
  | _ => none

/-- The character of an escape that takes one letter. -/
def letterEscape? : Char → Option Char
  | '"' => some '"'
  | '\\' => some '\\'
  | '/' => some '/'
  | 'n' => some '\n'
  | 't' => some '\t'
  | 'r' => some '\r'
  | 'b' => some '\x08'
  | 'f' => some '\x0c'
  | _ => none

/-- Reads one character of a string, or an escape. A character beyond sixteen bits may be written as
two escapes. -/
def readCharacter : Reader Char
  | '\\' :: 'u' :: rest => do
    let first ← code? (rest.take 4)
    let rest := rest.drop 4
    if 0xD800 ≤ first && first < 0xDC00 then
      match rest with
      | '\\' :: 'u' :: more => do
        let second ← code? (more.take 4)
        if 0xDC00 ≤ second && second < 0xE000 then
          some (Char.ofNat (0x10000 + (first - 0xD800) * 1024 + (second - 0xDC00)), more.drop 4)
        else none
      | _ => none
    else if first.isValidChar then some (Char.ofNat first, rest)
    else none
  | '\\' :: letter :: rest => (letterEscape? letter).map (·, rest)
  | character :: rest =>
    if character == '"' || character == '\\' || character < ' ' then none
    else some (character, rest)
  | [] => none

/-- Reads the rest of a string; the number bounds its characters. -/
def readTextRest : Nat → List Char → Reader String
  | 0, _, _ => none
  | _ + 1, read, '"' :: rest => some (String.ofList read.reverse, rest)
  | bound + 1, read, characters => do
    let (character, rest) ← readCharacter characters
    readTextRest bound (character :: read) rest

def readText : Reader String
  | '"' :: rest => readTextRest (rest.length + 1) [] rest
  | _ => none

def readDigits : Reader (List Char) := fun characters =>
  match characters.takeWhile Char.isDigit with
  | [] => none
  | found => some (found, characters.dropWhile Char.isDigit)

/-- Reads a number: a whole part without needless zeros, a fraction and an exponent. -/
def readNumber : Reader String := fun characters => do
  let (sign, rest) := match characters with
    | '-' :: rest => (['-'], rest)
    | rest => ([], rest)
  let (whole, rest) ← match rest with
    | '0' :: rest => some (['0'], rest)
    | rest => readDigits rest
  let (fraction, rest) ← match rest with
    | '.' :: rest => (readDigits rest).map fun (found, rest) => ('.' :: found, rest)
    | rest => some ([], rest)
  let (exponent, rest) ← match rest with
    | mark :: rest =>
      if mark == 'e' || mark == 'E' then
        match rest with
        | '+' :: rest => (readDigits rest).map fun (found, rest) => (mark :: '+' :: found, rest)
        | '-' :: rest => (readDigits rest).map fun (found, rest) => (mark :: '-' :: found, rest)
        | rest => (readDigits rest).map fun (found, rest) => (mark :: found, rest)
      else some ([], mark :: rest)
    | [] => some ([], [])
  some (String.ofList (sign ++ whole ++ fraction ++ exponent), rest)

/-- Reads a word that stands for a value. -/
def readWord (spelling : String) (value : Json) : Reader Json := fun characters =>
  if spelling.toList.isPrefixOf characters then
    some (value, characters.drop spelling.length)
  else none

/-- Reads the rest of an array after an item; the number bounds the items. -/
def readItems (value : Reader Json) : Nat → List Json → Reader (List Json)
  | 0, _, _ => none
  | bound + 1, found, characters =>
    match skipBlanks characters with
    | ']' :: rest => some (found.reverse, rest)
    | ',' :: rest => do
      let (item, rest) ← value rest
      readItems value bound (item :: found) rest
    | _ => none

/-- Reads a name, a colon and a value. -/
def readMember (value : Reader Json) : Reader (String × Json) := fun characters => do
  let (name, rest) ← readText (skipBlanks characters)
  match skipBlanks rest with
  | ':' :: rest => do
    let (found, rest) ← value rest
    some ((name, found), rest)
  | _ => none

/-- Reads the rest of an object after a member; the number bounds the members. -/
def readMembers (value : Reader Json) :
    Nat → List (String × Json) → Reader (List (String × Json))
  | 0, _, _ => none
  | bound + 1, found, characters =>
    match skipBlanks characters with
    | '\x7d' :: rest => some (found.reverse, rest)
    | ',' :: rest => do
      let (entry, rest) ← readMember value rest
      readMembers value bound (entry :: found) rest
    | _ => none

/-- Reads a value with blanks before it; the number bounds how deep it nests. -/
def readValue : Nat → Reader Json
  | 0, _ => none
  | depth + 1, characters =>
    match skipBlanks characters with
    | '[' :: rest =>
      match skipBlanks rest with
      | ']' :: rest => some (.array [], rest)
      | rest => do
        let (item, rest) ← readValue depth rest
        let (items, rest) ← readItems (readValue depth) (rest.length + 1) [item] rest
        some (.array items, rest)
    | '\x7b' :: rest =>
      match skipBlanks rest with
      | '\x7d' :: rest => some (.object [], rest)
      | rest => do
        let (entry, rest) ← readMember (readValue depth) rest
        let (members, rest) ← readMembers (readValue depth) (rest.length + 1) [entry] rest
        some (.object members, rest)
    | '"' :: rest => (readText ('"' :: rest)).map fun (content, rest) => (.text content, rest)
    | 'n' :: rest => readWord "null" .null ('n' :: rest)
    | 't' :: rest => readWord "true" (.boolean true) ('t' :: rest)
    | 'f' :: rest => readWord "false" (.boolean false) ('f' :: rest)
    | rest => (readNumber rest).map fun (spelling, rest) => (.number spelling, rest)

def parse (document : String) : Option Json :=
  match readValue (document.length + 1) document.toList with
  | some (found, rest) => if (skipBlanks rest).isEmpty then some found else none
  | none => none

end VerilogInterface.Json
