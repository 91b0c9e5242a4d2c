import VerilogInterface.Toml.Scalar
import VerilogInterface.Toml.Table

/-! The statements of a document: keys with values, and headers. Containers may nest seventy-nine
deep and keys may have seventy-nine parts. -/

namespace VerilogInterface.Toml

inductive Statement where
  /-- A value under a dotted key: the names on the way, and the last name. -/
  | assign (way : List String) (name : String) (value : Value)
  | header (way : List String) (name : String)
  /-- A header in double brackets. -/
  | element (way : List String) (name : String)

/-- The greatest depth of containers and the greatest length of keys. -/
def nesting : Nat := 79

def skipSpaces (characters : List Char) : List Char := characters.dropWhile isSpace

/-- Passes over a comment; it must end with a line break or the text. -/
def skipComment : List Char → Option (List Char)
  | [] => some []
  | '\n' :: rest => some ('\n' :: rest)
  | character :: rest => if isPlain character then skipComment rest else none

/-- Passes over the rest of a line: spaces, a comment, and the line break. -/
def skipLine (characters : List Char) : Option (List Char) := do
  let rest ← match skipSpaces characters with
    | '#' :: comment => skipComment comment
    | rest => some rest
  match rest with
  | [] => some []
  | '\n' :: next => some next
  | _ => none

/-- Passes over spaces, line breaks and whole comments. -/
def skipBlanks (inComment : Bool) : List Char → Option (List Char)
  | [] => some []
  | character :: rest =>
    if character == '\n' then skipBlanks false rest
    else if inComment then if isPlain character then skipBlanks true rest else none
    else if isSpace character then skipBlanks false rest
    else if character == '#' then skipBlanks true rest
    else some (character :: rest)

def inBareKey (character : Char) : Bool :=
  character.isAlphanum || character == '_' || character == '-'

def keyPart : Reader String
  | '"' :: rest => lineQuoted ('"' :: rest)
  | '\'' :: rest => lineQuoted ('\'' :: rest)
  | characters =>
    match characters.takeWhile inBareKey with
    | [] => none
    | part => some (String.ofList part, characters.dropWhile inBareKey)

/-- Reads a dotted key with spaces around its parts; the number bounds the parts. -/
def dottedKey : Nat → Reader (List String × String)
  | 0, _ => none
  | bound + 1, characters => do
    let (part, rest) ← keyPart (skipSpaces characters)
    match skipSpaces rest with
    | '.' :: more =>
      let ((way, name), rest) ← dottedKey bound more
      some ((part :: way, name), rest)
    | rest => some (([], part), rest)

def assignment (value : Reader Value) : Reader ((List String × String) × Value) :=
    fun characters => do
  let (key, rest) ← dottedKey nesting characters
  match rest with
  | '=' :: rest =>
    let (found, rest) ← value (skipSpaces rest)
    some ((key, found), rest)
  | _ => none

/-- Reads the items of an array up to its closing bracket; the number bounds the items. -/
def arrayItems (value : Reader Value) : Nat → List Value → Reader (List Value)
  | 0, _, _ => none
  | bound + 1, found, characters => do
    match ← skipBlanks false characters with
    | ']' :: rest => some (found.reverse, rest)
    | characters =>
      let (item, rest) ← value characters
      match ← skipBlanks false rest with
      | ',' :: rest => arrayItems value bound (item :: found) rest
      | ']' :: rest => some ((item :: found).reverse, rest)
      | _ => none

/-- Reads the entries of an inline table from an assignment on; the number bounds them. -/
def inlineEntries (value : Reader Value) : Nat → Entries → Reader Entries
  | 0, _, _ => none
  | bound + 1, entries, characters => do
    let (((way, name), found), rest) ← assignment value characters
    let entries ← assign way name found entries
    match skipSpaces rest with
    | ',' :: rest => inlineEntries value bound entries rest
    | '}' :: rest => some (entries, rest)
    | _ => none

/-- Reads a value with containers up to the given depth. -/
def value : Nat → Reader Value
  | 0, characters =>
    match characters with
    | '"' :: _ => (quoted characters).map fun (content, rest) => (.text content, rest)
    | '\'' :: _ => (quoted characters).map fun (content, rest) => (.text content, rest)
    | _ => scalar characters
  | depth + 1, characters =>
    match characters with
    | '[' :: rest =>
      (arrayItems (value depth) (rest.length + 1) [] rest).map fun (items, rest) =>
        (.array false items, rest)
    | '{' :: rest =>
      match skipSpaces rest with
      | '}' :: rest => some (.table .inline [], rest)
      | _ =>
        (inlineEntries (value depth) (rest.length + 1) [] rest).map fun (entries, rest) =>
          (.table .inline entries, rest)
    | _ => value 0 characters

def statement : List Char → Option (Statement × List Char)
  | '[' :: '[' :: rest => do
    let ((way, name), rest) ← dottedKey nesting rest
    match rest with
    | ']' :: ']' :: rest => some (.element way name, ← skipLine rest)
    | _ => none
  | '[' :: rest => do
    let ((way, name), rest) ← dottedKey nesting rest
    match rest with
    | ']' :: rest => some (.header way name, ← skipLine rest)
    | _ => none
  | characters => do
    let (((way, name), found), rest) ← assignment (value nesting) characters
    some (.assign way name found, ← skipLine rest)

/-- Reads all statements; the number bounds the lines. -/
def statements : Nat → List Char → Option (List Statement)
  | 0, _ => none
  | bound + 1, characters => do
    match ← skipBlanks false characters with
    | [] => some []
    | characters =>
      let (first, rest) ← statement characters
      let others ← statements bound rest
      some (first :: others)

end VerilogInterface.Toml
