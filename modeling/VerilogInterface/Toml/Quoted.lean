import VerilogInterface.Toml.Value

/-! Quoted strings. Between quotation marks a backslash begins an escape, between apostrophes every
character stands for itself; three marks on either side allow line breaks. Line breaks are single
characters here. -/

namespace VerilogInterface.Toml

/-- The characters of strings and comments: the tab and everything that is not a control character
of ASCII. -/
def isPlain (character : Char) : Bool :=
  character == '\t' || (' ' ≤ character && character != '\x7f')

def isSpace (character : Char) : Bool := character == ' ' || character == '\t'

def hexDigit? (character : Char) : Option Nat :=
  if character.isDigit then some (character.toNat - '0'.toNat)
  else if 'a' ≤ character && character ≤ 'f' then some (character.toNat - 'a'.toNat + 10)
  else if 'A' ≤ character && character ≤ 'F' then some (character.toNat - 'A'.toNat + 10)
  else none

/-- The character of a code point, unless it is a surrogate or too large. -/
def character? (code : Nat) : Option Char :=
  if code.isValidChar then some (Char.ofNat code) else none

/-- Where the reading of a string stands. -/
inductive Progress where
  /-- Between characters, after this many closing marks. -/
  | between (marks : Nat)
  /-- After a backslash. -/
  | escape
  /-- Inside the number of an escape: digits still to come, and the value of those read. -/
  | code (digits value : Nat)
  /-- After a backslash and spaces, before the line break that must follow. -/
  | beforeBreak
  /-- Among the blanks that a backslash before a line break removes. -/
  | afterBreak
deriving DecidableEq, Repr

/-- The characters read so far come last first. -/
abbrev Reading := Progress × List Char

/-- Takes the character after a backslash. -/
def escaped (lines : Bool) (read : List Char) : Char → Option Reading
  | 'b' => some (.between 0, '\x08' :: read)
  | 't' => some (.between 0, '\t' :: read)
  | 'n' => some (.between 0, '\n' :: read)
  | 'f' => some (.between 0, '\x0c' :: read)
  | 'r' => some (.between 0, '\r' :: read)
  | '"' => some (.between 0, '"' :: read)
  | '\\' => some (.between 0, '\\' :: read)
  | 'u' => some (.code 4 0, read)
  | 'U' => some (.code 8 0, read)
  | '\n' => if lines then some (.afterBreak, read) else none
  | character => if lines && isSpace character then some (.beforeBreak, read) else none

/-- Takes a character that is neither a closing mark nor part of an escape. -/
def ordinary (escapes lines : Bool) (read : List Char) (character : Char) : Option Reading :=
  if escapes && character == '\\' then some (.escape, read)
  else if isPlain character || (lines && character == '\n') then
    some (.between 0, character :: read)
  else none

/-- Takes one character that does not end the string. -/
def proceed (escapes lines : Bool) (progress : Progress) (read : List Char) (character : Char) :
    Option Reading :=
  match progress with
  | .between _ => ordinary escapes lines read character
  | .escape => escaped lines read character
  | .code digits value => do
    let digit ← hexDigit? character
    match digits with
    | 0 => none
    | 1 => some (.between 0, (← character? (16 * value + digit)) :: read)
    | rest + 1 => some (.code rest (16 * value + digit), read)
  | .beforeBreak =>
    if isSpace character then some (.beforeBreak, read)
    else if character == '\n' then some (.afterBreak, read)
    else none
  | .afterBreak =>
    if isSpace character || character == '\n' then some (.afterBreak, read)
    else ordinary escapes lines read character

/-- Whether a mark at this point counts towards the end of the string, and how many did before. -/
def marksBefore? : Progress → Option Nat
  | .between marks => some marks
  | .afterBreak => some 0
  | _ => none

/-- Reads the rest of a string that ends with its first mark. -/
def lineString (mark : Char) (escapes : Bool) (progress : Progress) (read : List Char) :
    Reader String
  | [] => none
  | character :: rest =>
    if character == mark && (marksBefore? progress).isSome then
      some (String.ofList read.reverse, rest)
    else
      match proceed escapes false progress read character with
      | none => none
      | some (progress, read) => lineString mark escapes progress read rest

/-- Reads the rest of a string that ends with three marks; up to two more before them belong to the
string. -/
def blockString (mark : Char) (escapes : Bool) (progress : Progress) (read : List Char) :
    Reader String
  | [] =>
    match marksBefore? progress with
    | some marks =>
      if 3 ≤ marks then some (String.ofList (read.drop 3).reverse, []) else none
    | none => none
  | character :: rest =>
    match marksBefore? progress with
    | some marks =>
      if character == mark then
        if marks < 5 then blockString mark escapes (.between (marks + 1)) (mark :: read) rest
        else none
      else if 3 ≤ marks then some (String.ofList (read.drop 3).reverse, character :: rest)
      else
        match proceed escapes true progress read character with
        | none => none
        | some (progress, read) => blockString mark escapes progress read rest
    | none =>
      match proceed escapes true progress read character with
      | none => none
      | some (progress, read) => blockString mark escapes progress read rest

def withoutBreak : List Char → List Char
  | '\n' :: rest => rest
  | characters => characters

def lineQuoted : Reader String
  | '"' :: rest => lineString '"' true (.between 0) [] rest
  | '\'' :: rest => lineString '\'' false (.between 0) [] rest
  | _ => none

def quoted : Reader String
  | '"' :: '"' :: '"' :: rest => blockString '"' true (.between 0) [] (withoutBreak rest)
  | '\'' :: '\'' :: '\'' :: rest => blockString '\'' false (.between 0) [] (withoutBreak rest)
  | characters => lineQuoted characters

end VerilogInterface.Toml
