/-! Blank characters and the ways of cutting a text, at them or at a separating character. Every
trimming and every split into words in this library uses the same twenty-five characters. -/

namespace VerilogInterface.Text

/-- The blank characters are the tab, the line breaks, the space and the Unicode spaces and
separators. -/
def isBlank (character : Char) : Bool :=
  character = ' ' || ('\t' ≤ character && character ≤ '\r') ||
  character = '\u0085' || character = '\u00a0' || character = '\u1680' ||
  ('\u2000' ≤ character && character ≤ '\u200a') ||
  character = '\u2028' || character = '\u2029' || character = '\u202f' ||
  character = '\u205f' || character = '\u3000'

def trimRight (characters : List Char) : List Char :=
  (characters.reverse.dropWhile isBlank).reverse

def trimBoth (characters : List Char) : List Char :=
  trimRight (characters.dropWhile isBlank)

/-- The maximal runs of characters that are not blank, in order. -/
def wordRuns : List Char → List (List Char)
  | [] => []
  | character :: rest =>
    if isBlank character then wordRuns rest
    else match rest, wordRuns rest with
      | next :: _, word :: words =>
        if isBlank next then [character] :: word :: words else (character :: word) :: words
      | _, words => [character] :: words

def trim (text : String) : String := String.ofList (trimBoth text.toList)

def trimEnd (text : String) : String := String.ofList (trimRight text.toList)

def words (text : String) : List String := (wordRuns text.toList).map String.ofList

/-- A text is blank when nothing remains of it after trimming. -/
def isBlankText (text : String) : Bool := text.toList.all isBlank

/-- The words separated by single spaces, or nothing if there is no word. -/
def joinedWords (text : String) : Option String :=
  match words text with
  | [] => none
  | found => some (" ".intercalate found)

/-- The pieces between the occurrences of a character; there is always at least one piece. -/
def pieces (separator : Char) : List Char → List (List Char)
  | [] => [[]]
  | character :: rest =>
    if character = separator then [] :: pieces separator rest
    else match pieces separator rest with
      | [] => [[character]]
      | piece :: others => (character :: piece) :: others

/-- The text before and after the first occurrence of a character. -/
def cut? (separator : Char) : List Char → Option (List Char × List Char)
  | [] => none
  | character :: rest =>
    if character = separator then some ([], rest)
    else (cut? separator rest).map fun (before, after) => (character :: before, after)

/-- The text before and after the last occurrence of a character. -/
def cutLast? (separator : Char) (characters : List Char) : Option (List Char × List Char) :=
  (cut? separator characters.reverse).map fun (after, before) => (before.reverse, after.reverse)

def visibleBlank (character : Char) : String :=
  if character = '\t' then "\\t"
  else if character = '\n' then "\\n"
  else if character = '\r' then "\\r"
  else if isBlank character && character != ' ' then
    "\\u\x7b" ++ String.ofList (Nat.toDigits 16 character.toNat) ++ "\x7d"
  else character.toString

/-- The text between quotation marks, with every blank but the space made visible. -/
def quoteBlank (text : String) : String :=
  "\"" ++ String.join (text.toList.map visibleBlank) ++ "\""

end VerilogInterface.Text
