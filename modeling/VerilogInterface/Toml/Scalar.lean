import VerilogInterface.Text.Blank
import VerilogInterface.Toml.Quoted

/-! Values that are a single run of characters: booleans, integers, floats, dates and times. A run
is one of these as a whole or not a value. -/

namespace VerilogInterface.Toml

open Text

def decimal? (character : Char) : Option Nat :=
  if character.isDigit then some (character.toNat - '0'.toNat) else none

def octal? (character : Char) : Option Nat := (decimal? character).filter (· < 8)

def binary? (character : Char) : Option Nat := (decimal? character).filter (· < 2)

/-- Digits with single underscores between them. The flag tells whether the last character was a
digit. -/
def digitsFrom (digit? : Char → Option Nat) (afterDigit : Bool) : List Char → Option (List Nat)
  | [] => if afterDigit then some [] else none
  | character :: rest =>
    if character == '_' then if afterDigit then digitsFrom digit? false rest else none
    else do
      let digit ← digit? character
      let digits ← digitsFrom digit? true rest
      some (digit :: digits)

def digits? (digit? : Char → Option Nat) (characters : List Char) : Option (List Nat) :=
  digitsFrom digit? false characters

/-- The number that digits denote in a base. -/
def ofDigits (base : Nat) (digits : List Nat) : Nat :=
  digits.foldl (fun number digit => base * number + digit) 0

/-- Decimal digits that do not begin with a zero, unless they are a single zero. -/
def whole? (characters : List Char) : Option (List Nat) :=
  match characters, digits? decimal? characters with
  | '0' :: _ :: _, _ => none
  | _, digits => digits

def signed : List Char → Bool × List Char
  | '-' :: rest => (true, rest)
  | '+' :: rest => (false, rest)
  | characters => (false, characters)

/-- An integer of 64 bits. Other bases than ten take no sign. -/
def integer? (characters : List Char) : Option Int :=
  let within (amount : Int) : Option Int :=
    if -9223372036854775808 ≤ amount ∧ amount ≤ 9223372036854775807 then some amount else none
  match characters with
  | '0' :: 'x' :: rest => do within (ofDigits 16 (← digits? hexDigit? rest))
  | '0' :: 'o' :: rest => do within (ofDigits 8 (← digits? octal? rest))
  | '0' :: 'b' :: rest => do within (ofDigits 2 (← digits? binary? rest))
  | _ => do
    let (negative, rest) := signed characters
    let amount := ofDigits 10 (← whole? rest)
    within (if negative then -amount else amount)

/-- Whether a decimal number is too large for a float of 64 bits, that is, at least halfway between
the largest float and the power of two above it. -/
def exceedsFloat (number : Nat) (exponent : Int) : Bool :=
  let size : Int := (Nat.toDigits 10 number).length + exponent
  if number = 0 || size < 300 then false
  else if 320 < size then true
  else
    let bound := Nat.pow 2 1024 - Nat.pow 2 970
    if 0 ≤ exponent then bound ≤ number * Nat.pow 10 exponent.toNat
    else bound * Nat.pow 10 (-exponent).toNat ≤ number

/-- A float has a fraction, an exponent or both. Only positive ones can be too large. -/
def isFloat (characters : List Char) : Bool :=
  let (negative, rest) := signed characters
  if rest == "inf".toList || rest == "nan".toList then true
  else
    let (mantissa, exponent) :=
      match (cut? 'e' rest).or (cut? 'E' rest) with
      | some (before, after) => (before, some after)
      | none => (rest, none)
    let (front, fraction) :=
      match cut? '.' mantissa with
      | some (before, after) => (before, some after)
      | none => (mantissa, none)
    let read : Option Bool := do
      let front ← whole? front
      let fraction ← (fraction.map (digits? decimal?)).getD (some [])
      let (down, power) := signed (exponent.getD [])
      let power ← if exponent.isSome then digits? decimal? power else some []
      let scale : Int := if down then -(ofDigits 10 power : Int) else ofDigits 10 power
      some (negative ||
        !exceedsFloat (ofDigits 10 (front ++ fraction)) (scale - fraction.length))
    (fraction.isSome || exponent.isSome) && read.getD false

/-- A number of exactly so many digits within bounds. -/
def field? (width low high : Nat) (characters : List Char) : Option Nat := do
  let digits ← characters.mapM decimal?
  let number := ofDigits 10 digits
  if digits.length = width ∧ low ≤ number ∧ number ≤ high then some number else none

def daysIn (year month : Nat) : Nat :=
  if month = 2 then
    if year % 4 = 0 ∧ (year % 100 ≠ 0 ∨ year % 400 = 0) then 29 else 28
  else if month = 4 ∨ month = 6 ∨ month = 9 ∨ month = 11 then 30 else 31

/-- A day of the calendar: year, month and day with hyphens between them. -/
def isDate (characters : List Char) : Bool :=
  match pieces '-' characters with
  | [year, month, day] =>
    match field? 4 0 9999 year, field? 2 1 12 month, field? 2 1 31 day with
    | some year, some month, some day => day ≤ daysIn year month
    | _, _, _ => false
  | _ => false

def isClock (characters : List Char) : Bool :=
  match pieces ':' characters with
  | [hour, minute] => (field? 2 0 23 hour).isSome && (field? 2 0 59 minute).isSome
  | _ => false

/-- A time of day with seconds, among them leap seconds, and optional fractions of a second. -/
def isTime (characters : List Char) : Bool :=
  match pieces ':' characters with
  | [hour, minute, second] =>
    let (second, fraction) := (cut? '.' second).getD (second, ['0'])
    isClock (hour ++ ':' :: minute) && (field? 2 0 60 second).isSome &&
      !fraction.isEmpty && fraction.all Char.isDigit
  | _ => false

/-- A time of day with an offset from universal time, or without one. -/
def isOffsetTime (characters : List Char) : Bool :=
  isTime characters ||
    match characters.reverse with
    | 'Z' :: time => isTime time.reverse
    | 'z' :: time => isTime time.reverse
    | _ =>
      match (cut? '+' characters).or (cut? '-' characters) with
      | some (time, offset) => isTime time && isClock offset
      | none => false

def isMoment (characters : List Char) : Bool :=
  let (date, rest) := characters.splitAt 10
  isTime characters || isDate characters ||
    match rest with
    | separator :: time =>
      isDate date && (separator == 'T' || separator == 't' || separator == ' ') &&
        isOffsetTime time
    | [] => false

def scalar? (characters : List Char) : Option Value :=
  if characters == "true".toList then some (.boolean true)
  else if characters == "false".toList then some (.boolean false)
  else if isMoment characters then some (.moment (String.ofList characters))
  else if isFloat characters then some (.float (String.ofList characters))
  else (integer? characters).map .integer

def inScalar (character : Char) : Bool :=
  character.isAlphanum || character == '_' || character == '+' || character == '-' ||
    character == '.' || character == ':'

/-- Reads a run. After a date a single space may be followed by a time of the same run. -/
def scalar : Reader Value := fun characters =>
  let run := characters.takeWhile inScalar
  let rest := characters.dropWhile inScalar
  let (run, rest) :=
    match rest with
    | ' ' :: first :: second :: ':' :: more =>
      if isDate run && first.isDigit && second.isDigit then
        let time := first :: second :: ':' :: more
        (run ++ ' ' :: time.takeWhile inScalar, time.dropWhile inScalar)
      else (run, rest)
    | _ => (run, rest)
  (scalar? run).map (·, rest)

end VerilogInterface.Toml
