import VerilogInterface.Text.Word
import VerilogInterface.Text.Line

/-! Patterns over the characters that remain of a text, tried at its first character only.
Alternatives and repetitions are ordered choices: the search takes the first way of matching that
lets everything after it match too. A successful search ends further along the same text. -/

namespace VerilogInterface

open Text

/-- A way of matching the beginning of a text. -/
inductive Pattern where
  | nothing
  | one (accept : Char → Bool)
  | literal (characters : List Char)
  /-- Takes accepted characters, preferring to take as many as possible. -/
  | most (accept : Char → Bool)
  /-- Takes accepted characters, preferring to take as few as possible. -/
  | fewest (accept : Char → Bool)
  | andThen (first second : Pattern)
  /-- The first pattern if possible, otherwise the second. -/
  | orElse (first second : Pattern)
  /-- The pattern again and again, preferring more rounds; a round that takes nothing is refused. -/
  | rounds (body : Pattern)
  /-- Remembers what the pattern took under the given index. -/
  | capture (index : Nat) (body : Pattern)
  /-- Holds where exactly one of the two neighbouring characters is a word character. -/
  | wordEdge
  | textEnd

namespace Pattern

/-- At least one accepted character. -/
def run (accept : Char → Bool) : Pattern := .andThen (.one accept) (.most accept)

/-- The pattern if possible, otherwise nothing. -/
def optional (body : Pattern) : Pattern := .orElse body .nothing

def sequence : List Pattern → Pattern
  | [] => .nothing
  | [last] => last
  | first :: others => .andThen first (sequence others)

/-- The first of the patterns that is possible. -/
def oneOf : List Pattern → Pattern
  | [] => .one fun _ => false
  | [last] => last
  | first :: others => .orElse first (oneOf others)

def exactly (text : String) : Pattern := .literal text.toList

def captureCount : Pattern → Nat
  | .andThen first second => first.captureCount + second.captureCount
  | .orElse first second => first.captureCount + second.captureCount
  | .rounds body => body.captureCount
  | .capture _ body => body.captureCount + 1
  | _ => 0

/-- How far a search has come: the character just taken, if any, the bytes taken so far, and the
characters that remain. For each capture that was made it keeps the characters from the beginning
of the capture on and the number of bytes captured. -/
structure Cursor where
  previous : Option Char
  taken : Nat
  rest : List Char
  captures : List (Option (List Char × Nat))

namespace Cursor

def advance (cursor : Cursor) (character : Char) (rest : List Char) : Cursor :=
  { cursor with previous := some character, taken := cursor.taken + character.utf8Size, rest }

/-- Moves past the given characters if they are the next ones. -/
def literal? (cursor : Cursor) : List Char → Option Cursor
  | [] => some cursor
  | expected :: others =>
    match cursor.rest with
    | [] => none
    | character :: rest =>
      if character = expected then (cursor.advance character rest).literal? others else none

/-- The cursors reached by taking accepted characters one by one, the furthest first. The second
argument lists the characters that remain. -/
def furthestFirst (accept : Char → Bool) (cursor : Cursor) : List Char → List Cursor → List Cursor
  | [], passed => cursor :: passed
  | character :: rest, passed =>
    if accept character then
      (cursor.advance character rest).furthestFirst accept rest (cursor :: passed)
    else cursor :: passed

/-- Tries the continuation at each cursor reached by taking accepted characters one by one, the
nearest first. The second argument lists the characters that remain. -/
def nearestFirst (accept : Char → Bool) (continuation : Cursor → Option Cursor)
    (cursor : Cursor) : List Char → Option Cursor
  | [] => continuation cursor
  | character :: rest =>
    match continuation cursor with
    | some last => some last
    | none =>
      if accept character then
        (cursor.advance character rest).nearestFirst accept continuation rest
      else none

/-- A word edge lies between a word character and anything else; the ends of the text count as
something else, and so does whatever stands before the beginning. -/
def atWordEdge (cursor : Cursor) : Bool :=
  (match cursor.previous with | some character => isWord character | none => false) !=
    (match cursor.rest with | character :: _ => isWord character | [] => false)

def remember (cursor : Cursor) (index : Nat) (since : Cursor) : Cursor :=
  { cursor with
    captures := cursor.captures.set index (some (since.rest, cursor.taken - since.taken)) }

end Cursor

/-- Rounds of a step, as many as possible first. The number bounds the rounds. -/
def searchRounds (step : Cursor → (Cursor → Option Cursor) → Option Cursor) :
    Nat → Cursor → (Cursor → Option Cursor) → Option Cursor
  | 0, cursor, continuation => continuation cursor
  | bound + 1, cursor, continuation =>
    match step cursor fun next =>
        if cursor.taken < next.taken then searchRounds step bound next continuation else none with
    | some last => some last
    | none => continuation cursor

/-- Searches for the first way of matching after which the continuation succeeds, and gives what
the continuation gives. -/
def search : Pattern → Cursor → (Cursor → Option Cursor) → Option Cursor
  | .nothing, cursor, continuation => continuation cursor
  | .one accept, cursor, continuation =>
    match cursor.rest with
    | [] => none
    | character :: rest =>
      if accept character then continuation (cursor.advance character rest) else none
  | .literal characters, cursor, continuation => (cursor.literal? characters).bind continuation
  | .most accept, cursor, continuation =>
    (cursor.furthestFirst accept cursor.rest []).findSome? continuation
  | .fewest accept, cursor, continuation => cursor.nearestFirst accept continuation cursor.rest
  | .andThen first second, cursor, continuation =>
    first.search cursor fun next => second.search next continuation
  | .orElse first second, cursor, continuation =>
    match first.search cursor continuation with
    | some last => some last
    | none => second.search cursor continuation
  | .rounds body, cursor, continuation =>
    searchRounds body.search cursor.rest.length cursor continuation
  | .capture index body, cursor, continuation =>
    body.search cursor fun next => continuation (next.remember index cursor)
  | .wordEdge, cursor, continuation => if cursor.atWordEdge then continuation cursor else none
  | .textEnd, cursor, continuation => if cursor.rest.isEmpty then continuation cursor else none

/-- A successful match: the bytes it took, the characters that remain, and the captured texts. -/
structure Match where
  taken : Nat
  rest : List Char
  groups : List (Option String)

def start (pattern : Pattern) (characters : List Char) : Cursor :=
  { previous := none, taken := 0, rest := characters,
    captures := List.replicate pattern.captureCount none }

def match? (pattern : Pattern) (characters : List Char) : Option Match :=
  (pattern.search (pattern.start characters) some).map fun last =>
    { taken := last.taken, rest := last.rest,
      groups := last.captures.map fun capture =>
        capture.map fun (characters, bytes) => String.ofList (firstBytes bytes characters) }

namespace Cursor

/-- One cursor lies ahead of another by the characters taken in between. -/
def Ahead (before after : Cursor) : Prop :=
  ∃ taken, before.rest = taken ++ after.rest ∧ after.taken = before.taken + byteCount taken

theorem Ahead.refl (cursor : Cursor) : cursor.Ahead cursor := ⟨[], rfl, rfl⟩

theorem Ahead.trans {first second third : Cursor} (one : first.Ahead second)
    (two : second.Ahead third) : first.Ahead third := by
  obtain ⟨before, rest, taken⟩ := one
  obtain ⟨after, rest', taken'⟩ := two
  exact ⟨before ++ after, by rw [rest, rest', List.append_assoc],
    by rw [taken', taken, byteCount_append, Nat.add_assoc]⟩

theorem ahead_advance {cursor : Cursor} {character : Char} {rest : List Char}
    (remaining : cursor.rest = character :: rest) :
    cursor.Ahead (cursor.advance character rest) :=
  ⟨[character], remaining, rfl⟩

theorem ahead_literal {characters : List Char} {cursor next : Cursor}
    (found : cursor.literal? characters = some next) : cursor.Ahead next := by
  induction characters generalizing cursor with
  | nil => exact Option.some.inj found ▸ Ahead.refl cursor
  | cons expected others ih =>
    rw [literal?] at found
    split at found
    · contradiction
    · next remaining =>
      split at found
      · exact (ahead_advance remaining).trans (ih found)
      · contradiction

theorem ahead_furthestFirst {accept : Char → Bool} {rest : List Char} {cursor next : Cursor}
    {passed : List Cursor} (remaining : cursor.rest = rest)
    (reached : next ∈ cursor.furthestFirst accept rest passed) :
    cursor.Ahead next ∨ next ∈ passed := by
  induction rest generalizing cursor passed with
  | nil =>
    rcases List.mem_cons.1 reached with rfl | old
    · exact .inl (.refl next)
    · exact .inr old
  | cons character rest ih =>
    rw [furthestFirst] at reached
    split at reached
    · rcases ih rfl reached with ahead | old
      · exact .inl ((ahead_advance remaining).trans ahead)
      · rcases List.mem_cons.1 old with rfl | older
        · exact .inl (.refl next)
        · exact .inr older
    · rcases List.mem_cons.1 reached with rfl | old
      · exact .inl (.refl next)
      · exact .inr old

theorem ahead_nearestFirst {accept : Char → Bool} {continuation : Cursor → Option Cursor}
    {rest : List Char} {cursor last : Cursor} (remaining : cursor.rest = rest)
    (found : cursor.nearestFirst accept continuation rest = some last) :
    ∃ next, cursor.Ahead next ∧ continuation next = some last := by
  induction rest generalizing cursor with
  | nil => exact ⟨cursor, .refl cursor, found⟩
  | cons character rest ih =>
    rw [nearestFirst] at found
    split at found
    · next here => exact ⟨cursor, .refl cursor, here.trans found⟩
    · split at found
      · obtain ⟨next, ahead, succeeds⟩ := ih rfl found
        exact ⟨next, (ahead_advance remaining).trans ahead, succeeds⟩
      · contradiction

end Cursor

private theorem searchRounds_ahead
    {step : Cursor → (Cursor → Option Cursor) → Option Cursor}
    (moves : ∀ {cursor continuation last}, step cursor continuation = some last →
      ∃ next, cursor.Ahead next ∧ continuation next = some last)
    {bound : Nat} {cursor last : Cursor} {continuation : Cursor → Option Cursor}
    (found : searchRounds step bound cursor continuation = some last) :
    ∃ next, cursor.Ahead next ∧ continuation next = some last := by
  induction bound generalizing cursor with
  | zero => exact ⟨cursor, .refl cursor, found⟩
  | succ bound ih =>
    rw [searchRounds] at found
    split at found
    · next round =>
      obtain ⟨next, ahead, again⟩ := moves round
      split at again
      · obtain ⟨further, ahead', succeeds⟩ := ih (again.trans found)
        exact ⟨further, ahead.trans ahead', succeeds⟩
      · contradiction
    · exact ⟨cursor, .refl cursor, found⟩

/-- A search succeeds only through a cursor further along the same text. -/
theorem search_ahead {pattern : Pattern} {cursor last : Cursor}
    {continuation : Cursor → Option Cursor}
    (found : pattern.search cursor continuation = some last) :
    ∃ next, cursor.Ahead next ∧ continuation next = some last := by
  induction pattern generalizing cursor last continuation with
  | nothing => exact ⟨cursor, .refl cursor, found⟩
  | one accept =>
    rw [search] at found
    split at found
    · contradiction
    · next remaining =>
      split at found
      · exact ⟨_, Cursor.ahead_advance remaining, found⟩
      · contradiction
  | literal characters =>
    obtain ⟨next, reached, succeeds⟩ := Option.bind_eq_some_iff.1 found
    exact ⟨next, Cursor.ahead_literal reached, succeeds⟩
  | most accept =>
    obtain ⟨next, reached, succeeds⟩ := List.exists_of_findSome?_eq_some found
    rcases Cursor.ahead_furthestFirst rfl reached with ahead | old
    · exact ⟨next, ahead, succeeds⟩
    · contradiction
  | fewest accept => exact Cursor.ahead_nearestFirst rfl found
  | andThen first second ihFirst ihSecond =>
    obtain ⟨middle, ahead, onward⟩ := ihFirst found
    obtain ⟨next, ahead', succeeds⟩ := ihSecond onward
    exact ⟨next, ahead.trans ahead', succeeds⟩
  | orElse first second ihFirst ihSecond =>
    rw [search] at found
    split at found
    · next chosen =>
      obtain ⟨next, ahead, succeeds⟩ := ihFirst chosen
      exact ⟨next, ahead, succeeds.trans found⟩
    · exact ihSecond found
  | rounds body ih => exact searchRounds_ahead ih found
  | capture index body ih =>
    obtain ⟨next, ahead, succeeds⟩ := ih found
    exact ⟨next.remember index cursor, ahead, succeeds⟩
  | wordEdge =>
    rw [search] at found
    split at found
    · exact ⟨cursor, .refl cursor, found⟩
    · contradiction
  | textEnd =>
    rw [search] at found
    split at found
    · exact ⟨cursor, .refl cursor, found⟩
    · contradiction

/-- A match splits the text into the bytes it took and the characters that remain. -/
theorem match?_splits {pattern : Pattern} {characters : List Char} {found : Match}
    (matched : pattern.match? characters = some found) :
    ∃ taken, characters = taken ++ found.rest ∧ found.taken = byteCount taken := by
  obtain ⟨last, searched, rfl⟩ := Option.map_eq_some_iff.1 matched
  obtain ⟨next, ⟨taken, rest, bytes⟩, reached⟩ := search_ahead searched
  cases reached
  exact ⟨taken, rest, bytes.trans (Nat.zero_add _)⟩

end Pattern

end VerilogInterface
