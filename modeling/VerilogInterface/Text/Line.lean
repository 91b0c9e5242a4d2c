/-! Lines and byte counts. Offsets count the bytes of the text's UTF-8 form, and the line of an
offset is one more than the number of line breaks before it. -/

namespace VerilogInterface.Text

/-- The number of bytes that the characters take in UTF-8. -/
def byteCount : List Char → Nat
  | [] => 0
  | character :: rest => character.utf8Size + byteCount rest

theorem byteCount_append (first second : List Char) :
    byteCount (first ++ second) = byteCount first + byteCount second := by
  induction first with
  | nil => exact (Nat.zero_add _).symm
  | cons character rest ih =>
    rw [List.cons_append, byteCount, ih, byteCount, Nat.add_assoc]

theorem byteCount_pos {characters : List Char} (nonempty : characters ≠ []) :
    0 < byteCount characters := by
  cases characters with
  | nil => exact (nonempty rfl).elim
  | cons character rest =>
    have positive := character.utf8Size_pos
    rw [byteCount]
    omega

/-- The leading characters that make up the given number of bytes. -/
def firstBytes : Nat → List Char → List Char
  | _, [] => []
  | bytes, character :: rest =>
    if bytes = 0 then [] else character :: firstBytes (bytes - character.utf8Size) rest

theorem firstBytes_append (first second : List Char) :
    firstBytes (byteCount first) (first ++ second) = first := by
  induction first with
  | nil => cases second <;> rfl
  | cons character rest ih =>
    have positive := character.utf8Size_pos
    rw [List.cons_append, firstBytes, if_neg (by rw [byteCount]; omega), byteCount,
      Nat.add_sub_cancel_left, ih]

/-- The line reached after the given number of bytes, starting from the given line. -/
def lineFrom (line : Nat) : List Char → Nat → Nat
  | [], _ => line
  | character :: rest, bytes =>
    if bytes = 0 then line
    else lineFrom (if character = '\n' then line + 1 else line) rest (bytes - character.utf8Size)

/-- The line of an offset; past the end it is the line of the end. -/
def lineAt (text : String) (offset : Nat) : Nat := lineFrom 1 text.toList offset

end VerilogInterface.Text
