import VerilogInterface.Proofs.TokenRun

/-! A text that stands behind another one. Its offsets grow by the bytes in front of it and its lines
by the line breaks in front of it; nothing else about its tokens and errors changes. -/

namespace VerilogInterface

namespace Text

def lineBreaks (text : String) : Nat := text.toList.count '\n'

theorem byteCount_toList (text : String) : byteCount text.toList = text.utf8ByteSize := by
  have all (characters : List Char) :
      byteCount characters = (String.ofList characters).utf8ByteSize := by
    induction characters with
    | nil => rfl
    | cons character rest ih =>
      have split : String.ofList (character :: rest) =
          String.singleton character ++ String.ofList rest := by
        rw [← String.toList_inj]
        simp
      rw [byteCount, ih, split, String.utf8ByteSize_append, String.utf8ByteSize_singleton]
  simpa using all text.toList

theorem lineFrom_add (line more : Nat) (characters : List Char) (bytes : Nat) :
    lineFrom (line + more) characters bytes = lineFrom line characters bytes + more := by
  induction characters generalizing line bytes with
  | nil => rfl
  | cons character rest ih =>
    rw [lineFrom, lineFrom]
    by_cases reached : bytes = 0
    · rw [if_pos reached, if_pos reached]
    · rw [if_neg reached, if_neg reached]
      by_cases lineBreak : character = '\n'
      · rw [if_pos lineBreak, if_pos lineBreak, Nat.add_right_comm, ih]
      · rw [if_neg lineBreak, if_neg lineBreak, ih]

theorem lineFrom_append (line : Nat) (before after : List Char) (bytes : Nat) :
    lineFrom line (before ++ after) (byteCount before + bytes) =
      lineFrom (line + before.count '\n') after bytes := by
  induction before generalizing line with
  | nil => rw [List.nil_append, byteCount, Nat.zero_add, List.count_nil, Nat.add_zero]
  | cons character before ih =>
    have positive := character.utf8Size_pos
    have further : character.utf8Size + byteCount before + bytes ≠ 0 := by omega
    have onward : character.utf8Size + byteCount before + bytes - character.utf8Size =
        byteCount before + bytes := by omega
    rw [List.cons_append, byteCount, lineFrom, if_neg further, onward, ih, List.count_cons]
    by_cases lineBreak : character = '\n'
    · rw [if_pos lineBreak, if_pos (beq_iff_eq.2 lineBreak), Nat.add_right_comm, Nat.add_assoc]
    · rw [if_neg lineBreak, if_neg (mt beq_iff_eq.1 lineBreak), Nat.add_zero]

theorem lineFrom_zero (line : Nat) (characters : List Char) :
    lineFrom line characters 0 = line := by
  cases characters <;> rfl

theorem lineAt_byteCount {text : String} {passed rest : List Char}
    (split : text.toList = passed ++ rest) :
    lineAt text (byteCount passed) = 1 + passed.count '\n' := by
  rw [lineAt, split, ← Nat.add_zero (byteCount passed), lineFrom_append, lineFrom_zero]

/-- Lines are counted on from the text in front. -/
theorem lineAt_append (first second : String) (offset : Nat) :
    lineAt (first ++ second) (offset + first.utf8ByteSize) =
      lineAt second offset + lineBreaks first := by
  rw [lineAt, String.toList_append, ← byteCount_toList, Nat.add_comm, lineFrom_append, lineFrom_add]
  rfl

end Text

def Token.moved (bytes : Nat) (token : Token) : Token :=
  { token with offset := token.offset + bytes, stop := token.stop + bytes }

namespace ParseError

def moved (bytes lines : Nat) : ParseError → ParseError
  | lexical state offset line => lexical state (offset + bytes) (line + lines)
  | stateUnderflow offset line => stateUnderflow (offset + bytes) (line + lines)
  | unmatchedEndif line => unmatchedEndif (line + lines)
  | unterminatedGuard guard line => unterminatedGuard guard (line + lines)
  | unknownPortFormat direction head line => unknownPortFormat direction head (line + lines)

def behind (first : String) (error : ParseError) : ParseError :=
  error.moved first.utf8ByteSize (Text.lineBreaks first)

end ParseError

def ScanError.moved (bytes : Nat) : ScanError → ScanError
  | noRule state offset => noRule state (offset + bytes)
  | underflow offset => underflow (offset + bytes)

theorem ScanError.within_append (first second : String) (error : ScanError) :
    (error.moved first.utf8ByteSize).within (first ++ second) =
      (error.within second).behind first := by
  cases error with
  | noRule state offset =>
    rw [moved, within, Text.lineAt_append]
    rfl
  | underflow offset =>
    rw [moved, within, Text.lineAt_append]
    rfl

end VerilogInterface
