import VerilogInterface.Grammar.Verilog

/-! What a pattern can match, whichever way the search prefers. A search that succeeds has taken
such a match, and nothing else has become of the captures than what the match wrote. -/

namespace VerilogInterface.Pattern

open Text

abbrev Writes := List (Nat × String)

def Writes.apply (writes : Writes) (groups : List (Option String)) : List (Option String) :=
  writes.foldl (fun groups (index, text) => groups.set index (some text)) groups

theorem Writes.apply_append (first second : Writes) (groups : List (Option String)) :
    Writes.apply (first ++ second) groups = Writes.apply second (Writes.apply first groups) :=
  List.foldl_append

def captured (capture : Option (List Char × Nat)) : Option String :=
  capture.map fun capture => String.ofList (firstBytes capture.2 capture.1)

namespace Cursor

/-- One cursor is reached from another by taking these characters, with this much remaining, and
writing these captures. -/
structure Moves (cursor : Cursor) (taken rest : List Char) (writes : Writes) (next : Cursor) :
    Prop where
  source : cursor.rest = taken ++ rest
  rest : next.rest = rest
  bytes : next.taken = cursor.taken + byteCount taken
  previous : next.previous = taken.getLast?.or cursor.previous
  groups : next.captures.map captured = writes.apply (cursor.captures.map captured)

namespace Moves

variable {cursor middle next : Cursor} {taken more rest : List Char} {writes others : Writes}

theorem refl (cursor : Cursor) : cursor.Moves [] cursor.rest [] cursor :=
  ⟨rfl, rfl, rfl, rfl, rfl⟩

theorem trans (one : cursor.Moves taken (more ++ rest) writes middle)
    (two : middle.Moves more rest others next) :
    cursor.Moves (taken ++ more) rest (writes ++ others) next where
  source := by rw [one.source, List.append_assoc]
  rest := two.rest
  bytes := by rw [two.bytes, one.bytes, byteCount_append, Nat.add_assoc]
  previous := by rw [two.previous, one.previous, List.getLast?_append, Option.or_assoc]
  groups := by rw [two.groups, one.groups, Writes.apply_append]

theorem advance {character : Char} (remaining : cursor.rest = character :: rest) :
    cursor.Moves [character] rest [] (cursor.advance character rest) :=
  ⟨remaining, rfl, rfl, rfl, rfl⟩

theorem remember (moves : cursor.Moves taken rest writes next) (index : Nat) :
    cursor.Moves taken rest (writes ++ [(index, String.ofList taken)])
      (next.remember index cursor) where
  source := moves.source
  rest := moves.rest
  bytes := moves.bytes
  previous := moves.previous
  groups := by
    have text : firstBytes (next.taken - cursor.taken) cursor.rest = taken := by
      rw [moves.bytes, Nat.add_sub_cancel_left, moves.source, firstBytes_append]
    rw [Cursor.remember, List.map_set, moves.groups, Writes.apply_append, captured, Option.map_some,
      text]
    rfl

theorem literal {characters : List Char} (found : cursor.literal? characters = some next) :
    ∃ rest, cursor.Moves characters rest [] next := by
  induction characters generalizing cursor with
  | nil =>
    cases found
    exact ⟨_, .refl _⟩
  | cons expected others ih =>
    rw [literal?] at found
    split at found
    · contradiction
    · next character rest remaining =>
      split at found
      · next same =>
        obtain ⟨rest, moves⟩ := ih found
        have source : _ = others ++ rest := moves.source
        cases same
        cases source
        exact ⟨rest, (advance remaining).trans moves⟩
      · contradiction

theorem furthestFirst {accept : Char → Bool} {remaining : List Char} {passed : List Cursor}
    (source : cursor.rest = remaining)
    (reached : next ∈ cursor.furthestFirst accept remaining passed) :
    next ∈ passed ∨ ∃ taken rest, cursor.Moves taken rest [] next ∧
      ∀ character ∈ taken, accept character = true := by
  induction remaining generalizing cursor passed with
  | nil =>
    rcases List.mem_cons.1 reached with rfl | old
    · exact .inr ⟨[], _, .refl next, by simp⟩
    · exact .inl old
  | cons character remaining ih =>
    have here (member : next ∈ cursor :: passed) :
        next ∈ passed ∨ ∃ taken rest, cursor.Moves taken rest [] next ∧
          ∀ character ∈ taken, accept character = true := by
      rcases List.mem_cons.1 member with rfl | old
      · exact .inr ⟨[], _, .refl next, by simp⟩
      · exact .inl old
    rw [Cursor.furthestFirst] at reached
    split at reached
    · next accepted =>
      rcases ih rfl reached with old | ⟨taken, rest, moves, all⟩
      · exact here old
      · have split : remaining = taken ++ rest := moves.source
        cases split
        exact .inr ⟨character :: taken, rest, (advance source).trans moves,
          List.forall_mem_cons.2 ⟨accepted, all⟩⟩
    · exact here reached

theorem nearestFirst {accept : Char → Bool} {continuation : Cursor → Option Cursor}
    {remaining : List Char} {last : Cursor} (source : cursor.rest = remaining)
    (found : cursor.nearestFirst accept continuation remaining = some last) :
    ∃ taken rest next, cursor.Moves taken rest [] next ∧
      (∀ character ∈ taken, accept character = true) ∧ continuation next = some last := by
  induction remaining generalizing cursor with
  | nil => exact ⟨[], _, cursor, .refl cursor, by simp, found⟩
  | cons character remaining ih =>
    rw [Cursor.nearestFirst] at found
    split at found
    · next succeeds => exact ⟨[], _, cursor, .refl cursor, by simp, succeeds.trans found⟩
    · split at found
      · next accepted =>
        obtain ⟨taken, rest, next, moves, all, succeeds⟩ := ih rfl found
        have split : remaining = taken ++ rest := moves.source
        cases split
        exact ⟨character :: taken, rest, next, (advance source).trans moves,
          List.forall_mem_cons.2 ⟨accepted, all⟩, succeeds⟩
      · contradiction

end Moves

end Cursor

theorem Cursor.atWordEdge_iff (cursor : Cursor) :
    cursor.atWordEdge = true ↔ cursor.previous.any isWord ≠ cursor.rest.head?.any isWord := by
  unfold atWordEdge
  cases cursor.previous <;> cases cursor.rest <;> simp

/-- The pattern can take these characters behind the given one and in front of the given rest, and
writes these captures then. -/
inductive Takes : Pattern → Option Char → List Char → List Char → Writes → Prop where
  | nothing {previous : Option Char} {rest : List Char} : Takes .nothing previous [] rest []
  | one {accept : Char → Bool} {character : Char} {previous : Option Char} {rest : List Char}
      (accepted : accept character = true) : Takes (.one accept) previous [character] rest []
  | literal {characters : List Char} {previous : Option Char} {rest : List Char} :
      Takes (.literal characters) previous characters rest []
  | most {accept : Char → Bool} {taken : List Char} {previous : Option Char} {rest : List Char}
      (accepted : ∀ character ∈ taken, accept character = true) :
      Takes (.most accept) previous taken rest []
  | fewest {accept : Char → Bool} {taken : List Char} {previous : Option Char} {rest : List Char}
      (accepted : ∀ character ∈ taken, accept character = true) :
      Takes (.fewest accept) previous taken rest []
  | andThen {first second : Pattern} {previous : Option Char} {taken more rest : List Char}
      {writes others : Writes} (one : Takes first previous taken (more ++ rest) writes)
      (two : Takes second (taken.getLast?.or previous) more rest others) :
      Takes (.andThen first second) previous (taken ++ more) rest (writes ++ others)
  | former {first second : Pattern} {previous : Option Char} {taken rest : List Char}
      {writes : Writes} (one : Takes first previous taken rest writes) :
      Takes (.orElse first second) previous taken rest writes
  | latter {first second : Pattern} {previous : Option Char} {taken rest : List Char}
      {writes : Writes} (two : Takes second previous taken rest writes) :
      Takes (.orElse first second) previous taken rest writes
  | noRound {body : Pattern} {previous : Option Char} {rest : List Char} :
      Takes (.rounds body) previous [] rest []
  | round {body : Pattern} {previous : Option Char} {taken more rest : List Char}
      {writes others : Writes} (one : Takes body previous taken (more ++ rest) writes)
      (again : Takes (.rounds body) (taken.getLast?.or previous) more rest others) :
      Takes (.rounds body) previous (taken ++ more) rest (writes ++ others)
  | capture {index : Nat} {body : Pattern} {previous : Option Char} {taken rest : List Char}
      {writes : Writes} (inner : Takes body previous taken rest writes) :
      Takes (.capture index body) previous taken rest
        (writes ++ [(index, String.ofList taken)])
  | wordEdge {previous : Option Char} {rest : List Char}
      (edge : previous.any isWord ≠ rest.head?.any isWord) : Takes .wordEdge previous [] rest []
  | textEnd {previous : Option Char} : Takes .textEnd previous [] [] []

variable {pattern body first second : Pattern} {cursor last : Cursor}
  {continuation : Cursor → Option Cursor} {previous : Option Char} {taken rest : List Char}
  {writes : Writes}

private theorem searchRounds_takes
    (moves : ∀ {cursor continuation last}, body.search cursor continuation = some last →
      ∃ taken rest writes next, body.Takes cursor.previous taken rest writes ∧
        cursor.Moves taken rest writes next ∧ continuation next = some last)
    {bound : Nat}
    (found : searchRounds body.search bound cursor continuation = some last) :
    ∃ taken rest writes next, (Pattern.rounds body).Takes cursor.previous taken rest writes ∧
      cursor.Moves taken rest writes next ∧ continuation next = some last := by
  induction bound generalizing cursor with
  | zero => exact ⟨[], _, [], cursor, .noRound, .refl cursor, found⟩
  | succ bound ih =>
    rw [searchRounds] at found
    split at found
    · next round =>
      obtain ⟨taken, rest, writes, middle, takes, moved, again⟩ := moves round
      split at again
      · obtain ⟨more, rest', others, next, more_takes, moved', succeeds⟩ := ih (again.trans found)
        have split : rest = more ++ rest' := moved.rest.symm.trans moved'.source
        cases split
        rw [moved.previous] at more_takes
        exact ⟨_, _, _, next, .round takes more_takes, moved.trans moved', succeeds⟩
      · contradiction
    · exact ⟨[], _, [], cursor, .noRound, .refl cursor, found⟩

/-- A search succeeds only through a match of its pattern. -/
theorem search_takes (found : pattern.search cursor continuation = some last) :
    ∃ taken rest writes next, pattern.Takes cursor.previous taken rest writes ∧
      cursor.Moves taken rest writes next ∧ continuation next = some last := by
  induction pattern generalizing cursor last continuation with
  | nothing => exact ⟨[], _, [], cursor, .nothing, .refl cursor, found⟩
  | one accept =>
    rw [search] at found
    split at found
    · contradiction
    · next character rest remaining =>
      split at found
      · next accepted => exact ⟨_, _, _, _, .one accepted, .advance remaining, found⟩
      · contradiction
  | literal characters =>
    obtain ⟨next, reached, succeeds⟩ := Option.bind_eq_some_iff.1 found
    obtain ⟨rest, moves⟩ := Cursor.Moves.literal reached
    exact ⟨_, _, _, next, .literal, moves, succeeds⟩
  | most accept =>
    obtain ⟨next, reached, succeeds⟩ := List.exists_of_findSome?_eq_some found
    rcases Cursor.Moves.furthestFirst rfl reached with old | ⟨taken, rest, moves, all⟩
    · contradiction
    · exact ⟨_, _, _, next, .most all, moves, succeeds⟩
  | fewest accept =>
    obtain ⟨taken, rest, next, moves, all, succeeds⟩ := Cursor.Moves.nearestFirst rfl found
    exact ⟨_, _, _, next, .fewest all, moves, succeeds⟩
  | andThen first second ihFirst ihSecond =>
    obtain ⟨taken, rest, writes, middle, takes, moves, onward⟩ := ihFirst found
    obtain ⟨more, rest', others, next, takes', moves', succeeds⟩ := ihSecond onward
    have split : rest = more ++ rest' := moves.rest.symm.trans moves'.source
    cases split
    rw [moves.previous] at takes'
    exact ⟨_, _, _, next, .andThen takes takes', moves.trans moves', succeeds⟩
  | orElse first second ihFirst ihSecond =>
    rw [search] at found
    split at found
    · next chosen =>
      obtain ⟨taken, rest, writes, next, takes, moves, succeeds⟩ := ihFirst chosen
      exact ⟨_, _, _, next, .former takes, moves, succeeds.trans found⟩
    · obtain ⟨taken, rest, writes, next, takes, moves, succeeds⟩ := ihSecond found
      exact ⟨_, _, _, next, .latter takes, moves, succeeds⟩
  | rounds body ih => exact searchRounds_takes ih found
  | capture index body ih =>
    obtain ⟨taken, rest, writes, next, takes, moves, succeeds⟩ := ih found
    exact ⟨_, _, _, _, .capture takes, moves.remember index, succeeds⟩
  | wordEdge =>
    rw [search] at found
    split at found
    · next edge =>
      exact ⟨[], _, [], cursor, .wordEdge (cursor.atWordEdge_iff.1 edge), .refl cursor, found⟩
    · contradiction
  | textEnd =>
    rw [search] at found
    split at found
    · next atEnd =>
      have moves := Cursor.Moves.refl cursor
      rw [List.isEmpty_iff.1 atEnd] at moves
      exact ⟨[], [], [], cursor, .textEnd, moves, found⟩
    · contradiction

theorem match?_takes {characters : List Char} {found : Match}
    (matched : pattern.match? characters = some found) :
    ∃ taken writes, characters = taken ++ found.rest ∧ found.taken = byteCount taken ∧
      pattern.Takes none taken found.rest writes ∧
      found.groups = writes.apply (List.replicate pattern.captureCount none) := by
  obtain ⟨last, searched, rfl⟩ := Option.map_eq_some_iff.1 matched
  obtain ⟨taken, rest, writes, next, takes, moves, reached⟩ := search_takes searched
  cases reached
  have groups := moves.groups
  rw [start, List.map_replicate] at groups
  cases moves.rest
  exact ⟨taken, writes, moves.source, moves.bytes.trans (Nat.zero_add _), takes, groups⟩

end VerilogInterface.Pattern
