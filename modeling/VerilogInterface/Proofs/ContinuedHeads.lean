import VerilogInterface.Proofs.Outcomes

/-! Port heads that go on behind the line of their direction. The search either finds what it would
find without that possibility, or it captures the line break in the head. -/

namespace VerilogInterface.Pattern

open Text Verilog

variable {pattern first second : Pattern} {cursor next : Cursor}
  {continuation onward : Cursor → Option Cursor}

def headBelow : Pattern := sequence [symbol '\n', blanks, .one startsHead, .most continuesHead]

def portHeadInLine : Pattern :=
  sequence [
    .capture 0 (oneOf (["input", "inout", "output"].map exactly)), .wordEdge,
    .capture 1 (.orElse
      (sequence [.most spaceOrTab, .one fun inner => startsHead inner || inner == '`',
        .most continuesHead])
      (.andThen (.most spaceOrTab) .nothing))]

/-- The search ends with a line break in the second capture. -/
def Strays (last : Option Cursor) : Prop :=
  ∃ ending text, last = some ending ∧ (ending.captures.map captured)[1]? = some (some text) ∧
    '\n' ∈ text.toList

def Keeps (continuation : Cursor → Option Cursor) : Prop :=
  ∀ next ending, continuation next = some ending →
    ending.captures.map captured = next.captures.map captured

theorem keeps_of_captureCount (none : pattern.captureCount = 0) :
    Keeps (pattern.search · some) := by
  intro next ending found
  obtain ⟨taken, rest, writes, last, takes, moves, same⟩ := search_takes found
  cases same
  rw [moves.groups, takes.writes_eq_nil none]
  rfl

theorem Cursor.Moves.length_captures {taken rest : List Char} {writes : Writes}
    (moves : cursor.Moves taken rest writes next) :
    next.captures.length = cursor.captures.length := by
  have kept (writes : Writes) (groups : List (Option String)) :
      (writes.apply groups).length = groups.length := by
    induction writes generalizing groups with
    | nil => rfl
    | cons write writes ih => exact (ih _).trans List.length_set
  have groups := congrArg List.length moves.groups
  rwa [kept, List.length_map, List.length_map] at groups

theorem search_or_strays
    (each : ∀ next ∈ pattern.outcomes cursor,
      continuation next = onward next ∨ Strays (continuation next)) :
    pattern.search cursor continuation = pattern.search cursor onward ∨
      Strays (pattern.search cursor continuation) := by
  rw [← findSome?_outcomes, ← findSome?_outcomes]
  generalize pattern.outcomes cursor = cursors at each
  induction cursors with
  | nil => exact .inl rfl
  | cons next cursors ih =>
    obtain ⟨here, later⟩ := List.forall_mem_cons.1 each
    rw [List.findSome?_cons, List.findSome?_cons]
    cases found : continuation next with
    | none =>
      rw [found] at here
      rcases here with same | ⟨_, _, impossible, _⟩
      · rw [← same]
        exact ih later
      · contradiction
    | some last =>
      rw [found] at here
      rcases here with same | strays
      · exact .inl (by rw [← same])
      · exact .inr strays

theorem andThen_or_strays {second' : Pattern}
    (each : ∀ next ∈ first.outcomes cursor,
      second.search next continuation = second'.search next continuation ∨
        Strays (second.search next continuation)) :
    (Pattern.andThen first second).search cursor continuation =
        (Pattern.andThen first second').search cursor continuation ∨
      Strays ((Pattern.andThen first second).search cursor continuation) :=
  search_or_strays each

/-- A head that goes on below holds the line break in its capture. -/
theorem strays_of_headBelow {since middle ending : Cursor} {taken rest : List Char}
    {writes : Writes} (keeps : Keeps continuation) (long : 1 < since.captures.length)
    (moves : since.Moves taken rest writes middle)
    (found : headBelow.search middle (fun next => continuation (next.remember 1 since)) =
      some ending) : Strays (some ending) := by
  obtain ⟨more, rest', others, next, takes, moves', reached⟩ := search_takes found
  have split : rest = more ++ rest' := moves.rest.symm.trans moves'.source
  cases split
  obtain ⟨lineBreak, onward, _, _, same, _, one, _⟩ := takes.of_andThen
  have member : '\n' ∈ taken ++ more := by
    rw [same, one.of_literal]
    simp
  refine ⟨ending, String.ofList (taken ++ more), rfl, ?_, by simpa using member⟩
  have text : captured (some (since.rest, next.taken - since.taken)) =
      some (String.ofList (taken ++ more)) := by
    rw [captured, Option.map_some, (moves.trans moves').bytes, Nat.add_sub_cancel_left,
      (moves.trans moves').source, firstBytes_append]
  have kept : 1 < (next.captures.map captured).length := by
    rwa [List.length_map, (moves.trans moves').length_captures]
  rw [keeps _ _ reached, Cursor.remember, List.map_set, text]
  exact List.getElem?_set_self kept

theorem head_or_strays (keeps : Keeps continuation) (long : 1 < cursor.captures.length) :
    portHead.search cursor continuation = portHeadInLine.search cursor continuation ∨
      Strays (portHead.search cursor continuation) := by
  refine andThen_or_strays fun named reached => andThen_or_strays fun since reached' => ?_
  obtain ⟨_, _, _, _, moves⟩ := outcome_takes reached
  obtain ⟨_, _, _, _, moves'⟩ := outcome_takes reached'
  have long : 1 < since.captures.length := by rwa [moves'.length_captures, moves.length_captures]
  show (Pattern.orElse _ (.andThen (.most spaceOrTab) (optional headBelow))).search since _ =
      (Pattern.orElse _ (.andThen (.most spaceOrTab) .nothing)).search since _ ∨
    Strays ((Pattern.orElse _ (.andThen (.most spaceOrTab) (optional headBelow))).search since _)
  rw [search_orElse, search_orElse]
  generalize Pattern.search _ since _ = onLine
  cases onLine with
  | some last => exact .inl rfl
  | none =>
    rw [Option.none_or, Option.none_or]
    refine andThen_or_strays fun middle ends => ?_
    obtain ⟨_, _, _, _, moves⟩ := outcome_takes ends
    rw [optional, search_orElse]
    cases found : headBelow.search middle _ with
    | none => exact .inl (Option.none_or)
    | some ending => exact .inr (strays_of_headBelow keeps long moves found)

theorem length_captures_start (pattern : Pattern) (characters : List Char) :
    (pattern.start characters).captures.length = pattern.captureCount :=
  List.length_replicate

theorem match?_or_strays {mirror : Pattern} {characters : List Char}
    (searched : pattern.search (pattern.start characters) some =
        mirror.search (pattern.start characters) some ∨
      Strays (pattern.search (pattern.start characters) some))
    (captures : pattern.captureCount = mirror.captureCount) :
    pattern.match? characters = mirror.match? characters ∨
      ∃ found text, pattern.match? characters = some found ∧ some text ∈ found.groups ∧
        '\n' ∈ text.toList := by
  rcases searched with same | ⟨ending, text, found, captured, member⟩
  · have begins : mirror.start characters = pattern.start characters := by
      rw [start, start, captures]
    exact .inl (by rw [match?, match?, same, begins])
  · refine .inr ⟨_, text, by rw [match?, found]; rfl, ?_, member⟩
    exact List.mem_of_getElem? captured

theorem portHead_or_strays (characters : List Char) :
    portHead.match? characters = portHeadInLine.match? characters ∨
      ∃ found text, portHead.match? characters = some found ∧ some text ∈ found.groups ∧
        '\n' ∈ text.toList := by
  refine match?_or_strays (head_or_strays (fun next ending same => ?_) ?_) rfl
  · cases same
    rfl
  · rw [length_captures_start]
    decide

theorem furtherHead_or_strays (characters : List Char) :
    (sequence [blanks, portHead, blanks, optional (symbol ',')]).match? characters =
        (sequence [blanks, portHeadInLine, blanks, optional (symbol ',')]).match? characters ∨
      ∃ found text,
        (sequence [blanks, portHead, blanks, optional (symbol ',')]).match? characters =
            some found ∧
          some text ∈ found.groups ∧ '\n' ∈ text.toList := by
  refine match?_or_strays (andThen_or_strays fun next reached => ?_) rfl
  obtain ⟨_, _, _, _, moves⟩ := outcome_takes reached
  refine head_or_strays (keeps_of_captureCount rfl) ?_
  rw [moves.length_captures, length_captures_start]
  decide

end VerilogInterface.Pattern
