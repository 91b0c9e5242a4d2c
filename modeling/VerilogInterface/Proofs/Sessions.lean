import Mathlib.Data.List.Induction
import VerilogInterface.Proofs.Answers
import VerilogInterface.Proofs.PathOrder

/-! Sessions with one extraction: files and texts are asked for in any order, and the file system
may change in between. What a path gave at its first success stays its answer for good. -/

namespace VerilogInterface

namespace Extraction

theorem find?_congr {first second : Path} (same : first.same second = true)
    (extraction : Extraction) : extraction.find? first = extraction.find? second := by
  have components := Path.same_iff.1 same
  unfold find? Path.same
  rw [components]

theorem find?_eq_none {extraction : Extraction} {path : Path} :
    extraction.find? path = none ↔
      ∀ entry ∈ extraction.found, entry.1.same path = false := by
  rw [find?, Option.map_eq_none_iff, List.find?_eq_none]
  exact forall₂_congr fun _ _ => by rw [Bool.not_eq_true]

theorem exists_of_find? {extraction : Extraction} {path : Path} {objects : List Object}
    (kept : extraction.find? path = some objects) :
    ∃ spelled, (spelled, objects) ∈ extraction.found ∧ spelled.same path = true := by
  obtain ⟨⟨spelled, others⟩, found, rfl⟩ := Option.map_eq_some_iff.1 kept
  have same := List.find?_some found
  exact ⟨spelled, List.mem_of_find?_eq_some found, same⟩

theorem find?_keep {path other : Path} {objects : List Object} {extraction : Extraction} :
    find? { found := (other, objects) :: extraction.found } path =
      if other.same path then some objects else extraction.find? path := by
  rw [find?, List.find?_cons]
  cases other.same path <;> rfl

theorem fst_extract_of_new {extraction : Extraction} {path : Path}
    (new : extraction.find? path = none) (disk : Disk) (kind : Option Kind) :
    (extraction.extract disk path kind).1 =
      (fileDeclarations disk path).map (Object.ofKind kind) := by
  rw [extract, new]
  cases fileDeclarations disk path <;> rfl

/-- What one request does: it repeats what is kept, it fails without effect, or it keeps what it
reads. -/
theorem extract_cases (extraction : Extraction) (disk : Disk) (path : Path) (kind : Option Kind) :
    (∃ objects, extraction.find? path = some objects ∧
      extraction.extract disk path kind = (.ok (Object.ofKind kind objects), extraction)) ∨
    (∃ error, extraction.find? path = none ∧ fileDeclarations disk path = .error error ∧
      extraction.extract disk path kind = (.error error, extraction)) ∨
    (∃ objects, extraction.find? path = none ∧ fileDeclarations disk path = .ok objects ∧
      extraction.extract disk path kind =
        (.ok (Object.ofKind kind objects), { found := (path, objects) :: extraction.found })) := by
  unfold extract
  cases kept : extraction.find? path with
  | some objects => exact .inl ⟨objects, rfl, rfl⟩
  | none =>
    cases read : fileDeclarations disk path with
    | error error => exact .inr (.inl ⟨error, rfl, rfl, rfl⟩)
    | ok objects => exact .inr (.inr ⟨objects, rfl, rfl, rfl⟩)

end Extraction

structure Session where
  disk : Disk
  extraction : Extraction := {}

namespace Session

inductive Event where
  /-- The declarations of a file are asked for. -/
  | file (path : Path) (kind : Option Kind)
  /-- The declarations of a text are asked for. -/
  | text (content : String) (kind : Option Kind)
  /-- The file system changes. -/
  | change (disk : Disk)

def answer (session : Session) (path : Path) (kind : Option Kind) :
    Except ExtractError (List Object) :=
  (session.extraction.extract session.disk path kind).1

def after (session : Session) : Event → Session
  | .file path kind =>
    { session with extraction := (session.extraction.extract session.disk path kind).2 }
  | .text _ _ => session
  | .change disk => { session with disk }

def run (session : Session) (events : List Event) : Session := events.foldl after session

theorem run_append (session : Session) (first second : List Event) :
    session.run (first ++ second) = (session.run first).run second := List.foldl_append

theorem run_cons (session : Session) (event : Event) (events : List Event) :
    session.run (event :: events) = (session.after event).run events := rfl

theorem run_concat (session : Session) (events : List Event) (event : Event) :
    session.run (events ++ [event]) = (session.run events).after event := run_append ..

def Succeeds (session : Session) (path : Path) (kind : Option Kind) : Prop :=
  ∃ objects, session.answer path kind = .ok objects

/-- Some request for the path, however it was spelled, has been answered with declarations. -/
def Found (start : Session) (events : List Event) (path : Path) : Prop :=
  ∃ before spelled kind later, events = before ++ .file spelled kind :: later ∧
    spelled.same path = true ∧ (start.run before).Succeeds spelled kind

/-- The request after the given events is the first for its path that was answered with
declarations. -/
structure FirstSuccess (start : Session) (before : List Event) (path : Path)
    (kind : Option Kind) : Prop where
  succeeds : (start.run before).Succeeds path kind
  first : ¬ Found start before path

/-- What one event does to an extraction: nothing, or it keeps what the event found. -/
theorem after_cases (session : Session) (event : Event) :
    (session.after event).extraction = session.extraction ∨
    ∃ path kind objects, event = .file path kind ∧ session.extraction.find? path = none ∧
      session.Succeeds path kind ∧
      (session.after event).extraction =
        { found := (path, objects) :: session.extraction.found } := by
  cases event with
  | file path kind =>
    rcases session.extraction.extract_cases session.disk path kind with
      ⟨_, _, made⟩ | ⟨_, _, _, made⟩ | ⟨objects, new, _, made⟩
    · exact .inl (congrArg Prod.snd made)
    · exact .inl (congrArg Prod.snd made)
    · exact .inr ⟨path, kind, objects, rfl, new, ⟨_, congrArg Prod.fst made⟩,
        congrArg Prod.snd made⟩
  | text content kind => exact .inl rfl
  | change disk => exact .inl rfl

theorem find?_after {session : Session} {path : Path} {objects : List Object}
    (kept : session.extraction.find? path = some objects) (event : Event) :
    (session.after event).extraction.find? path = some objects := by
  rcases session.after_cases event with same | ⟨other, _, others, _, new, _, made⟩
  · rw [same]
    exact kept
  · rw [made, Extraction.find?_keep, if_neg]
    · exact kept
    · intro same
      rw [Extraction.find?_congr same, kept] at new
      contradiction

/-- What is kept for a path stays for the rest of the session. -/
theorem find?_run {session : Session} {path : Path} {objects : List Object}
    (kept : session.extraction.find? path = some objects) (events : List Event) :
    (session.run events).extraction.find? path = some objects := by
  induction events generalizing session with
  | nil => exact kept
  | cons event events ih => exact ih (find?_after kept event)

theorem found_suffix_run (session : Session) (events : List Event) :
    session.extraction.found <:+ (session.run events).extraction.found := by
  induction events generalizing session with
  | nil => exact List.suffix_rfl
  | cons event events ih =>
    refine List.IsSuffix.trans ?_ (ih (session.after event))
    rcases session.after_cases event with same | ⟨_, _, _, _, _, _, made⟩
    · exact same ▸ List.suffix_rfl
    · rw [made]
      exact List.suffix_cons _ _

theorem Found.append {start : Session} {events : List Event} {path : Path}
    (found : Found start events path) (more : List Event) : Found start (events ++ more) path := by
  obtain ⟨before, spelled, kind, later, rfl, same, succeeds⟩ := found
  refine ⟨before, spelled, kind, later ++ more, ?_, same, succeeds⟩
  rw [List.append_assoc, List.cons_append]

/-- After a success something is kept for the path; if it was the first, what the file held. -/
theorem Succeeds.find? {session : Session} {path : Path} {kind : Option Kind}
    (succeeds : session.Succeeds path kind) :
    ∃ objects, (session.after (.file path kind)).extraction.find? path = some objects ∧
      (session.extraction.find? path = none →
        fileDeclarations session.disk path = .ok objects) := by
  rcases session.extraction.extract_cases session.disk path kind with
    ⟨objects, kept, made⟩ | ⟨error, _, _, made⟩ | ⟨objects, new, read, made⟩
  · have unchanged : (session.after (.file path kind)).extraction = session.extraction :=
      congrArg Prod.snd made
    refine ⟨objects, unchanged ▸ kept, ?_⟩
    intro new
    rw [kept] at new
    contradiction
  · obtain ⟨answered, answer⟩ := succeeds
    have failed : session.answer path kind = .error error := congrArg Prod.fst made
    rw [failed] at answer
    contradiction
  · have extended : (session.after (.file path kind)).extraction =
        { found := (path, objects) :: session.extraction.found } := congrArg Prod.snd made
    refine ⟨objects, ?_, fun _ => read⟩
    rw [extended, Extraction.find?_keep, if_pos path.same_refl]

theorem Found.exists_find? {start : Session} {events : List Event} {path : Path}
    (found : Found start events path) :
    ∃ objects, (start.run events).extraction.find? path = some objects := by
  obtain ⟨before, spelled, kind, later, rfl, same, succeeds⟩ := found
  obtain ⟨objects, kept, _⟩ := succeeds.find?
  rw [← Extraction.find?_congr same, run_append]
  exact ⟨objects, find?_run kept later⟩

/-- In a session from its beginning, what is kept for a path was found by a request. -/
theorem found_of_find? {disk : Disk} {events : List Event} {path : Path} {objects : List Object}
    (kept : (run { disk } events).extraction.find? path = some objects) :
    Found { disk } events path := by
  induction events using List.reverseRecOn generalizing objects with
  | nil => contradiction
  | append_singleton events event ih =>
    rw [run_concat] at kept
    rcases (run { disk } events).after_cases event with
      same | ⟨spelled, kind, others, rfl, _, succeeds, made⟩
    · exact (ih (same ▸ kept)).append [event]
    · rw [made, Extraction.find?_keep] at kept
      split at kept
      · next same => exact ⟨events, spelled, kind, [], rfl, same, succeeds⟩
      · exact (ih kept).append _

theorem find?_eq_none_iff {disk : Disk} {events : List Event} {path : Path} :
    (run { disk } events).extraction.find? path = none ↔ ¬ Found { disk } events path := by
  constructor
  · intro new found
    obtain ⟨objects, kept⟩ := found.exists_find?
    rw [new] at kept
    contradiction
  · intro unknown
    cases kept : (run { disk } events).extraction.find? path with
    | none => rfl
    | some objects => exact absurd (found_of_find? kept) unknown

/-- The entries of a session are the paths as they were spelled at their first success. -/
theorem mem_found_iff {disk : Disk} {events : List Event} {path : Path} :
    path ∈ (run { disk } events).extraction.found.map (·.1) ↔
      ∃ before kind later, events = before ++ .file path kind :: later ∧
        FirstSuccess { disk } before path kind := by
  constructor
  · intro member
    induction events using List.reverseRecOn with
    | nil => contradiction
    | append_singleton events event ih =>
      have extend : path ∈ (run { disk } events).extraction.found.map (·.1) →
          ∃ before kind later, events ++ [event] = before ++ .file path kind :: later ∧
            FirstSuccess { disk } before path kind := by
        intro old
        obtain ⟨before, kind, later, rfl, first⟩ := ih old
        refine ⟨before, kind, later ++ [event], ?_, first⟩
        rw [List.append_assoc, List.cons_append]
      rw [run_concat] at member
      rcases (run { disk } events).after_cases event with
        same | ⟨other, kind, others, rfl, new, succeeds, made⟩
      · exact extend (same ▸ member)
      · rw [made] at member
        rcases List.mem_cons.1 member with here | old
        · subst here
          exact ⟨events, kind, [], rfl, succeeds, find?_eq_none_iff.1 new⟩
        · exact extend old
  · rintro ⟨before, kind, later, rfl, succeeds, unknown⟩
    have new := find?_eq_none_iff.2 unknown
    have longer := found_suffix_run ((run { disk } before).after (.file path kind)) later
    rw [run_append]
    apply (longer.map (·.1)).subset
    obtain ⟨objects, kept, _⟩ := succeeds.find?
    rcases (run { disk } before).after_cases (.file path kind) with
      same | ⟨other, _, others, asked, _, _, made⟩
    · rw [same, new] at kept
      contradiction
    · cases asked
      rw [made]
      exact List.mem_cons_self

theorem different_after {session : Session}
    (different : Path.Different (session.extraction.found.map (·.1))) (event : Event) :
    Path.Different ((session.after event).extraction.found.map (·.1)) := by
  rcases session.after_cases event with same | ⟨path, _, objects, _, new, _, made⟩
  · exact same ▸ different
  · rw [made]
    refine List.pairwise_cons.2 ⟨?_, different⟩
    intro other member
    obtain ⟨entry, inside, rfl⟩ := List.mem_map.1 member
    rw [Path.same_comm]
    exact Extraction.find?_eq_none.1 new entry inside

/-- No path is kept twice in a session, however it is spelled. -/
theorem different_run {session : Session}
    (different : Path.Different (session.extraction.found.map (·.1))) (events : List Event) :
    Path.Different ((session.run events).extraction.found.map (·.1)) := by
  induction events generalizing session with
  | nil => exact different
  | cons event events ih => exact ih (different_after different event)

theorem paths_perm (disk : Disk) (events : List Event) :
    (run { disk } events).extraction.paths.Perm
      ((run { disk } events).extraction.found.map (·.1)) :=
  Path.sorted_perm (@different_run { disk } List.Pairwise.nil events)

structure KeepsFirst (disk : Disk) (events : List Event) : Prop where
  /-- A request for a path that succeeded before is answered by what the file held at the first
  success, in the wanted kind. -/
  repeats : ∀ {before path kind later}, events = before ++ .file path kind :: later →
    FirstSuccess { disk } before path kind → ∀ {other}, path.same other = true → ∀ wanted,
      ∃ objects, FileAnswers (run { disk } before).disk path wanted (.ok objects) ∧
        (run { disk } events).answer other wanted = .ok objects
  /-- Any other request is answered by what the file holds now. -/
  reads : ∀ {path}, ¬ Found { disk } events path → ∀ wanted,
    FileAnswers (run { disk } events).disk path wanted ((run { disk } events).answer path wanted)
  fails : ∀ {path kind error}, (run { disk } events).answer path kind = .error error →
    (run { disk } events).after (.file path kind) = run { disk } events
  texts : ∀ content kind, (run { disk } events).after (.text content kind) = run { disk } events
  ascending : Path.Ascending (run { disk } events).extraction.paths
  /-- Paths are listed as they were spelled at their first success. -/
  listed : ∀ path, path ∈ (run { disk } events).extraction.paths ↔
    ∃ before kind later, events = before ++ .file path kind :: later ∧
      FirstSuccess { disk } before path kind
  /-- Every path that succeeded is listed in some spelling. -/
  complete : ∀ path, Found { disk } events path ↔
    ∃ spelled ∈ (run { disk } events).extraction.paths, spelled.same path = true
  size : (run { disk } events).extraction.size = (run { disk } events).extraction.paths.length

theorem first_success_kept (disk : Disk) (events : List Event) : KeepsFirst disk events where
  repeats {before path kind later} split first {other} same wanted := by
    obtain ⟨objects, kept, read⟩ := first.succeeds.find?
    have read := read (find?_eq_none_iff.2 first.first)
    have kept := find?_run kept later
    have answers := fileAnswers_map (run { disk } before).disk path wanted
    refine ⟨Object.ofKind wanted objects, ?_, ?_⟩
    · rw [read] at answers
      exact answers
    · rw [Extraction.find?_congr same, ← run_cons, ← run_append, ← split] at kept
      rw [answer, Extraction.extract, kept]
  reads {path} unknown wanted := by
    rw [answer, Extraction.fst_extract_of_new (find?_eq_none_iff.2 unknown)]
    exact fileAnswers_map _ path wanted
  fails {path kind error} failed := by
    rcases (run { disk } events).extraction.extract_cases (run { disk } events).disk path kind with
      ⟨objects, _, made⟩ | ⟨_, _, _, made⟩ | ⟨objects, _, _, made⟩
    · rw [answer, made] at failed
      contradiction
    · rw [after, made]
    · rw [answer, made] at failed
      contradiction
  texts _ _ := rfl
  ascending := Path.sorted_ascending _
  listed path := by rw [(paths_perm disk events).mem_iff, mem_found_iff]
  complete path := by
    constructor
    · intro found
      obtain ⟨objects, kept⟩ := found.exists_find?
      obtain ⟨spelled, member, same⟩ := Extraction.exists_of_find? kept
      have kept : spelled ∈ (run { disk } events).extraction.found.map (·.1) :=
        List.mem_map.2 ⟨_, member, rfl⟩
      exact ⟨spelled, (paths_perm disk events).mem_iff.2 kept, same⟩
    · rintro ⟨spelled, member, same⟩
      obtain ⟨before, kind, later, split, first⟩ :=
        mem_found_iff.1 ((paths_perm disk events).mem_iff.1 member)
      exact ⟨before, spelled, kind, later, split, same, first.succeeds⟩
  size := by rw [Extraction.size, (paths_perm disk events).length_eq, List.length_map]

def unedited : Disk where
  tree := .directory [("rtl", .directory [
    ("a.v", .file "module a; endmodule\nmodule c; endmodule\n".toUTF8)])]

/-- The file is written over, and there is another one beside it. -/
def edited : Disk where
  tree := .directory [("rtl", .directory [
    ("a.v", .file "module late; endmodule\n".toUTF8),
    ("b.v", .file "module b; endmodule\n".toUTF8)])]

/-- The first file is asked for in a kind that it lacks and the second before it is there. -/
def editing : List Event := [
  .file (.ofString "rtl/a.v") (some .parameter),
  .file (.ofString "rtl/b.v") none,
  .change edited,
  .text "module t; endmodule" none]

/-- What was found first is the answer in every kind and for every spelling of the path, while the
file that failed is read again. -/
theorem first_success_kept_edited :
    FirstSuccess { disk := unedited } [] (.ofString "rtl/a.v") (some .parameter) ∧
      answer { disk := unedited } (.ofString "rtl/a.v") (some .parameter) = .ok [] ∧
      (run { disk := unedited } (editing.take 1)).answer (.ofString "rtl/b.v") none =
        .error (.read (.ofString "rtl/b.v") .notFound) ∧
      FileAnswers unedited (.ofString "rtl/a.v") none
        (.ok [.module { name := "a" }, .module { name := "c" }]) ∧
      (run { disk := unedited } editing).answer (.ofString "rtl//./a.v") none =
        .ok [.module { name := "a" }, .module { name := "c" }] ∧
      FileAnswers edited (.ofString "rtl/b.v") (some .module) (.ok [.module { name := "b" }]) ∧
      (run { disk := unedited } editing).answer (.ofString "rtl/b.v") (some .module) =
        .ok [.module { name := "b" }] ∧
      (run { disk := unedited } editing).extraction.paths = [.ofString "rtl/a.v"] := by
  have empty : answer { disk := unedited } (.ofString "rtl/a.v") (some .parameter) = .ok [] := by
    decide +kernel
  have first : FirstSuccess { disk := unedited } [] (.ofString "rtl/a.v") (some .parameter) := by
    refine ⟨⟨[], empty⟩, ?_⟩
    rintro ⟨before, spelled, kind, later, none, _⟩
    cases before <;> contradiction
  have kept : (run { disk := unedited } editing).answer (.ofString "rtl//./a.v") none =
      .ok [.module { name := "a" }, .module { name := "c" }] := by decide +kernel
  have read : (run { disk := unedited } editing).answer (.ofString "rtl/b.v") (some .module) =
      .ok [.module { name := "b" }] := by decide +kernel
  have paths : (run { disk := unedited } editing).extraction.paths = [.ofString "rtl/a.v"] := by
    decide +kernel
  have whole := first_success_kept unedited editing
  have new : ¬ Found { disk := unedited } editing (.ofString "rtl/b.v") := by
    rw [whole.complete, paths]
    rintro ⟨spelled, member, same⟩
    cases List.mem_singleton.1 member
    revert same
    decide +kernel
  have same : Path.same (.ofString "rtl/a.v") (.ofString "rtl//./a.v") = true := by decide +kernel
  obtain ⟨objects, held, answered⟩ := @KeepsFirst.repeats _ _ whole [] _ _ _ rfl first _ same none
  obtain rfl := Except.ok.inj (kept.symm.trans answered)
  have now := whole.reads new (some .module)
  rw [read] at now
  exact ⟨first, empty, by decide +kernel, held, kept, now, read, paths⟩

end Session

end VerilogInterface
