import Mathlib.Data.List.Forall2
import VerilogInterface.Proofs.CommandAgreement

/-! What the command on files does with its arguments. It asks one extraction for all of them, so an
argument for a path that was read before is not read again, even if it could not be read as it is
spelled. So every argument is answered with what the first one for its path gives, and the first
failure ends the command. -/

namespace VerilogInterface

section mapM

variable {entries : List α} {f : α → Except ε β}

theorem mapM_cons_ok {entry : α} {result : β} (here : f entry = .ok result) :
    (entry :: entries).mapM f = (entries.mapM f).map (result :: ·) := by
  rw [List.mapM_cons, here]
  cases entries.mapM f <;> rfl

theorem mapM_cons_error {entry : α} {cause : ε} (here : f entry = .error cause) :
    (entry :: entries).mapM f = .error cause := by
  rw [List.mapM_cons, here]
  rfl

theorem forall₂_of_mapM {results : List β} (mapped : entries.mapM f = .ok results) :
    List.Forall₂ (fun entry result => f entry = .ok result) entries results := by
  induction entries generalizing results with
  | nil =>
    obtain rfl := Except.ok.inj mapped
    exact .nil
  | cons entry entries ih =>
    cases here : f entry with
    | error cause =>
      rw [mapM_cons_error here] at mapped
      contradiction
    | ok result =>
      rw [mapM_cons_ok here] at mapped
      cases rest : entries.mapM f with
      | error cause =>
        rw [rest] at mapped
        contradiction
      | ok others =>
        rw [rest] at mapped
        obtain rfl := Except.ok.inj mapped
        exact .cons here (ih rest)

theorem ok_of_mapM {results : List β} (mapped : entries.mapM f = .ok results) {entry : α}
    (member : entry ∈ entries) : ∃ result, f entry = .ok result := by
  have each := forall₂_of_mapM mapped
  clear mapped
  induction each with
  | nil => contradiction
  | cons here _ ih =>
    rcases List.mem_cons.1 member with rfl | later
    · exact ⟨_, here⟩
    · exact ih later

/-- A failure is that of the first entry that fails. -/
theorem first_of_mapM {cause : ε} (failed : entries.mapM f = .error cause) :
    ∃ before entry after, entries = before ++ entry :: after ∧
      (∀ earlier ∈ before, ∃ result, f earlier = .ok result) ∧ f entry = .error cause := by
  induction entries with
  | nil => contradiction
  | cons entry entries ih =>
    cases here : f entry with
    | error other =>
      rw [mapM_cons_error here] at failed
      obtain rfl := Except.error.inj failed
      exact ⟨[], entry, entries, rfl, fun _ none => absurd none List.not_mem_nil, here⟩
    | ok result =>
      rw [mapM_cons_ok here] at failed
      have rest : entries.mapM f = .error cause := by
        cases later : entries.mapM f with
        | error other =>
          rw [later] at failed
          exact failed
        | ok others =>
          rw [later] at failed
          contradiction
      obtain ⟨before, failing, after, rfl, read, fails⟩ := ih rest
      exact ⟨entry :: before, failing, after, rfl, List.forall_mem_cons.2 ⟨⟨result, here⟩, read⟩, fails⟩

end mapM

namespace Path

/-- The spelling under which a path occurs first among others. -/
def firstOf (path : Path) (paths : List Path) : Path := (paths.find? (·.same path)).getD path

variable {path : Path} {before after : List Path}

theorem firstOf_same (path : Path) (paths : List Path) : (path.firstOf paths).same path = true := by
  unfold firstOf
  cases found : paths.find? (·.same path) with
  | none => exact path.same_refl
  | some first =>
    have same := List.find?_some found
    exact same

theorem find?_same_congr {other : Path} (same : path.same other = true) (paths : List Path) :
    paths.find? (·.same path) = paths.find? (·.same other) := by
  unfold Path.same
  rw [same_iff.1 same]

theorem find?_same (member : path ∈ before) :
    before.find? (·.same path) = some (path.firstOf before) := by
  have known : (before.find? (·.same path)).isSome :=
    List.find?_isSome.2 ⟨path, member, path.same_refl⟩
  obtain ⟨first, found⟩ := Option.isSome_iff_exists.1 known
  rw [firstOf, found]
  rfl

theorem firstOf_eq_self (new : before.find? (·.same path) = none) :
    path.firstOf (before ++ path :: after) = path := by
  rw [firstOf, List.find?_append, new, List.find?_cons, path.same_refl]
  rfl

theorem firstOf_eq {first : Path} (known : before.find? (·.same path) = some first) :
    path.firstOf (before ++ after) = first := by
  rw [firstOf, List.find?_append, known]
  rfl

end Path

/-- An extraction that has been asked for these paths, all with success, and keeps for each path
what its first spelling gave. -/
def Extraction.Keeps (disk : Disk) (asked : List Path) (extraction : Extraction) : Prop :=
  ∀ path : Path,
    (asked.find? (·.same path) = none ∧ extraction.find? path = none) ∨
    ∃ first objects, asked.find? (·.same path) = some first ∧
      fileDeclarations disk first = .ok objects ∧ extraction.find? path = some objects

theorem Extraction.Keeps.concat {disk : Disk} {asked : List Path} {extraction next : Extraction}
    {path : Path} {objects : List Object} (keeps : extraction.Keeps disk asked)
    (read : fileDeclarations disk (path.firstOf (asked ++ [path])) = .ok objects)
    (kept : ∀ other, next.find? other =
      if path.same other then some objects else extraction.find? other) :
    next.Keeps disk (asked ++ [path]) := by
  intro other
  rw [kept other]
  by_cases same : path.same other = true
  · have first := Path.find?_same (List.mem_append_right asked (List.mem_singleton_self path))
    rw [Path.find?_same_congr same] at first
    exact .inr ⟨_, objects, first, read, if_pos same⟩
  · have before : (asked ++ [path]).find? (·.same other) = asked.find? (·.same other) := by
      rw [List.find?_append, List.find?_cons, (Bool.not_eq_true _).mp same]
      exact Option.or_none
    rw [before, if_neg same]
    exact keeps other

/-- A request is answered with what the first spelling of its path gives. -/
theorem Extraction.Keeps.extract {disk : Disk} {asked : List Path} {extraction : Extraction}
    (keeps : extraction.Keeps disk asked) (path : Path) (kind : Option Kind) (later : List Path) :
    (∃ error, fileDeclarations disk (path.firstOf (asked ++ path :: later)) = .error error ∧
      extraction.extract disk path kind = (.error error, extraction)) ∨
    (∃ objects next, fileDeclarations disk (path.firstOf (asked ++ path :: later)) = .ok objects ∧
      extraction.extract disk path kind = (.ok (Object.ofKind kind objects), next) ∧
      next.Keeps disk (asked ++ [path])) := by
  obtain ⟨new, absent⟩ | ⟨first, objects, known, read, kept⟩ := keeps path
  · have here (after : List Path) : path.firstOf (asked ++ path :: after) = path :=
      Path.firstOf_eq_self new
    rw [here]
    cases read : fileDeclarations disk path with
    | error error =>
      refine .inl ⟨error, rfl, ?_⟩
      rw [Extraction.extract, absent, read]
    | ok objects =>
      refine .inr ⟨objects, { found := (path, objects) :: extraction.found }, rfl, ?_, ?_⟩
      · rw [Extraction.extract, absent, read]
      · apply keeps.concat
        · rw [here, read]
        · exact fun other => Extraction.find?_keep
  · refine .inr ⟨objects, extraction, ?_, ?_, ?_⟩
    · rw [Path.firstOf_eq known, read]
    · rw [Extraction.extract, kept]
    · apply keeps.concat
      · rw [Path.firstOf_eq known, read]
      · intro other
        split
        · next same => rw [← Extraction.find?_congr same, kept]
        · rfl

namespace ParseCommand

variable {disk : Disk} {quiet : Bool} {kind : Option Kind} {extraction : Extraction}
  {asked paths : List Path}

/-- The report on one of the arguments: it has the declarations that its path gave when it was
spelled first. -/
def report (disk : Disk) (kind : Option Kind) (arguments : List Path) (path : Path) :
    Except ExtractError Report :=
  (fileDeclarations disk (path.firstOf arguments)).map fun objects =>
    { path, objects := Object.ofKind kind objects }

theorem reports_snd (keeps : extraction.Keeps disk asked) :
    (reports disk quiet kind extraction paths).2 =
      (paths.filter Path.isVerilog).mapM
        (report disk kind (asked ++ paths.filter Path.isVerilog)) := by
  -- What has been asked moves to the list in front as the command goes on, so all requests look up
  -- their first spelling in the same list.
  induction paths generalizing asked extraction with
  | nil => rfl
  | cons path paths ih =>
    rw [reports]
    by_cases verilog : path.isVerilog = true
    · rw [if_pos verilog, List.filter_cons_of_pos verilog]
      rcases keeps.extract path kind (paths.filter Path.isVerilog) with
        ⟨error, fails, answer⟩ | ⟨objects, next, read, answer, kept⟩
      · have here : report disk kind (asked ++ path :: paths.filter Path.isVerilog) path =
            .error error := by rw [report, fails]; rfl
        rw [answer, mapM_cons_error here]
      · have here : report disk kind (asked ++ path :: paths.filter Path.isVerilog) path =
            .ok { path, objects := Object.ofKind kind objects } := by rw [report, read]; rfl
        have rest := ih kept
        rw [List.append_assoc, List.singleton_append] at rest
        rw [answer, mapM_cons_ok here, ← rest]
    · rw [if_neg verilog, List.filter_cons_of_neg verilog]
      exact ih keeps

def arguments (files : List String) : List Path := (files.map Path.ofString).filter Path.isVerilog

def answers (disk : Disk) (kind : Option Kind) (arguments : List Path) :
    Except ExtractError (List Report) := arguments.mapM (report disk kind arguments)

end ParseCommand

theorem Command.parse_eq (disk : Disk) (options : GlobalOptions) (files : List String)
    (format : Option Format) (kind : Option Kind) :
    ∃ messages, Command.run disk options (.parse files format kind) =
      .ofResult messages "" ((ParseCommand.answers disk kind (ParseCommand.arguments files)).map
        fun reports => Report.render (format.getD .text) reports ++ "\n") := by
  have nothing : Extraction.Keeps disk [] {} := fun _ => .inl ⟨rfl, rfl⟩
  have answered := @ParseCommand.reports_snd disk options.quiet kind {} [] (files.map Path.ofString)
    nothing
  rw [List.nil_append] at answered
  rw [ParseCommand.answers, ParseCommand.arguments, ← answered, Command.run, ParseCommand.run]
  rcases ParseCommand.reports disk options.quiet kind {} (files.map Path.ofString) with
    ⟨messages, error | reports⟩
  · exact ⟨messages, rfl⟩
  · exact ⟨messages, by simp only [Outcome.ofResult, Except.map, String.append_empty]⟩

end VerilogInterface
