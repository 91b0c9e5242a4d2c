import VerilogInterface.Proofs.Locating
import VerilogInterface.Proofs.RepeatedArguments

/-! What the commands report. Both go through their files in order and print either one report for
each of them or nothing, with the failure of the first file that fails; how much they say on the way
makes no difference to that. -/

namespace VerilogInterface

/-- A report on the file at the place that a path names, with its declarations of the wanted kind. -/
structure Describes (disk : Disk) (kind : Option Kind) (path : Path) (report : Report) : Prop where
  spelled : report.path = path
  objects : ∃ bytes text modules, disk.tree.at? (path.placeFrom disk.working) = some (.file bytes) ∧
    String.fromUTF8? bytes = some text ∧ parse text = .ok modules ∧
    Object.Chosen (modules.map .module) kind report.objects

/-- Under whichever spelling a path has been read, its file is described. -/
theorem describes_of_read {disk : Disk} {path first : Path} {objects : List Object}
    (kind : Option Kind) (same : first.same path = true)
    (read : fileDeclarations disk first = .ok objects) :
    Describes disk kind path { path, objects := Object.ofKind kind objects } := by
  obtain ⟨text, modules, content, parsed, rfl⟩ := fileDeclarations_eq_ok.1 read
  obtain ⟨bytes, got, decoded⟩ := Disk.read_eq_ok content
  refine ⟨rfl, bytes, text, modules, ?_, decoded, parsed, Object.chosen_ofKind kind _⟩
  rw [← Path.placeFrom_congr same]
  exact (Disk.get?_eq_some got).2

theorem ParseCommand.describes_of_answers {disk : Disk} {kind : Option Kind} {arguments : List Path}
    {reports : List Report} (answered : answers disk kind arguments = .ok reports) :
    List.Forall₂ (Describes disk kind) arguments reports := by
  refine (forall₂_of_mapM answered).imp ?_
  intro path report here
  cases read : fileDeclarations disk (path.firstOf arguments) with
  | error cause =>
    rw [ParseCommand.report, read] at here
    contradiction
  | ok objects =>
    rw [ParseCommand.report, read] at here
    obtain rfl := Except.ok.inj here
    exact describes_of_read kind (path.firstOf_same arguments) read

theorem Project.describes_of_reports {disk : Disk} {paths : List Path} {reports : List Report}
    (kind : Option Kind) (reported : Project.reports disk paths = .ok reports) :
    List.Forall₂ (Describes disk kind) paths (reports.map (ScanCommand.restrict kind)) := by
  apply List.forall₂_map_right_iff.2
  refine (forall₂_of_mapM reported).imp ?_
  intro path report here
  cases read : fileDeclarations disk path with
  | error cause =>
    rw [read] at here
    contradiction
  | ok objects =>
    rw [read] at here
    obtain rfl := Except.ok.inj here
    exact describes_of_read kind path.same_refl read

theorem Outcome.ofResult_succeeds {opening closing : String} {result : Except ExtractError String}
    (succeeds : (ofResult opening closing result).code = 0) :
    result = .ok (ofResult opening closing result).output := by
  cases result with
  | error cause => contradiction
  | ok output => rfl

/-- The files that a command reports on, with the format and the kind of the declarations. -/
inductive Command.Selects (disk : Disk) (options : GlobalOptions) :
    Command → Format → Option Kind → List Path → Prop where
  | parse (files : List String) (format : Option Format) (kind : Option Kind) :
    Selects disk options (.parse files format kind) (format.getD .text) kind
      (ParseCommand.arguments files)
  | scan (format : Option Format) {root : Path} {config : Config}
    (loaded : Project.load disk (options.config.map Path.ofString) = .ok (root, config)) :
    Selects disk options (.scan format) (format.getD config.format) config.kind
      (Project.sources disk root config.directories config.excluded)

/-- The document of the reports on some files, one for each in their order, and a line break. -/
def IsDocument (disk : Disk) (kind : Option Kind) (paths : List Path) (output : String) : Prop :=
  ∃ reports, output = (Json.array (reports.map Json.ofReport)).pretty ++ "\n" ∧
    List.Forall₂ (Describes disk kind) paths reports

/-- A command that succeeds with a document as its format prints the document; a scan must have
found sources for that. -/
theorem Command.prints_document {disk : Disk} {options : GlobalOptions} {command : Command}
    {format : Format} {kind : Option Kind} {paths : List Path}
    (selects : command.Selects disk options format kind paths) (document : format = .json)
    (found : (∃ wanted, command = .scan wanted) → paths ≠ [])
    (succeeds : (command.run disk options).code = 0) :
    IsDocument disk kind paths (command.run disk options).output := by
  cases selects with
  | parse files wanted =>
    obtain ⟨messages, ran⟩ := Command.parse_eq disk options files wanted kind
    rw [ran] at succeeds ⊢
    have rendered := Outcome.ofResult_succeeds succeeds
    cases answered : ParseCommand.answers disk kind (ParseCommand.arguments files) with
    | error cause =>
      rw [answered] at rendered
      contradiction
    | ok reports =>
      rw [document]
      exact ⟨reports, rfl, ParseCommand.describes_of_answers answered⟩
  | @scan wanted root config loaded =>
    obtain ⟨closing, ran⟩ := @ScanCommand.run_eq disk options.quiet _ wanted root config loaded
      (found ⟨wanted, rfl⟩)
    rw [Command.run, ran] at succeeds ⊢
    have rendered := Outcome.ofResult_succeeds succeeds
    rw [Project.result] at rendered ⊢
    cases reported : Project.reports disk
        (Project.sources disk root config.directories config.excluded) with
    | error cause =>
      rw [reported] at rendered
      contradiction
    | ok reports =>
      rw [document]
      exact ⟨_, rfl, Project.describes_of_reports config.kind reported⟩

def Project.documented : Disk := {
  tree := .directory [
    ("vdoc.toml",
      .file "[project]\nname = \"p\"\n[output]\nformat = \"json\"\nkind = \"module\"\n".toUTF8),
    ("src", .directory [
      ("b.v", .file "// nothing\n".toUTF8),
      ("a.v", .file "module a; endmodule\n".toUTF8)])] }

def Project.document : String :=
  "[\n  \x7b\n    \"path\": \"/src/a.v\",\n    \"objects\": [\n      \x7b\n        \"module\": \x7b\n" ++
  "          \"name\": \"a\",\n          \"ports\": [],\n          \"generics\": [],\n" ++
  "          \"sections\": \x7b\x7d,\n          \"description\": null,\n" ++
  "          \"define\": null\n        \x7d\n      \x7d\n    ]\n  \x7d,\n" ++
  "  \x7b\n    \"path\": \"/src/b.v\",\n    \"objects\": []\n  \x7d\n]\n"

theorem Command.prints_document_documented :
    (Command.Selects Project.documented {} (.scan none) .json (some .module)
        [.ofString "/src/a.v", .ofString "/src/b.v"] ∧
      (Command.run Project.documented {} (.scan none)).code = 0) ∧
    IsDocument Project.documented (some .module) [.ofString "/src/a.v", .ofString "/src/b.v"]
      (Command.run Project.documented {} (.scan none)).output ∧
    (Command.run Project.documented {} (.scan none)).output = Project.document := by
  have loaded : Project.load Project.documented none =
      .ok (.ofString "/", { name := "p", format := .json, kind := some .module }) := by
    decide +kernel
  have sources : Project.sources Project.documented (.ofString "/") ["src"] [] =
      [.ofString "/src/a.v", .ofString "/src/b.v"] := by decide +kernel
  have selects : Command.Selects Project.documented {} (.scan none) .json (some .module)
      [.ofString "/src/a.v", .ofString "/src/b.v"] :=
    sources ▸ @Command.Selects.scan _ {} none _ _ loaded
  have succeeds : (Command.run Project.documented {} (.scan none)).code = 0 := by decide +kernel
  have printed : (Command.run Project.documented {} (.scan none)).output = Project.document := by
    decide +kernel
  have document := Command.prints_document selects rfl (fun _ => List.cons_ne_nil _ _) succeeds
  exact ⟨⟨selects, succeeds⟩, document, printed⟩

def Project.vacant : Disk := {
  tree := .directory [
    ("vdoc.toml", .file "[project]\nname = \"p\"\n[output]\nformat = \"json\"\n".toUTF8)] }

/-- A scan that finds no sources succeeds and prints nothing, not even the document of no reports;
the command on files prints that. -/
theorem Command.prints_nothing_vacant :
    Command.Selects Project.vacant {} (.scan none) .json none [] ∧
      (Command.run Project.vacant {} (.scan none)).code = 0 ∧
      ¬IsDocument Project.vacant none [] (Command.run Project.vacant {} (.scan none)).output ∧
      IsDocument Project.vacant none []
        (Command.run Project.vacant {} (.parse ["vdoc.toml"] (some .json) none)).output := by
  have loaded : Project.load Project.vacant none =
      .ok (.ofString "/", { name := "p", format := .json }) := by decide +kernel
  have sources : Project.sources Project.vacant (.ofString "/") ["src"] [] = [] := by decide +kernel
  have scanned : (Command.run Project.vacant {} (.scan none)).output = "" := by decide +kernel
  refine ⟨sources ▸ @Command.Selects.scan _ {} none _ _ loaded, by decide +kernel, ?_,
    [], by decide +kernel, .nil⟩
  rintro ⟨reports, printed, described⟩
  cases described
  rw [scanned] at printed
  exact absurd printed (by decide +kernel)

def IsReadable (disk : Disk) (path : Path) : Prop :=
  ∃ text modules, disk.read path = .ok text ∧ parse text = .ok modules

theorem isReadable_iff {disk : Disk} {path : Path} :
    IsReadable disk path ↔ ∃ objects, fileDeclarations disk path = .ok objects := by
  constructor
  · rintro ⟨text, modules, content, parsed⟩
    exact ⟨_, fileDeclarations_eq_ok.2 ⟨text, modules, content, parsed, rfl⟩⟩
  · rintro ⟨objects, read⟩
    obtain ⟨text, modules, content, parsed, _⟩ := fileDeclarations_eq_ok.1 read
    exact ⟨text, modules, content, parsed⟩

/-- Each of the paths can be read as it is spelled first. -/
def AllReadable (disk : Disk) (paths : List Path) : Prop :=
  ∀ path ∈ paths, IsReadable disk (path.firstOf paths)

theorem ParseCommand.report_eq_ok {disk : Disk} {kind : Option Kind} {arguments : List Path}
    {path : Path} :
    (∃ result, report disk kind arguments path = .ok result) ↔
      IsReadable disk (path.firstOf arguments) := by
  rw [isReadable_iff, report]
  cases fileDeclarations disk (path.firstOf arguments) <;> simp [Except.map]

theorem ParseCommand.allReadable_iff {disk : Disk} {kind : Option Kind} {arguments : List Path} :
    AllReadable disk arguments ↔ ∃ reports, answers disk kind arguments = .ok reports := by
  constructor
  · intro readable
    cases answered : answers disk kind arguments with
    | ok reports => exact ⟨reports, rfl⟩
    | error cause =>
      obtain ⟨before, path, after, rfl, _, fails⟩ := first_of_mapM answered
      have member : path ∈ before ++ path :: after :=
        List.mem_append_right _ List.mem_cons_self
      obtain ⟨result, here⟩ := report_eq_ok.2 (readable path member)
      rw [fails] at here
      contradiction
  · rintro ⟨reports, answered⟩ path member
    exact report_eq_ok.1 (ok_of_mapM answered member)

theorem ParseCommand.failure_of_answers {disk : Disk} {kind : Option Kind}
    {arguments : List Path} {error : ExtractError}
    (failed : answers disk kind arguments = .error error) :
    ∃ before path after, arguments = before ++ path :: after ∧ AllReadable disk before ∧
      (∀ earlier ∈ before, earlier.same path = false) ∧
      fileDeclarations disk path = .error error := by
  obtain ⟨before, path, after, rfl, read, fails⟩ := first_of_mapM failed
  have fails : fileDeclarations disk (path.firstOf (before ++ path :: after)) = .error error := by
    rw [report] at fails
    cases first : fileDeclarations disk (path.firstOf (before ++ path :: after)) with
    | error other =>
      rw [first] at fails
      exact congrArg Except.error (Except.error.inj fails)
    | ok objects =>
      rw [first] at fails
      contradiction
  have readable : ∀ earlier ∈ before, IsReadable disk (earlier.firstOf before) := by
    intro earlier member
    have here := report_eq_ok.1 (read earlier member)
    rwa [Path.firstOf_eq (Path.find?_same member)] at here
  have new : ∀ earlier ∈ before, earlier.same path = false := by
    intro earlier member
    apply Bool.eq_false_iff.2
    intro same
    have known := Path.find?_same member
    rw [Path.find?_same_congr same] at known
    rw [Path.firstOf_eq known] at fails
    obtain ⟨objects, content⟩ := isReadable_iff.1 (readable earlier member)
    rw [fails] at content
    contradiction
  have self : path.firstOf (before ++ path :: after) = path := by
    apply Path.firstOf_eq_self
    exact List.find?_eq_none.2 fun earlier member => Bool.eq_false_iff.1 (new earlier member)
  rw [self] at fails
  exact ⟨before, path, after, rfl, readable, new, fails⟩

namespace Outcome

/-- Outcomes that differ at most in their messages. -/
def Alike (first second : Outcome) : Prop :=
  first.code = second.code ∧ first.output = second.output

theorem ofResult_alike (opening closing others last : String) (result : Except ExtractError String) :
    Alike (ofResult opening closing result) (ofResult others last result) := by
  cases result <;> exact ⟨rfl, rfl⟩

end Outcome

structure ParseCommand.AllOrNothing (disk : Disk) (options : GlobalOptions) (files : List String)
    (format : Option Format) (kind : Option Kind) : Prop where
  /-- It succeeds if every path can be read as its first argument spells it. -/
  succeeds : (Command.run disk options (.parse files format kind)).code = 0 ↔
    AllReadable disk (arguments files)
  complete : (Command.run disk options (.parse files format kind)).code = 0 →
    ∃ reports, List.Forall₂ (Describes disk kind) (arguments files) reports ∧
      (Command.run disk options (.parse files format kind)).output =
        Report.render (format.getD .text) reports ++ "\n"
  /-- Otherwise it only tells the failure of the first argument that fails; no earlier argument is
  for the same path. -/
  failure : (Command.run disk options (.parse files format kind)).code ≠ 0 →
    ∃ before path after error messages, arguments files = before ++ path :: after ∧
      AllReadable disk before ∧ (∀ earlier ∈ before, earlier.same path = false) ∧
      fileDeclarations disk path = .error error ∧
      Command.run disk options (.parse files format kind) =
        { code := 1, messages := messages ++ "error: " ++ error.message ++ "\n" }
  /-- Arguments that are not named like sources make no difference. -/
  skips : ∀ others, arguments others = arguments files →
    (Command.run disk options (.parse others format kind)).Alike
      (Command.run disk options (.parse files format kind))

theorem ParseCommand.allOrNothing (disk : Disk) (options : GlobalOptions) (files : List String)
    (format : Option Format) (kind : Option Kind) :
    AllOrNothing disk options files format kind := by
  obtain ⟨messages, ran⟩ := Command.parse_eq disk options files format kind
  have skips (others : List String) (same : arguments others = arguments files) :
      (Command.run disk options (.parse others format kind)).Alike
        (Command.run disk options (.parse files format kind)) := by
    obtain ⟨further, ranOthers⟩ := Command.parse_eq disk options others format kind
    rw [ran, ranOthers, same]
    exact Outcome.ofResult_alike ..
  cases answered : answers disk kind (arguments files) with
  | error error =>
    rw [answered] at ran
    refine ⟨?_, ?_, ?_, skips⟩
    · rw [@allReadable_iff disk kind, ran, answered]
      constructor
      · intro succeeds
        contradiction
      · rintro ⟨reports, none⟩
        contradiction
    · intro succeeds
      rw [ran] at succeeds
      contradiction
    · intro _
      obtain ⟨before, path, after, split, readable, new, fails⟩ := failure_of_answers answered
      exact ⟨before, path, after, error, messages, split, readable, new, fails, ran⟩
  | ok reports =>
    rw [answered] at ran
    refine ⟨?_, ?_, ?_, skips⟩
    · rw [ran]
      exact ⟨fun _ => allReadable_iff.2 ⟨reports, answered⟩, fun _ => rfl⟩
    · intro _
      rw [ran]
      exact ⟨reports, describes_of_answers answered, rfl⟩
    · intro fails
      rw [ran] at fails
      exact absurd rfl fails

theorem ScanCommand.run_alike (disk : Disk) (quiet other : Bool) (designation : Option Path)
    (format : Option Format) :
    (ScanCommand.run disk quiet designation format).Alike
      (ScanCommand.run disk other designation format) := by
  unfold ScanCommand.run
  cases Project.load disk designation with
  | error error => exact ⟨rfl, rfl⟩
  | ok loaded =>
    dsimp only
    split
    · exact ⟨rfl, rfl⟩
    · split <;> exact ⟨rfl, rfl⟩

/-- The command on files is all or nothing, and no command's code and output depend on how much it
says on the way. -/
theorem Command.ends_as_whole (disk : Disk) :
    (∀ options files format kind, ParseCommand.AllOrNothing disk options files format kind) ∧
      ∀ (options : GlobalOptions) (quiet verbose : Bool) (command : Command),
        (command.run disk { options with quiet, verbose }).Alike (command.run disk options) := by
  refine ⟨ParseCommand.allOrNothing disk, ?_⟩
  intro options quiet verbose command
  cases command with
  | parse files format kind =>
    obtain ⟨messages, ran⟩ := Command.parse_eq disk options files format kind
    obtain ⟨others, ranOtherwise⟩ :=
      Command.parse_eq disk { options with quiet, verbose } files format kind
    rw [ran, ranOtherwise]
    exact Outcome.ofResult_alike ..
  | scan format => exact ScanCommand.run_alike ..

/-- One file is reported under both spellings of its path and an argument that is no source is passed
over; a source that is missing ends the command without a report. -/
theorem Command.ends_as_whole_respelled :
    (AllReadable Project.documented [.ofString "src/a.v", .ofString "src//a.v"] ∧
      ∃ reports,
        List.Forall₂ (Describes Project.documented (some .module))
          [.ofString "src/a.v", .ofString "src//a.v"] reports ∧
        Command.run Project.documented {}
            (.parse ["src/a.v", "read.me", "src//a.v"] none (some .module)) =
          { output := Report.renderText reports ++ "\n",
            messages := "   Parsing src/a.v\n" ++
              "warning: skipping read.me (not a Verilog source)\n   Parsing src//a.v\n" } ∧
        Report.renderText reports ++ "\n" =
          "src/a.v:\n  module a\nsrc//a.v:\n  module a\n\n") ∧
    ¬ AllReadable Project.documented
        (["src/a.v", "src/c.v", "src/b.v"].map Path.ofString) ∧
      Command.run Project.documented {} (.parse ["src/a.v", "src/c.v", "src/b.v"] none none) =
        { code := 1,
          messages := "   Parsing src/a.v\n   Parsing src/c.v\n" ++
            "error: cannot read src/c.v: No such file or directory (os error 2)\n" } := by
  have ran : Command.run Project.documented {}
      (.parse ["src/a.v", "read.me", "src//a.v"] none (some .module)) =
      { output := "src/a.v:\n  module a\nsrc//a.v:\n  module a\n\n",
        messages := "   Parsing src/a.v\n" ++
          "warning: skipping read.me (not a Verilog source)\n   Parsing src//a.v\n" } := by
    decide +kernel
  have failed : Command.run Project.documented {}
      (.parse ["src/a.v", "src/c.v", "src/b.v"] none none) =
      { code := 1,
        messages := "   Parsing src/a.v\n   Parsing src/c.v\n" ++
          "error: cannot read src/c.v: No such file or directory (os error 2)\n" } := by
    decide +kernel
  have whole := (Command.ends_as_whole Project.documented).1 {}
    ["src/a.v", "read.me", "src//a.v"] none (some .module)
  have other := (Command.ends_as_whole Project.documented).1 {}
    ["src/a.v", "src/c.v", "src/b.v"] none none
  have named : ParseCommand.arguments ["src/a.v", "read.me", "src//a.v"] =
      [.ofString "src/a.v", .ofString "src//a.v"] := by decide +kernel
  have named' : ParseCommand.arguments ["src/a.v", "src/c.v", "src/b.v"] =
      ["src/a.v", "src/c.v", "src/b.v"].map Path.ofString := by decide +kernel
  have succeeds : (Command.run Project.documented {}
      (.parse ["src/a.v", "read.me", "src//a.v"] none (some .module))).code = 0 := by rw [ran]
  obtain ⟨reports, described, output⟩ := whole.complete succeeds
  rw [named] at described
  have rendered : Report.renderText reports ++ "\n" =
      "src/a.v:\n  module a\nsrc//a.v:\n  module a\n\n" := by
    rw [ran] at output
    exact output.symm
  refine ⟨⟨named ▸ whole.succeeds.1 succeeds, reports, described, ?_, rendered⟩, ?_, failed⟩
  · rw [ran, rendered]
  · intro readable
    rw [← named', ← other.succeeds, failed] at readable
    contradiction

def Disk.single : Disk := {
  tree := .directory [("a.v", .file "module a(input x); endmodule\n".toUTF8)] }

/-- The command succeeds although one argument cannot be read as it is spelled: an earlier argument
is for the same path. -/
theorem Command.succeeds_unread_single :
    ¬((Command.run Disk.single {} (.parse ["a.v", "a.v/"] none none)).code = 0 ↔
      ∀ path ∈ ParseCommand.arguments ["a.v", "a.v/"], IsReadable Disk.single path) := by
  have succeeds : (Command.run Disk.single {} (.parse ["a.v", "a.v/"] none none)).code = 0 := by
    decide +kernel
  have named : Path.ofString "a.v/" ∈ ParseCommand.arguments ["a.v", "a.v/"] := by decide +kernel
  have refused : Disk.single.read (.ofString "a.v/") = .error .notDirectory := by decide +kernel
  intro claimed
  obtain ⟨text, modules, content, _⟩ := claimed.1 succeeds _ named
  rw [refused] at content
  contradiction

end VerilogInterface
