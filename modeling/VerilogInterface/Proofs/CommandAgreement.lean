import VerilogInterface.Command.Run
import VerilogInterface.Proofs.Sessions

/-! Reporting on a project and reporting on its sources by name. One reads every source afresh and
filters the reports at the end; the other keeps what it has read and filters on the way. They end
with the same output or the same failure. -/

namespace VerilogInterface

/-- How a command ends that has come to an output or to a failure; what it says on the way stands
around it. -/
def Outcome.ofResult (opening closing : String) : Except ExtractError String → Outcome
  | .ok output => { output, messages := opening ++ closing }
  | .error error => { code := 1, messages := opening ++ "error: " ++ error.message ++ "\n" }

namespace FileTree

mutual
theorem isVerilog_of_mem_sources {pruned : Path → Bool} {path start : Path} :
    ∀ {tree : FileTree}, path ∈ tree.sources pruned start → path.isVerilog = true
  | .file _, member => by
    rw [sources] at member
    split at member
    · next verilog => exact List.mem_singleton.1 member ▸ verilog
    · contradiction
  | .directory entries, member => by
    rw [sources] at member
    exact isVerilog_of_mem_sourcesAmong member

theorem isVerilog_of_mem_sourcesAmong {pruned : Path → Bool} {path start : Path} :
    ∀ {entries : List (String × FileTree)}, path ∈ sourcesAmong pruned start entries →
      path.isVerilog = true
  | [], member => by
    rw [sourcesAmong] at member
    contradiction
  | (name, tree) :: entries, member => by
    rw [sourcesAmong] at member
    rcases List.mem_append.1 member with here | later
    · split at here
      · contradiction
      · exact isVerilog_of_mem_sources here
    · exact isVerilog_of_mem_sourcesAmong later
end

end FileTree

namespace Project

theorem isVerilog_of_mem_sources {disk : Disk} {root path : Path}
    {directories excluded : List String}
    (member : path ∈ sources disk root directories excluded) : path.isVerilog = true := by
  obtain ⟨entry, _, member⟩ := List.mem_flatMap.1 (Path.mem_of_mem_sorted member)
  dsimp only at member
  split at member
  · exact FileTree.isVerilog_of_mem_sourcesAmong member
  · contradiction

/-- The files that are tried in order, up to the first one that fails. -/
def attempted (disk : Disk) : List Path → List Path
  | [] => []
  | path :: paths =>
    match fileDeclarations disk path with
    | .ok _ => path :: attempted disk paths
    | .error _ => [path]

def result (disk : Disk) (format : Format) (kind : Option Kind) (paths : List Path) :
    Except ExtractError String :=
  (reports disk paths).map fun found =>
    Report.render format (found.map (ScanCommand.restrict kind)) ++ "\n"

theorem reports_cons (disk : Disk) (path : Path) (paths : List Path) :
    reports disk (path :: paths) =
      match fileDeclarations disk path with
      | .error error => .error error
      | .ok objects => (reports disk paths).map ({ path, objects } :: ·) := by
  unfold reports
  rw [List.mapM_cons]
  cases fileDeclarations disk path with
  | error error => rfl
  | ok objects =>
    cases paths.mapM fun path => (fileDeclarations disk path).map fun objects =>
      ({ path, objects } : Report) <;> rfl

end Project

/-- Sources that are all different are each read afresh, whatever was read before them. -/
theorem ParseCommand.reports_eq {disk : Disk} {quiet : Bool} {kind : Option Kind}
    {paths : List Path} {extraction : Extraction}
    (verilog : ∀ path ∈ paths, path.isVerilog = true)
    (different : Path.Different paths)
    (new : ∀ path ∈ paths, extraction.find? path = none) :
    ParseCommand.reports disk quiet kind extraction paths =
      (String.join ((Project.attempted disk paths).map (notice quiet)),
        (Project.reports disk paths).map (List.map (ScanCommand.restrict kind))) := by
  induction paths generalizing extraction with
  | nil => rfl
  | cons path paths ih =>
    obtain ⟨apart, others⟩ := List.pairwise_cons.1 different
    have absent := new path List.mem_cons_self
    rw [ParseCommand.reports, if_pos (verilog path List.mem_cons_self), Project.attempted,
      Project.reports_cons, Extraction.extract, absent]
    cases read : fileDeclarations disk path with
    | error error => simp [String.join_cons, Except.map]
    | ok objects =>
      have later : ∀ other ∈ paths,
          Extraction.find? { found := (path, objects) :: extraction.found } other = none := by
        intro other member
        rw [Extraction.find?_keep, if_neg (Bool.eq_false_iff.1 (apart other member))]
        exact new other (List.mem_cons_of_mem _ member)
      have rest := ih (fun other member => verilog other (List.mem_cons_of_mem _ member)) others
        later
      dsimp only
      rw [rest]
      cases Project.reports disk paths <;> simp [String.join_cons, Except.map, ScanCommand.restrict]

theorem ParseCommand.run_eq {disk : Disk} {quiet : Bool} {format : Format} {kind : Option Kind}
    {paths : List Path} (verilog : ∀ path ∈ paths, path.isVerilog = true)
    (different : Path.Different paths) :
    ParseCommand.run disk quiet paths format kind =
      .ofResult (String.join ((Project.attempted disk paths).map (notice quiet))) ""
        (Project.result disk format kind paths) := by
  rw [ParseCommand.run, reports_eq verilog different (fun _ _ => rfl), Project.result]
  cases Project.reports disk paths with
  | error error => rfl
  | ok found => simp [Except.map, Outcome.ofResult]

theorem ScanCommand.run_eq {disk : Disk} {quiet : Bool} {designation : Option Path}
    {format : Option Format} {root : Path} {config : Config}
    (loaded : Project.load disk designation = .ok (root, config))
    (found : Project.sources disk root config.directories config.excluded ≠ []) :
    ∃ closing, ScanCommand.run disk quiet designation format =
      .ofResult (unlessQuiet quiet s!"   Scanning {config.name}\n") closing
        (Project.result disk (format.getD config.format) config.kind
          (Project.sources disk root config.directories config.excluded)) := by
  rw [ScanCommand.run, loaded, Project.result]
  dsimp only
  split
  · next none => exact absurd none found
  · next files _ =>
    cases Project.reports disk _ with
    | error error => exact ⟨"", rfl⟩
    | ok reports => exact ⟨_, rfl⟩

/-- A scan that finds sources ends like a report on these sources by name, in their order and with
the kind and the format of the project: with the same output or with the same failure. -/
theorem Command.scan_agrees {disk : Disk} {options others : GlobalOptions}
    {format : Option Format} {root : Path} {config : Config} {files : List String}
    (loaded : Project.load disk (options.config.map Path.ofString) = .ok (root, config))
    (named : files.map Path.ofString =
      Project.sources disk root config.directories config.excluded)
    (found : files ≠ []) :
    let result := Project.result disk (format.getD config.format) config.kind
      (files.map Path.ofString)
    (∃ closing, Command.run disk options (.scan format) =
      .ofResult (ScanCommand.unlessQuiet options.quiet s!"   Scanning {config.name}\n") closing
        result) ∧
    Command.run disk others (.parse files (some (format.getD config.format)) config.kind) =
      .ofResult (String.join ((Project.attempted disk (files.map Path.ofString)).map
        (ParseCommand.notice others.quiet))) "" result := by
  intro result
  have sources : Project.sources disk root config.directories config.excluded ≠ [] := by
    rw [← named]
    intro none
    exact found (List.map_eq_nil_iff.1 none)
  constructor
  · have scanned := @ScanCommand.run_eq disk options.quiet _ format root config loaded sources
    rw [← named] at scanned
    exact scanned
  · apply ParseCommand.run_eq
    · intro path member
      rw [named] at member
      exact Project.isVerilog_of_mem_sources member
    · rw [named]
      exact (Path.sorted_ascending _).different

def Project.guarded (other : String) : Disk := {
  tree := .directory [
    ("vdoc.toml", .file "[project]\nname = \"soc\"\n[output]\nkind = \"module\"\n".toUTF8),
    ("src", .directory [
      ("top.v", .file other.toUTF8),
      ("alu.v", .file "module alu(input a); endmodule\n".toUTF8)])] }

/-- Both commands print the same reports, and fail alike if the other source ends inside a guard. -/
theorem Command.scan_agrees_guarded :
    ((∃ closing, Command.run (Project.guarded "`ifdef A\n") {} (.scan none) =
        .ofResult "   Scanning soc\n" closing
          (.error (.parse (.ofString "/src/top.v") (.unterminatedGuard "`ifdef=A" 2)))) ∧
      Command.run (Project.guarded "`ifdef A\n") {}
          (.parse ["/src/alu.v", "/src/top.v"] (some .text) (some .module)) =
        .ofResult "   Parsing /src/alu.v\n   Parsing /src/top.v\n" ""
          (.error (.parse (.ofString "/src/top.v") (.unterminatedGuard "`ifdef=A" 2)))) ∧
    (∃ closing, Command.run (Project.guarded "module top; endmodule\n") {} (.scan none) =
        .ofResult "   Scanning soc\n" closing
          (.ok ("/src/alu.v:\n  module alu\n    ports:\n      a : input\n" ++
            "/src/top.v:\n  module top\n\n"))) ∧
      Command.run (Project.guarded "module top; endmodule\n") {}
          (.parse ["/src/alu.v", "/src/top.v"] (some .text) (some .module)) =
        .ofResult "   Parsing /src/alu.v\n   Parsing /src/top.v\n" ""
          (.ok ("/src/alu.v:\n  module alu\n    ports:\n      a : input\n" ++
            "/src/top.v:\n  module top\n\n")) := by
  have loaded : ∀ other ∈ ["`ifdef A\n", "module top; endmodule\n"],
      Project.load (Project.guarded other) none =
        .ok (.ofString "/", { name := "soc", kind := some .module }) := by decide +kernel
  have named : ∀ other ∈ ["`ifdef A\n", "module top; endmodule\n"],
      ["/src/alu.v", "/src/top.v"].map Path.ofString =
        Project.sources (Project.guarded other) (.ofString "/") ["src"] [] := by decide +kernel
  have notices : ∀ other ∈ ["`ifdef A\n", "module top; endmodule\n"],
      String.join ((Project.attempted (Project.guarded other)
        (["/src/alu.v", "/src/top.v"].map Path.ofString)).map (ParseCommand.notice false)) =
      "   Parsing /src/alu.v\n   Parsing /src/top.v\n" := by decide +kernel
  have fails : Project.result (Project.guarded "`ifdef A\n") .text (some .module)
      (["/src/alu.v", "/src/top.v"].map Path.ofString) =
      .error (.parse (.ofString "/src/top.v") (.unterminatedGuard "`ifdef=A" 2)) := by
    decide +kernel
  have succeeds : Project.result (Project.guarded "module top; endmodule\n") .text (some .module)
      (["/src/alu.v", "/src/top.v"].map Path.ofString) =
      .ok ("/src/alu.v:\n  module alu\n    ports:\n      a : input\n" ++
        "/src/top.v:\n  module top\n\n") := by
    decide +kernel
  constructor
  · rw [← notices "`ifdef A\n" (by simp), ← fails]
    exact @Command.scan_agrees (Project.guarded "`ifdef A\n") {} {} none _ _ _
      (loaded _ (by simp)) (named _ (by simp)) (by decide)
  · rw [← notices "module top; endmodule\n" (by simp), ← succeeds]
    exact @Command.scan_agrees (Project.guarded "module top; endmodule\n") {} {} none _ _ _
      (loaded _ (by simp)) (named _ (by simp)) (by decide)

end VerilogInterface
