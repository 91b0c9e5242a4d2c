import VerilogInterface.Command.Arguments
import VerilogInterface.Project.Root
import VerilogInterface.Project.Sources

/-! The commands, and the whole program on a file system and arguments. One command reports on files
and passes over those that are not Verilog sources; the other reports on a project and only warns
if it has no sources. Either ends at the first source that fails, without any report. -/

namespace VerilogInterface

/-- What a command leaves behind: the two outputs and the exit code. -/
structure Outcome where
  code : Nat := 0
  output : String := ""
  /-- Warnings, progress and errors. -/
  messages : String := ""
deriving DecidableEq, Repr

def Outcome.failed (messages error : String) : Outcome :=
  { code := 1, messages := messages ++ "error: " ++ error ++ "\n" }

namespace ParseCommand

/-- The line announcing a file, unless the command is quiet. -/
def notice (quiet : Bool) (path : Path) : String :=
  if quiet then ""
  else if path.isVerilog then s!"   Parsing {path}\n"
  else s!"warning: skipping {path} (not a Verilog source)\n"

/-- Reports on the files one by one, each read at most once. Gives the messages up to the end or up
to the first failure. -/
def reports (disk : Disk) (quiet : Bool) (kind : Option Kind) (extraction : Extraction) :
    List Path → String × Except ExtractError (List Report)
  | [] => ("", .ok [])
  | path :: paths =>
    if path.isVerilog then
      match extraction.extract disk path kind with
      | (.error error, _) => (notice quiet path, .error error)
      | (.ok objects, next) =>
        let (messages, others) := reports disk quiet kind next paths
        (notice quiet path ++ messages, others.map ({ path, objects } :: ·))
    else
      let (messages, others) := reports disk quiet kind extraction paths
      (notice quiet path ++ messages, others)

def run (disk : Disk) (quiet : Bool) (files : List Path) (format : Format)
    (kind : Option Kind) : Outcome :=
  match reports disk quiet kind {} files with
  | (messages, .error error) => .failed messages error.message
  | (messages, .ok reports) => { output := Report.render format reports ++ "\n", messages }

end ParseCommand

namespace ScanCommand

/-- A message that a quiet command leaves out. -/
def unlessQuiet (quiet : Bool) (message : String) : String := if quiet then "" else message

/-- The report with the declarations of the wanted kind. -/
def restrict (kind : Option Kind) (report : Report) : Report :=
  { report with objects := Object.ofKind kind report.objects }

def summary (reports : List Report) : String :=
  let declarations := reports.foldl (fun count report => count + report.objects.length) 0
  s!"   Result: {reports.length} file(s), {declarations} declaration(s)\n"

def run (disk : Disk) (quiet : Bool) (designation : Option Path) (format : Option Format) :
    Outcome :=
  match Project.load disk designation with
  | .error error => .failed "" error.message
  | .ok (root, config) =>
    let opening := unlessQuiet quiet s!"   Scanning {config.name}\n"
    match Project.sources disk root config.directories config.excluded with
    | [] =>
      let places := ", ".intercalate config.directories
      { messages :=
          opening ++ unlessQuiet quiet s!"warning: no Verilog source files found in {places}\n" }
    | files =>
      match Project.reports disk files with
      | .error error => .failed opening error.message
      | .ok found =>
        let reports := found.map (restrict config.kind)
        let format := format.getD config.format
        let closing := if format = .text then unlessQuiet quiet (summary reports) else ""
        { output := Report.render format reports ++ "\n", messages := opening ++ closing }

end ScanCommand

def versionLine : String := "vdoc 0.1.0\n"

def usage : String :=
  "usage: vdoc [-q] [-v] [--config PATH] parse FILES... [-f text|json] [-k module|parameter]\n" ++
  "       vdoc [-q] [-v] [--config PATH] scan [-f text|json]\n"

def Command.run (disk : Disk) (options : GlobalOptions) : Command → Outcome
  | .parse files format kind =>
    ParseCommand.run disk options.quiet (files.map Path.ofString) (format.getD .text) kind
  | .scan format =>
    ScanCommand.run disk options.quiet (options.config.map Path.ofString) format

def run (disk : Disk) (arguments : List String) : Outcome :=
  match Arguments.request arguments with
  | .misuse => { code := 2, messages := usage }
  | .version => { output := versionLine }
  | .run options command => command.run disk options

end VerilogInterface
