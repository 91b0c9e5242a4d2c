import VerilogInterface.Project.Config

/-! Finding a project. Its root is the nearest directory with a project file, from the working
directory upwards, unless a file or a directory is named. -/

namespace VerilogInterface

inductive ProjectError where
  | notFound (start : Path)
  | config (cause : ConfigError)
deriving DecidableEq, Repr

def ProjectError.message : ProjectError → String
  | notFound start => s!"could not find vdoc.toml in {start} or any parent directory"
  | config cause => cause.message

namespace Project

def fileName : String := "vdoc.toml"

def file (directory : Path) : Path := directory.child fileName

/-- The path and all paths got by leaving out last components; the number bounds them. -/
def ancestors : Nat → Path → List Path
  | 0, path => [path]
  | bound + 1, path =>
    match path.parent? with
    | some parent => path :: ancestors bound parent
    | none => [path]

/-- The nearest path from the start upwards with a project file. -/
def find (disk : Disk) (start : Path) : Except ProjectError Path :=
  match (ancestors start.components.length start).find? fun path => disk.exists? (file path) with
  | some root => .ok root
  | none => .error (.notFound start)

/-- The root of the project that the designation names; without one, the nearest project. -/
def root (disk : Disk) (designation : Option Path) : Except ProjectError Path :=
  match designation with
  | some path =>
    if disk.isFile path then .ok (path.parent?.getD (.ofString "."))
    else .ok path
  | none => find disk disk.workingPath

/-- The root of a project and its configuration. A file is loaded whatever its name. -/
def load (disk : Disk) (designation : Option Path) : Except ProjectError (Path × Config) := do
  let root ← root disk designation
  let path :=
    match designation with
    | some path => if disk.isFile path then path else file root
    | none => file root
  match Config.load disk path with
  | .ok config => .ok (root, config)
  | .error cause => .error (.config cause)

end Project

end VerilogInterface
