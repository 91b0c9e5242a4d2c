import VerilogInterface.Command.Run

/-! The command line. The parts of the file system that a run can look at are copied first; the run
itself is a function of that copy and the arguments. -/

namespace VerilogInterface.Main

/-- Copies a file or a directory; what cannot be read is left out. -/
partial def copy (path : String) : IO (Option FileTree) := do
  try
    let real ← IO.FS.realPath path
    if ← real.isDir then
      let mut entries := []
      for entry in ← real.readDir do
        if let some tree ← copy entry.path.toString then
          entries := (entry.fileName, tree) :: entries
      return some (.directory entries)
    else return some (.file (← IO.FS.readBinFile real))
  catch _ => return none

def add (disk : Disk) (path : Path) (tree : FileTree) : Disk :=
  { disk with tree := FileTree.put tree disk.tree (path.placeFrom disk.working) }

def addAll (disk : Disk) (path : Path) : IO Disk := do
  match ← copy path.toString with
  | some tree => return add disk path tree
  | none => return disk

/-- Adds a file, or a directory with nothing but its project file. -/
def addProject (disk : Disk) (path : Path) : IO Disk := do
  try
    if ← (← IO.FS.realPath path.toString).isDir then
      let disk := if disk.exists? path then disk else add disk path (.directory [])
      addAll disk (Project.file path)
    else addAll disk path
  catch _ => return disk

/-- The directories with sources of a project, as far as they can be known. -/
def sourceDirectories (disk : Disk) (designation : Option Path) : List Path :=
  match Project.load disk designation with
  | .ok (root, config) => config.directories.map fun entry => root.join (.ofString entry)
  | .error _ => []

def survey (arguments : List String) : IO Disk := do
  let here := Path.ofString (← IO.currentDir).toString
  let working := here.placeFrom []
  let mut disk : Disk := { tree := FileTree.put (.directory []) (.directory []) working, working }
  match Arguments.request arguments with
  | .run _ (.parse files _ _) =>
    for file in files.map Path.ofString do
      if file.isVerilog then disk ← addAll disk file
  | .run options (.scan _) =>
    let designation := options.config.map Path.ofString
    match designation with
    | some path => disk ← addProject disk path
    | none =>
      for directory in Project.ancestors here.components.length here do
        disk ← addAll disk (Project.file directory)
    for directory in sourceDirectories disk designation do
      disk ← addAll disk directory
  | _ => pure ()
  return disk

end VerilogInterface.Main

/-- Runs the program on the file system and leaves with its exit code. -/
def main (arguments : List String) : IO UInt32 := do
  let outcome := VerilogInterface.run (← VerilogInterface.Main.survey arguments) arguments
  (← IO.getStderr).putStr outcome.messages
  (← IO.getStdout).putStr outcome.output
  return outcome.code.toUInt32
