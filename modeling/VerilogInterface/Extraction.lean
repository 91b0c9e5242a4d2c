import VerilogInterface.FileTree
import VerilogInterface.Parse

/-! Reading declarations from files. An extraction keeps what each path gave at its first success,
so later changes of the file do not show; failures are not kept. -/

namespace VerilogInterface

inductive ExtractError where
  | read (path : Path) (cause : AccessError)
  | parse (path : Path) (cause : ParseError)
deriving DecidableEq, Repr

namespace ExtractError

def message : ExtractError → String
  | read path cause => s!"cannot read {path}: {cause.message}"
  | parse path cause => s!"{path}: {cause.message}"

end ExtractError

def fileDeclarations (disk : Disk) (path : Path) : Except ExtractError (List Object) :=
  match disk.read path with
  | .error cause => .error (.read path cause)
  | .ok text =>
    match declarations text none with
    | .error cause => .error (.parse path cause)
    | .ok objects => .ok objects

/-- The declarations found so far, under the paths as they were first spelled. -/
structure Extraction where
  found : List (Path × List Object) := []

namespace Extraction

/-- What is kept for a path, however it is spelled. -/
def find? (extraction : Extraction) (path : Path) : Option (List Object) :=
  (extraction.found.find? (·.1.same path)).map (·.2)

def extract (extraction : Extraction) (disk : Disk) (path : Path) (kind : Option Kind) :
    Except ExtractError (List Object) × Extraction :=
  match extraction.find? path with
  | some objects => (.ok (Object.ofKind kind objects), extraction)
  | none =>
    match fileDeclarations disk path with
    | .error error => (.error error, extraction)
    | .ok objects =>
      (.ok (Object.ofKind kind objects), { found := (path, objects) :: extraction.found })

def paths (extraction : Extraction) : List Path := Path.sorted (extraction.found.map (·.1))

def size (extraction : Extraction) : Nat := extraction.found.length

def isEmpty (extraction : Extraction) : Bool := extraction.found.isEmpty

end Extraction

/-- The failure of reading one file on its own. -/
inductive FileError where
  | read (path : Path) (cause : AccessError)
  | parse (cause : ParseError)
deriving DecidableEq, Repr

def FileError.message : FileError → String
  | read path cause => s!"failed to read {path}: {cause.message}"
  | parse cause => cause.message

def parseFile (disk : Disk) (path : Path) : Except FileError (List Module) :=
  match disk.read path with
  | .error cause => .error (.read path cause)
  | .ok text => (parse text).mapError .parse

end VerilogInterface
