import VerilogInterface.Extraction
import VerilogInterface.Report

/-! The sources of a project: the Verilog files below its directories, without those whose paths
begin like an excluded path, in the order of their paths. -/

namespace VerilogInterface

namespace FileTree

mutual
/-- The Verilog files in a tree that stands at the given path. Entries at pruned paths are left
out with everything below them. -/
def sources (pruned : Path → Bool) (path : Path) : FileTree → List Path
  | .file _ => if path.isVerilog then [path] else []
  | .directory entries => sourcesAmong pruned path entries

def sourcesAmong (pruned : Path → Bool) (path : Path) : List (String × FileTree) → List Path
  | [] => []
  | (name, tree) :: entries =>
    (if pruned (path.child name) then [] else tree.sources pruned (path.child name)) ++
      sourcesAmong pruned path entries
end

end FileTree

namespace Project

/-- The sources below some directories of a root. What is not a directory has none. -/
def sources (disk : Disk) (root : Path) (directories excluded : List String) : List Path :=
  let prunes := excluded.map fun entry => root.join (.ofString entry)
  let pruned (path : Path) : Bool := prunes.any path.startsWith
  Path.sorted <| directories.flatMap fun entry =>
    let start := root.join (.ofString entry)
    match disk.get? start with
    | some (.directory entries) => FileTree.sourcesAmong pruned start entries
    | _ => []

def reports (disk : Disk) (paths : List Path) : Except ExtractError (List Report) :=
  paths.mapM fun path => (fileDeclarations disk path).map fun objects => { path, objects }

end Project

end VerilogInterface
