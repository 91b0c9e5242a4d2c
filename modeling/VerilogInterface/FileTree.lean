import VerilogInterface.Path

/-! A file system as a value: a tree of directories with files at its leaves, and a place in it from
which relative paths start. A path is followed piece by piece, so a file cannot be passed through,
not even by a final slash or a dot. -/

namespace VerilogInterface

inductive FileTree where
  | file (bytes : ByteArray)
  | directory (entries : List (String × FileTree))

inductive AccessError where
  | notFound
  | notDirectory
  | isDirectory
  | notText
deriving DecidableEq, Repr

def AccessError.message : AccessError → String
  | notFound => "No such file or directory (os error 2)"
  | notDirectory => "Not a directory (os error 20)"
  | isDirectory => "Is a directory (os error 21)"
  | notText => "stream did not contain valid UTF-8"

namespace FileTree

def entries : FileTree → List (String × FileTree)
  | file _ => []
  | directory entries => entries

/-- The tree at the end of a list of names, outermost name first. -/
def at? (tree : FileTree) : List String → Option FileTree
  | [] => some tree
  | name :: names =>
    match tree.entries.lookup name with
    | some entry => entry.at? names
    | none => none

def setEntry (name : String) (tree : FileTree) : List (String × FileTree) → List (String × FileTree)
  | [] => [(name, tree)]
  | (other, old) :: rest =>
    if other = name then (name, tree) :: rest else (other, old) :: setEntry name tree rest

/-- Puts a tree at the end of a list of names, making directories on the way. -/
def put (new tree : FileTree) : List String → FileTree
  | [] => new
  | name :: names =>
    let old := (tree.entries.lookup name).getD (.directory [])
    .directory (setEntry name (put new old names) tree.entries)

def remove (tree : FileTree) : List String → FileTree
  | [] => tree
  | [name] => .directory (tree.entries.filter (·.1 != name))
  | name :: names =>
    match tree.entries.lookup name with
    | some entry => .directory (setEntry name (entry.remove names) tree.entries)
    | none => tree

end FileTree

/-- A file system and the working directory in it, given by names, outermost first. -/
structure Disk where
  tree : FileTree
  working : List String := []

namespace Disk

/-- Follows one piece of a path from a place in the tree. -/
def follow (tree : FileTree) (place : List String) (piece : String) :
    Except AccessError (List String) :=
  match tree.at? place with
  | none => .error .notFound
  | some (.file _) => .error .notDirectory
  | some (.directory entries) =>
    match Path.inner? piece with
    | none => .ok place
    | some (.name name) =>
      if (entries.lookup name).isSome then .ok (place ++ [name]) else .error .notFound
    | some _ => .ok place.dropLast

/-- The place that a path leads to. The empty path leads nowhere. -/
def locate (disk : Disk) (path : Path) : Except AccessError (List String) :=
  if path.pieces = [""] then .error .notFound
  else path.pieces.foldlM (follow disk.tree) (if path.isAbsolute then [] else disk.working)

def get? (disk : Disk) (path : Path) : Option FileTree :=
  match disk.locate path with
  | .ok place => disk.tree.at? place
  | .error _ => none

def isFile (disk : Disk) (path : Path) : Bool :=
  match disk.get? path with
  | some (.file _) => true
  | _ => false

def exists? (disk : Disk) (path : Path) : Bool := (disk.get? path).isSome

def read (disk : Disk) (path : Path) : Except AccessError String := do
  let place ← disk.locate path
  match disk.tree.at? place with
  | none => .error .notFound
  | some (.directory _) => .error .isDirectory
  | some (.file bytes) =>
    match String.fromUTF8? bytes with
    | some text => .ok text
    | none => .error .notText

def workingPath (disk : Disk) : Path :=
  ⟨"" :: if disk.working.isEmpty then [""] else disk.working⟩

end Disk

end VerilogInterface
