import VerilogInterface.Ordered
import VerilogInterface.Text.Blank

/-! Paths are kept as they are spelled and compared by their components. Repeated and final slashes
and inner dots do not count as components; a leading dot does, and so does every double dot. -/

namespace VerilogInterface

/-- A path is the list of the texts between its slashes. -/
structure Path where
  pieces : List String
deriving DecidableEq, Repr

namespace Path

inductive Component where
  /-- The slash at the beginning of an absolute path. -/
  | root
  /-- A dot at the beginning of a relative path. -/
  | current
  | parent
  | name (text : String)
deriving DecidableEq, Repr

/-- Components of different sorts stand in this order; names stand last. -/
def Component.rank : Component → Nat
  | root => 0
  | current => 1
  | parent => 2
  | name _ => 3

def Component.text : Component → String
  | name text => text
  | _ => ""

def Component.order : Component → Component → Ordering :=
  compareLex (compareOn rank) (compareOn text)

def ofString (spelling : String) : Path :=
  ⟨(Text.pieces '/' spelling.toList).map String.ofList⟩

def toString (path : Path) : String := "/".intercalate path.pieces

instance : ToString Path := ⟨toString⟩

def isAbsolute (path : Path) : Bool :=
  match path.pieces with
  | "" :: _ :: _ => true
  | _ => false

/-- The component that a piece stands for when it is not the first. -/
def inner? : String → Option Component
  | "" => none
  | "." => none
  | ".." => some .parent
  | text => some (.name text)

def components (path : Path) : List Component :=
  match path.pieces with
  | "" :: piece :: rest => .root :: (piece :: rest).filterMap inner?
  | "." :: rest => .current :: rest.filterMap inner?
  | pieces => pieces.filterMap inner?

/-- The names that a path leads through from a place, by its spelling alone. -/
def placeFrom (path : Path) (place : List String) : List String :=
  path.pieces.foldl (fun place piece =>
      match inner? piece with
      | some (.name name) => place ++ [name]
      | some _ => place.dropLast
      | none => place)
    (if path.isAbsolute then [] else place)

/-- Paths are the same when their components are. -/
def same (first second : Path) : Bool := first.components == second.components

def order (first second : Path) : Ordering :=
  List.compareLex Component.order first.components second.components

/-- Whether the components of one path begin those of another. -/
def startsWith (path beginning : Path) : Bool := beginning.components.isPrefixOf path.components

/-- Continues a path with another; an absolute one replaces it. -/
def join (path other : Path) : Path :=
  if other.isAbsolute then other
  else if path.pieces.getLast? = some "" then ⟨path.pieces.dropLast ++ other.pieces⟩
  else ⟨path.pieces ++ other.pieces⟩

def child (path : Path) (name : String) : Path := path.join ⟨[name]⟩

/-- The pieces up to the last one that is a component, if there is one. -/
def untilLast (pieces : List String) : List String :=
  (pieces.reverse.dropWhile fun piece => (inner? piece).isNone).reverse

/-- The pieces before the last component, without what follows the component before it. -/
def withoutLast? (pieces : List String) : Option (List String) :=
  match (untilLast pieces).reverse with
  | [] => none
  | _ :: before => some (untilLast before.reverse)

/-- The path without its last component; nothing if that is missing or the root. -/
def parent? (path : Path) : Option Path :=
  match path.pieces with
  | "" :: piece :: rest =>
    (withoutLast? (piece :: rest)).map fun kept => ⟨"" :: if kept.isEmpty then [""] else kept⟩
  | first :: rest =>
    match withoutLast? rest with
    | some kept => some ⟨first :: kept⟩
    | none => if first.isEmpty then none else some ⟨[""]⟩
  | [] => none

def fileName? (path : Path) : Option String :=
  match path.components.getLast? with
  | some (.name text) => some text
  | _ => none

/-- What follows the last dot of the file name; a dot at its beginning does not count. -/
def extension? (path : Path) : Option String :=
  match path.fileName?.bind fun name => Text.cutLast? '.' name.toList with
  | some (_ :: _, after) => some (String.ofList after)
  | _ => none

/-- Verilog sources have the extension `v` or `vlog` in any case. -/
def isVerilog (path : Path) : Bool :=
  match path.extension? with
  | some extension => ["v", "vlog"].contains (String.ofList (extension.toList.map Char.toLower))
  | none => false

/-- Drops every path that is the same as the one before it. -/
def distinctAfter (last : Path) : List Path → List Path
  | [] => []
  | path :: rest =>
    if path.same last then distinctAfter last rest else path :: distinctAfter path rest

/-- The paths in order, each once, in the spelling that was met first. -/
def sorted (paths : List Path) : List Path :=
  match Ordered.sort (fun first second => (first.order second).isLE) paths with
  | [] => []
  | path :: rest => path :: distinctAfter path rest

end Path

end VerilogInterface
