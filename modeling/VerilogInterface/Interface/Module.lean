import VerilogInterface.Interface.Parameter

/-! The interface of a module: its ports in the order of their names, its parameters in the order
of the source, and the labels that divide its ports into sections. -/

namespace VerilogInterface

/-- Section labels, each at the number of port declarations before it, in ascending order. -/
abbrev Sections := List (Nat × String)

namespace Sections

/-- Sets the label at a count, in place of one that was there before. -/
def put (count : Nat) (label : String) : Sections → Sections
  | [] => [(count, label)]
  | (other, text) :: rest =>
    if count < other then (count, label) :: (other, text) :: rest
    else if count = other then (count, label) :: rest
    else (other, text) :: put count label rest

/-- The labels of a list of markers; of several at one count the last stays. -/
def ofMarkers (markers : List (Nat × String)) : Sections :=
  markers.foldl (fun sections (count, label) => sections.put count label) []

def label? (sections : Sections) (count : Nat) : Option String :=
  (sections.find? (·.1 == count)).map (·.2)

/-- The labels at the given count and beyond. -/
def labelsFrom (sections : Sections) (count : Nat) : List String :=
  (sections.filter (count ≤ ·.1)).map (·.2)

end Sections

structure Module where
  name : String
  ports : List Parameter := []
  generics : List Parameter := []
  sections : Sections := []
  description : Option (List String) := none
  /-- The innermost conditional guard around the beginning of the module. -/
  guard : Option String := none
deriving DecidableEq, Repr

/-- Finds the entry of the given name between two positions by halving, where names ascend. -/
def findByName (entries : Array Parameter) (name : String) (low high : Nat) : Option Parameter :=
  if low < high then
    match entries[(low + high) / 2]? with
    | none => none
    | some entry =>
      match compare entry.name name with
      | .eq => some entry
      | .lt => findByName entries name ((low + high) / 2 + 1) high
      | .gt => findByName entries name low ((low + high) / 2)
  else none
termination_by high - low

namespace Module

def port? (module : Module) (name : String) : Option Parameter :=
  findByName module.ports.toArray name 0 module.ports.length

def generic? (module : Module) (name : String) : Option Parameter :=
  module.generics.find? (·.name == name)

def display (module : Module) : String :=
  "module " ++ module.name ++ " [" ++ ", ".intercalate (module.ports.map (·.name)) ++ "]"

end Module

end VerilogInterface
