import VerilogInterface.Text.Blank

/-! Ports and parameters share one record. A parameter has a default value and the direction `in`;
a port has one of the three directions that a source can write, and no default value. -/

namespace VerilogInterface

inductive Direction where
  | into
  | input
  | inout
  | output
deriving DecidableEq, Repr

namespace Direction

def keyword : Direction → String
  | into => "in"
  | input => "input"
  | inout => "inout"
  | output => "output"

def all : List Direction := [into, input, inout, output]

def ofKeyword? (keyword : String) : Option Direction := all.find? (·.keyword == keyword)

end Direction

structure Parameter where
  name : String
  direction : Option Direction
  dataType : String
  defaultValue : Option String := none
  description : Option (List String) := none
  /-- The innermost conditional guard around the declaration. -/
  guard : Option String := none
deriving DecidableEq, Repr

/-- A type describes a vector or an array when it has a bracket. -/
def isArray (dataType : String) : Bool := dataType.toList.contains '['

namespace Parameter

def isArray (parameter : Parameter) : Bool := VerilogInterface.isArray parameter.dataType

def display (parameter : Parameter) : String :=
  let direction := match parameter.direction with
    | some direction => direction.keyword ++ " "
    | none => ""
  let head := Text.trimEnd (parameter.name ++ " : " ++ direction ++ parameter.dataType)
  match parameter.defaultValue with
  | some value => head ++ " := " ++ value
  | none => head

end Parameter

end VerilogInterface
