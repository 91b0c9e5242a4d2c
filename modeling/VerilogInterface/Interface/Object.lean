import VerilogInterface.Interface.Module

/-! A declaration is a module or a single port or parameter. Both answer the same questions. -/

namespace VerilogInterface

inductive Kind where
  | module
  | parameter
deriving DecidableEq, Repr

namespace Kind

def name : Kind → String
  | module => "module"
  | parameter => "parameter"

def all : List Kind := [module, parameter]

def ofName? (name : String) : Option Kind := all.find? (·.name == name)

end Kind

inductive Object where
  | module (entry : Module)
  | parameter (entry : Parameter)
deriving DecidableEq, Repr

namespace Object

def name : Object → String
  | .module entry => entry.name
  | .parameter entry => entry.name

def kind : Object → Kind
  | .module _ => .module
  | .parameter _ => .parameter

def description : Object → Option (List String)
  | .module entry => entry.description
  | .parameter entry => entry.description

def guard : Object → Option String
  | .module entry => entry.guard
  | .parameter entry => entry.guard

def display : Object → String
  | .module entry => entry.display
  | .parameter entry => entry.display

def isKind (object : Object) (kind : Kind) : Bool := object.kind == kind

/-- The declarations of the wanted kind, or all of them if none is asked for. -/
def ofKind (wanted : Option Kind) (objects : List Object) : List Object :=
  match wanted with
  | none => objects
  | some kind => objects.filter (·.isKind kind)

end Object

end VerilogInterface
