import VerilogInterface.Grammar.Verilog
import VerilogInterface.Interface.Module
import VerilogInterface.Interface.PortHead

/-! Modules in the ANSI style, as one writes them: a name, lists of parameters and lists of ports.
Each has one spelling and one meaning; whatever can be built here is well formed. -/

namespace VerilogInterface.Ansi

/-- The words that the grammar reads as something else where a name can stand. -/
def reserved : List String :=
  ["parameter", "signed", "integer", "realtime", "real", "time", "input", "inout", "output"]

def isIdentifier (text : String) : Bool :=
  match text.toList with
  | [] => false
  | first :: others =>
    (first.isAlpha || first == '_') && others.all fun inner => inner.isAlphanum || inner == '_'

structure Identifier where
  text : String
  spelled : isIdentifier text = true
  free : text ∉ reserved

structure Run (accept : Char → Bool) where
  text : String
  some : text.toList ≠ []
  all : ∀ character ∈ text.toList, accept character = true

/-- What stands in a default value outside a string: neither blanks nor `,;()/`. -/
def valueCharacter (inner : Char) : Bool :=
  !(inner == ',' || inner == ';' || inner == '(' || inner == ')' || inner == '/' ||
    Text.isBlank inner)

/-- A default value is a string or a row of pieces with spaces and tabs between them. -/
inductive Value where
  | quoted (content : String) (plain : ∀ inner ∈ content.toList, inner ≠ '"' ∧ inner ≠ '\n')
  | pieces (first : Run valueCharacter) (unquoted : first.text.toList.head? ≠ some '"')
      (others : List (Run Verilog.spaceOrTab × Run valueCharacter))

def Value.text : Value → String
  | quoted content _ => "\"" ++ content ++ "\""
  | pieces first _ others =>
    first.text ++ String.join (others.map fun (gap, piece) => gap.text ++ piece.text)

inductive Qualifier where
  | signed
  | integer
  | realtime
  | real
  | time
deriving DecidableEq, Repr

def Qualifier.keyword : Qualifier → String
  | signed => "signed"
  | integer => "integer"
  | realtime => "realtime"
  | real => "real"
  | time => "time"

def bracketed (content : String) : String := "[" ++ content ++ "]"

structure Assignment where
  name : Identifier
  value : Value

def Assignment.text (assignment : Assignment) : String :=
  assignment.name.text ++ " = " ++ assignment.value.text

structure Parameters where
  qualifier : Option Qualifier
  range : Option (Run (Verilog.allBut ']'))
  first : Assignment
  others : List Assignment

namespace Parameters

def head (parameters : Parameters) : String :=
  "parameter " ++ ((parameters.qualifier.map (·.keyword ++ " ")).getD "" ++
    (parameters.range.map (bracketed ·.text ++ " ")).getD "")

/-- The qualifier and the range with a space between them, as far as they are written. -/
def dataType (parameters : Parameters) : String :=
  " ".intercalate (parameters.qualifier.toList.map (·.keyword) ++
    parameters.range.toList.map (bracketed ·.text))

def items (parameters : Parameters) : List String :=
  (parameters.head ++ parameters.first.text) :: parameters.others.map (·.text)

def entries (parameters : Parameters) : List Parameter :=
  (parameters.first :: parameters.others).map fun assignment =>
    { name := assignment.name.text, direction := some .into, dataType := parameters.dataType,
      defaultValue := some assignment.value.text }

end Parameters

/-- What stands in a net type, next to letters and digits: the signs of `_:-` and the backquote. -/
def netCharacter (inner : Char) : Bool :=
  inner.isAlphanum || inner == ':' || inner == '_' || inner == '-' || inner == '`'

def dimensionCharacter (inner : Char) : Bool := netCharacter inner || Verilog.spaceOrTab inner

structure Dimension where
  text : String
  all : ∀ character ∈ text.toList, dimensionCharacter character = true

inductive Dimensions where
  | none
  | range (range : Dimension)
  /-- A range and an array in front of the name. -/
  | packed (range array : Dimension)
  /-- A range in front of the name and an array behind it. -/
  | unpacked (range array : Dimension)

structure Ports where
  direction : Direction
  outward : direction ≠ .into
  net : List (Run netCharacter)
  dimensions : Dimensions
  first : Identifier
  others : List Identifier

namespace Ports

def head (ports : Ports) : String :=
  String.join (ports.net.map (·.text ++ " ")) ++
    match ports.dimensions with
    | .none => ports.first.text
    | .range range => bracketed range.text ++ " " ++ ports.first.text
    | .packed range array =>
      bracketed range.text ++ " " ++ bracketed array.text ++ " " ++ ports.first.text
    | .unpacked range array =>
      bracketed range.text ++ " " ++ ports.first.text ++ " " ++ bracketed array.text

/-- The net type and the range with spaces between them and the array right behind. Blanks at the
ends of a dimension do not count. -/
def dataType (ports : Ports) : String :=
  let dimension (dimension : Dimension) := bracketed (Text.trim dimension.text)
  let net := ports.net.map (·.text)
  match ports.dimensions with
  | .none => " ".intercalate net
  | .range range => " ".intercalate (net ++ [dimension range])
  | .packed range array | .unpacked range array =>
    " ".intercalate (net ++ [dimension range]) ++ dimension array

def items (ports : Ports) : List String :=
  (ports.direction.keyword ++ " " ++ ports.head) :: ports.others.map (·.text)

def entries (ports : Ports) : List Parameter :=
  (ports.first :: ports.others).map fun name =>
    { name := name.text, direction := some ports.direction, dataType := ports.dataType }

end Ports

structure Interface where
  name : Identifier
  parameters : List Parameters
  ports : List Ports

namespace Interface

def parameterText (interface : Interface) : String :=
  match interface.parameters with
  | [] => ""
  | _ => "#(" ++ ", ".intercalate (interface.parameters.flatMap Parameters.items) ++ ") "

def text (interface : Interface) : String :=
  "module " ++ interface.name.text ++ " " ++ interface.parameterText ++
    "(" ++ ", ".intercalate (interface.ports.flatMap Ports.items) ++ ");\nendmodule\n"

example :
    text {
      name := ⟨"ram", by decide, by decide⟩
      parameters := [{
        qualifier := some .integer
        range := none
        first := {
          name := ⟨"Depth", by decide, by decide⟩
          value := .pieces ⟨"64", by decide, List.all_eq_true.1 (by decide)⟩ (by decide) [] }
        others := [] }]
      ports := [
        { direction := .input
          outward := nofun
          net := []
          dimensions := .none
          first := ⟨"clk", by decide, by decide⟩
          others := [⟨"reset", by decide, by decide⟩] },
        { direction := .output
          outward := nofun
          net := [⟨"reg", by decide, List.all_eq_true.1 (by decide)⟩]
          dimensions := .range ⟨"7:0", List.all_eq_true.1 (by decide)⟩
          first := ⟨"q", by decide, by decide⟩
          others := [] }] } =
      "module ram #(parameter integer Depth = 64) (input clk, reset, output reg [7:0] q);" ++
        "\nendmodule\n" := by
  decide

/-- The module has the name, the parameters and the ports that the interface writes, and nothing
else: the parameters in their order, the ports in the order of their names, and of several ports of
one name the last. -/
structure Means (interface : Interface) (module : Module) : Prop where
  name : module.name = interface.name.text
  generics : module.generics = interface.parameters.flatMap Parameters.entries
  ordered : module.ports.Pairwise (·.name < ·.name)
  ports : ∀ port, port ∈ module.ports ↔ ∃ before after,
    interface.ports.flatMap Ports.entries = before ++ port :: after ∧
      ∀ later ∈ after, later.name ≠ port.name
  sections : module.sections = []
  description : module.description = none
  guard : module.guard = none

end Interface

end VerilogInterface.Ansi
