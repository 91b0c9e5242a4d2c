import VerilogInterface.Interface.Object
import VerilogInterface.Json.Value

/-! Declarations as JSON values and back. A record is an object with one member for every field, or
an array of the fields in their order; unknown members are passed over, and members that may be
empty may also be missing. -/

namespace VerilogInterface.Json

/-- A value that may be missing, which is then null. -/
def ofOption (encode : α → Json) : Option α → Json
  | some value => encode value
  | none => .null

def ofTexts (texts : List String) : Json := .array (texts.map .text)

def ofParameter (parameter : Parameter) : Json :=
  .object [
    ("name", .text parameter.name),
    ("mode", ofOption (fun direction => .text direction.keyword) parameter.direction),
    ("data_type", .text parameter.dataType),
    ("default_value", ofOption .text parameter.defaultValue),
    ("description", ofOption ofTexts parameter.description),
    ("define", ofOption .text parameter.guard)]

def decimal (number : Nat) : String := String.ofList (Nat.toDigits 10 number)

def ofSections (sections : Sections) : Json :=
  .object (sections.map fun (count, label) => (decimal count, .text label))

def ofModule (module : Module) : Json :=
  .object [
    ("name", .text module.name),
    ("ports", .array (module.ports.map ofParameter)),
    ("generics", .array (module.generics.map ofParameter)),
    ("sections", ofSections module.sections),
    ("description", ofOption ofTexts module.description),
    ("define", ofOption .text module.guard)]

/-- A declaration stands under the name of its kind. -/
def ofObject : Object → Json
  | .module entry => .object [(Kind.module.name, ofModule entry)]
  | .parameter entry => .object [(Kind.parameter.name, ofParameter entry)]

def toText? : Json → Option String
  | .text content => some content
  | _ => none

def toList? (decode : Json → Option α) : Json → Option (List α)
  | .array items => items.mapM decode
  | _ => none

/-- A value that null stands for as well as any other. -/
def toOption? (decode : Json → Option α) : Json → Option (Option α)
  | .null => some none
  | value => (decode value).map some

/-- The fields of a record. Members may be missing from an object, but an array has them all. -/
def fields? (names : List String) : Json → Option (List (Option Json))
  | .object members => some (names.map fun name => member? name members)
  | .array items => if items.length = names.length then some (items.map some) else none
  | _ => none

/-- A direction is its keyword, or an object in which the keyword stands for null. -/
def toDirection? : Json → Option Direction
  | .text keyword => Direction.ofKeyword? keyword
  | .object [(keyword, .null)] => Direction.ofKeyword? keyword
  | _ => none

/-- A field that has to be there. -/
def required (decode : Json → Option α) (field : Option Json) : Option α := field.bind decode

/-- A field that is null if it is missing. -/
def optional (decode : Json → Option α) (field : Option Json) : Option (Option α) :=
  toOption? decode (field.getD .null)

def toParameter? (value : Json) : Option Parameter := do
  match ← fields? ["name", "mode", "data_type", "default_value", "description", "define"] value with
  | [name, mode, dataType, defaultValue, description, define] =>
    some {
      name := ← required toText? name
      direction := ← optional toDirection? mode
      dataType := ← required toText? dataType
      defaultValue := ← optional toText? defaultValue
      description := ← optional (toList? toText?) description
      guard := ← optional toText? define }
  | _ => none

/-- The number of a section: decimal digits without needless zeros, within 64 bits. -/
def toCount? (name : String) : Option Nat :=
  match name.toList with
  | [] => none
  | '0' :: _ :: _ => none
  | digits =>
    if digits.all Char.isDigit then
      let number := digits.foldl (fun number digit => 10 * number + (digit.toNat - '0'.toNat)) 0
      if number ≤ 18446744073709551615 then some number else none
    else none

def toSections? : Json → Option Sections
  | .object members =>
    (members.mapM fun (name, value) => do some (← toCount? name, ← toText? value)).map
      Sections.ofMarkers
  | _ => none

def toModule? (value : Json) : Option Module := do
  match ← fields? ["name", "ports", "generics", "sections", "description", "define"] value with
  | [name, ports, generics, sections, description, define] =>
    some {
      name := ← required toText? name
      ports := ← required (toList? toParameter?) ports
      generics := ← required (toList? toParameter?) generics
      sections := ← required toSections? sections
      description := ← optional (toList? toText?) description
      guard := ← optional toText? define }
  | _ => none

/-- A declaration is an object with exactly one member, named for the kind. -/
def toObject? : Json → Option Object
  | .object [(name, value)] =>
    match Kind.ofName? name with
    | some .module => (toModule? value).map .module
    | some .parameter => (toParameter? value).map .parameter
    | none => none
  | _ => none

end VerilogInterface.Json
