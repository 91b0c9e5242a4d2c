import VerilogInterface.Json.Record
import VerilogInterface.Path

/-! Reports of the declarations in files, as indented text for readers or as a JSON document for
programs. In text, section labels stand between the ports at the positions they count. -/

namespace VerilogInterface

/-- The declarations found in one file. -/
structure Report where
  path : Path
  objects : List Object
deriving DecidableEq, Repr

inductive Format where
  | text
  | json
deriving DecidableEq, Repr

namespace Format

def name : Format → String
  | text => "text"
  | json => "json"

def all : List Format := [text, json]

def ofName? (name : String) : Option Format := all.find? (·.name == name)

end Format

namespace Report

/-- A declaration with its guard and its description. -/
def parameterLine (parameter : Parameter) : String :=
  parameter.display ++
    (match parameter.guard with
      | some guard => " [" ++ guard ++ "]"
      | none => "") ++
    (match parameter.description with
      | some lines => "  # " ++ " ".intercalate lines
      | none => "")

def labelLine (label : String) : String := "      -- " ++ label

/-- The lines of ports from a position on: before each port the label at its position, and after
the last port the labels that remain. -/
def portLines (sections : Sections) (position : Nat) : List Parameter → List String
  | [] => (sections.labelsFrom position).map labelLine
  | port :: ports =>
    ((sections.label? position).map labelLine).toList ++
      ("      " ++ parameterLine port) :: portLines sections (position + 1) ports

def moduleLines (module : Module) : List String :=
  let heading := "  module " ++ module.name ++
    match module.guard with
    | some guard => " [" ++ guard ++ "]"
    | none => ""
  let description := (module.description.getD []).map ("    " ++ ·)
  let generics :=
    if module.generics.isEmpty then []
    else "    parameters:" :: module.generics.map fun generic => "      " ++ parameterLine generic
  let ports :=
    if module.ports.isEmpty && module.sections.isEmpty then []
    else "    ports:" :: portLines module.sections 0 module.ports
  heading :: description ++ generics ++ ports

def objectLines : Object → List String
  | .module entry => moduleLines entry
  | .parameter entry => ["  " ++ parameterLine entry]

def lines (report : Report) : List String :=
  (report.path.toString ++ ":") ::
    if report.objects.isEmpty then ["  (no modules)"] else report.objects.flatMap objectLines

/-- Every line of every report, each with a line break. -/
def renderText (reports : List Report) : String :=
  String.join ((reports.flatMap lines).map (· ++ "\n"))

end Report

namespace Json

def ofReport (report : Report) : Json :=
  .object [("path", .text report.path.toString), ("objects", .array (report.objects.map ofObject))]

def toReport? (value : Json) : Option Report := do
  match ← fields? ["path", "objects"] value with
  | [path, objects] =>
    some {
      path := Path.ofString (← required toText? path)
      objects := ← required (toList? toObject?) objects }
  | _ => none

end Json

namespace Report

def renderJson (reports : List Report) : String := (Json.array (reports.map Json.ofReport)).pretty

/-- The reports in the given format. -/
def render (format : Format) (reports : List Report) : String :=
  match format with
  | .text => renderText reports
  | .json => renderJson reports

end Report

end VerilogInterface
