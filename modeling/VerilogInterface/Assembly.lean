import VerilogInterface.Interface.Module
import VerilogInterface.Interface.PortHead
import VerilogInterface.Ordered
import VerilogInterface.ParseError

/-! Modules are put together from tokens one at a time. Port names wait until the next head, or the
end of the module, and then take the direction and type of the head before them; a documentation
line describes the last declaration, or the module while it has none. -/

namespace VerilogInterface

/-- The declaration that the next documentation line describes. -/
inductive Target where
  | generic (index : Nat)
  | waiting (index : Nat)
  | port (name : String)
deriving DecidableEq, Repr

/-- A declared name that has not yet received its direction and type. -/
structure WaitingPort where
  name : String
  guard : Option String := none
  description : Option (List String) := none
deriving DecidableEq, Repr

/-- The module under construction, the head that port names share, the open guards, and the modules
already finished. -/
structure Assembly where
  moduleName : Option String := none
  moduleGuard : Option String := none
  /-- The ports with direction and type, in the order of their last declarations. -/
  ports : List Parameter := []
  waiting : List WaitingPort := []
  generics : List Parameter := []
  /-- The section labels met so far, each with the number of ports declared before it. -/
  markers : List (Nat × String) := []
  declared : Nat := 0
  documentation : List String := []
  parameterType : String := ""
  direction : Direction := .input
  portType : String := ""
  /-- The open guards, innermost first. -/
  guards : List String := []
  target : Option Target := none
  modules : List Module := []
deriving DecidableEq, Repr

namespace Assembly

/-- Replaces the description of a declaration by one line. -/
def describe (assembly : Assembly) (line : String) : Assembly :=
  match assembly.target with
  | none => { assembly with documentation := assembly.documentation ++ [line] }
  | some (.generic index) =>
    { assembly with
      generics := assembly.generics.modify index ({ · with description := some [line] }) }
  | some (.waiting index) =>
    { assembly with
      waiting := assembly.waiting.modify index ({ · with description := some [line] }) }
  | some (.port name) =>
    { assembly with
      ports := assembly.ports.map fun port =>
        if port.name = name then { port with description := some [line] } else port }

/-- Opens a module. Guards, finished modules and documentation written before it stay. -/
def openModule (assembly : Assembly) (name : String) : Assembly :=
  { moduleName := some name
    moduleGuard := assembly.guards.head?
    documentation := assembly.documentation
    guards := assembly.guards
    modules := assembly.modules }

def addGeneric (assembly : Assembly) (name value : String) : Assembly :=
  { assembly with
    generics := assembly.generics ++
      [{ name, direction := some .into, dataType := assembly.parameterType,
         defaultValue := some value, guard := assembly.guards.head? }]
    target := some (.generic assembly.generics.length) }

def addWaiting (assembly : Assembly) (name : String) : Assembly :=
  { assembly with
    waiting := assembly.waiting ++ [{ name, guard := assembly.guards.head? }]
    declared := assembly.declared + 1
    target := some (.waiting assembly.waiting.length) }

/-- Adds a port behind all others, in place of an earlier one of its name. -/
def placePort (ports : List Parameter) (port : Parameter) : List Parameter :=
  ports.filter (·.name != port.name) ++ [port]

/-- What becomes of the documented declaration when the waiting ports are placed. -/
def settleTarget (waiting : List WaitingPort) : Option Target → Option Target
  | some (.waiting index) => waiting[index]?.map (.port ·.name)
  | target => target

/-- A waiting port with the direction and type in force. -/
def entry (assembly : Assembly) (port : WaitingPort) : Parameter :=
  { name := port.name, direction := some assembly.direction, dataType := assembly.portType,
    description := port.description, guard := port.guard }

def settle (assembly : Assembly) : Assembly :=
  { assembly with
    ports := (assembly.waiting.map assembly.entry).foldl placePort assembly.ports
    waiting := []
    target := settleTarget assembly.waiting assembly.target }

/-- Puts a head in force for the port names that follow. -/
def underHead (assembly : Assembly) (keyword : String) (head : PortHead) : Assembly :=
  { assembly with
    direction := (Direction.ofKeyword? keyword).getD .input
    portType := head.dataType }

/-- Opens a port list. The ports waiting under the previous head are settled even if this head
cannot be read; then the previous head stays in force. -/
def openPorts (text : String) (assembly : Assembly) (token : Token) :
    Assembly × Option ParseError :=
  match PortHead.parse (token.group 1) with
  | none =>
    (assembly.settle, some (.unknownPortFormat (token.group 0) (Text.trim (token.group 1))
      (Text.lineAt text token.offset)))
  | some head =>
    match head.name with
    | none => (assembly.settle.underHead (token.group 0) head, none)
    | some name => ((assembly.settle.underHead (token.group 0) head).addWaiting name, none)

/-- The module under construction as it stands, its ports in the order of their names. -/
def finished (assembly : Assembly) : Module :=
  { name := assembly.moduleName.getD ""
    ports := Ordered.sort (fun first second => first.name ≤ second.name) assembly.ports
    generics := assembly.generics
    sections := Sections.ofMarkers assembly.markers
    description := if assembly.documentation.isEmpty then none else some assembly.documentation
    guard := assembly.moduleGuard }

/-- Adds the module under construction to the finished ones and clears what belongs to it. -/
def fileModule (assembly : Assembly) : Assembly :=
  { assembly with
    moduleName := none
    moduleGuard := none
    ports := []
    generics := []
    markers := []
    documentation := []
    target := none
    modules := assembly.modules ++ [assembly.finished] }

/-- Ends the module, unless a guard is still open. -/
def closeModule (text : String) (assembly : Assembly) (token : Token) :
    Assembly × Option ParseError :=
  match assembly.guards with
  | guard :: _ =>
    (assembly.settle, some (.unterminatedGuard guard (Text.lineAt text token.offset)))
  | [] => (assembly.settle.fileModule, none)

/-- Takes up one token. A failure leaves an assembly with which one can go on. -/
def apply (text : String) (assembly : Assembly) (token : Token) :
    Assembly × Option ParseError :=
  match token.action with
  | .documentation => (assembly.describe (Text.trim (token.group 0)), none)
  | .sectionLabel =>
    ({ assembly with
        markers := assembly.markers ++ [(assembly.declared, Text.trim (token.group 0))] }, none)
  | .guardEnter =>
    ({ assembly with
        guards := (token.group 0 ++ "=" ++ token.group 1) :: assembly.guards }, none)
  | .guardExit =>
    match assembly.guards with
    | [] => (assembly, some (.unmatchedEndif (Text.lineAt text token.offset)))
    | _ :: outer => ({ assembly with guards := outer }, none)
  | .moduleStart => (assembly.openModule (token.group 0), none)
  | .parameterStart =>
    ({ assembly with
        parameterType := VerilogInterface.parameterType (token.group? 0) (token.group? 1) }, none)
  | .parameterItem => (assembly.addGeneric (token.group 0) (token.group 1), none)
  | .portStart => assembly.openPorts text token
  | .portName => (assembly.addWaiting (token.group 0), none)
  | .moduleEnd => assembly.closeModule text token
  | .commentStart | .commentEnd => (assembly, none)

/-- The modules of the whole text, unless a guard is still open at its end. A module that never
ended is dropped. -/
def finish (text : String) (assembly : Assembly) : Except ParseError (List Module) :=
  match assembly.guards with
  | guard :: _ => .error (.unterminatedGuard guard (Text.lineAt text text.utf8ByteSize))
  | [] => .ok assembly.modules

end Assembly

end VerilogInterface
