/-! What a scan of a Verilog source distinguishes: the surroundings it is in and the meanings a
piece of text can have there. Both have a fixed spelling for reports. -/

namespace VerilogInterface

/-- The surroundings of a scan, which decide the rules that apply. -/
inductive State where
  | root
  | module
  | parameters
  | modulePort
  /-- Inside a comment that may span lines. -/
  | blockComment
deriving DecidableEq, Repr

namespace State

def name : State → String
  | root => "root"
  | module => "module"
  | parameters => "parameters"
  | modulePort => "module_port"
  | blockComment => "block_comment"

def all : List State := [root, module, parameters, modulePort, blockComment]

def ofName? (name : String) : Option State := all.find? (·.name == name)

end State

/-- The meaning of a token. -/
inductive Action where
  | guardEnter
  | guardExit
  | moduleStart
  | moduleEnd
  | commentStart
  | commentEnd
  | documentation
  /-- A label for the ports that follow. -/
  | sectionLabel
  /-- A parameter list begins, with the type of its parameters. -/
  | parameterStart
  /-- A parameter with its default value. -/
  | parameterItem
  /-- A port list begins, with the direction and the rest of the head. -/
  | portStart
  /-- A port that shares the preceding head. -/
  | portName
deriving DecidableEq, Repr

namespace Action

def name : Action → String
  | guardEnter => "define"
  | guardExit => "endif"
  | moduleStart => "module"
  | moduleEnd => "end_module"
  | commentStart => "block_comment"
  | commentEnd => "end_comment"
  | documentation => "metacomment"
  | sectionLabel => "section_meta"
  | parameterStart => "parameter_start"
  | parameterItem => "param_item"
  | portStart => "module_port_start"
  | portName => "port_param"

def all : List Action :=
  [guardEnter, guardExit, moduleStart, moduleEnd, commentStart, commentEnd, documentation,
    sectionLabel, parameterStart, parameterItem, portStart, portName]

def ofName? (name : String) : Option Action := all.find? (·.name == name)

end Action

end VerilogInterface
