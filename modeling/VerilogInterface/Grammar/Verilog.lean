import VerilogInterface.Grammar.Rule
import VerilogInterface.Text.Blank

/-! The part of Verilog that declares interfaces. A direction or the word `parameter` opens a list
that runs to the next closing parenthesis or semicolon; outside such lists everything unknown is
skipped, and inside them everything unknown is an error. -/

namespace VerilogInterface.Verilog

open Pattern Text

def only (expected : Char) : Char → Bool := (· == expected)

def allBut (excluded : Char) : Char → Bool := (· != excluded)

def symbol (expected : Char) : Pattern := .literal [expected]

def word : Pattern := run isWord

def blanks : Pattern := .most isBlank

def spaceOrTab (character : Char) : Bool := character == ' ' || character == '\t'

/-- The rest of the line, with its line break unless the text ends first. -/
def lineEnd : Pattern := .orElse (symbol '\n') .textEnd

/-- A conditional directive and the macro it tests. -/
def guardEnter : Pattern :=
  sequence [.capture 0 (oneOf [exactly "`ifdef", exactly "`ifndef"]), run isBlank,
    .capture 1 word]

def guardExit : Pattern := sequence [exactly "`endif", .wordEdge]

def commentStart : Pattern := exactly "/*"

def commentEnd : Pattern := exactly "*/"

/-- A documentation line whose text is a label in double braces. -/
def sectionLabel : Pattern :=
  sequence [exactly "//#", blanks, exactly "\x7b\x7b", .capture 0 (.fewest (allBut '\n')),
    exactly "\x7d\x7d", .most (allBut '\n'), lineEnd]

/-- A line comment marked as documentation by one or more number signs. -/
def documentation : Pattern :=
  sequence [exactly "//", run (only '#'), .capture 0 (.most (allBut '\n')), lineEnd]

def lineComment : Pattern := sequence [exactly "//", .most (allBut '\n'), lineEnd]

/-- A whole word, a run of blanks, or any one character. -/
def anything : Pattern := oneOf [word, run isBlank, .one fun _ => true]

def moduleStart : Pattern :=
  sequence [exactly "module", run isBlank, .capture 0 word, blanks]

def moduleEnd : Pattern := sequence [exactly "endmodule", .wordEdge]

/-- A string literal on one line, in which a backslash hides the character after it. -/
def stringLiteral : Pattern :=
  sequence [symbol '"',
    .rounds (.orElse
      (.one fun inner => inner != '"' && inner != '\\' && inner != '\n')
      (.andThen (symbol '\\') (.one (allBut '\n')))),
    symbol '"']

/-- Everything from an opening keyword to the nearest closing one. -/
def block (first last : String) : Pattern :=
  sequence [exactly first, .wordEdge, .fewest fun _ => true, .wordEdge, exactly last, .wordEdge]

def functionBlock : Pattern := block "function" "endfunction"

def taskBlock : Pattern := block "task" "endtask"

/-- A range in brackets that is not empty. -/
def range : Pattern := sequence [symbol '[', run (allBut ']'), symbol ']']

/-- The keyword of a parameter list, with a qualifier and a range for its parameters. -/
def parameterHead : Pattern :=
  sequence [exactly "parameter", .wordEdge, blanks,
    optional (sequence [
      .capture 0 (oneOf (["signed", "integer", "realtime", "real", "time"].map exactly)),
      .wordEdge]),
    blanks, optional (.capture 1 range)]

/-- A run of characters that can stand in a default value outside a string. -/
def valuePart : Pattern :=
  run fun inner => !(inner == ',' || inner == ';' || inner == '(' || inner == ')' ||
    inner == '/' || isBlank inner)

/-- A parameter's name and default value; the value is a string or parts on one line. -/
def parameterItem : Pattern :=
  sequence [blanks, .capture 0 word, blanks, symbol '=', blanks,
    .capture 1 (.orElse
      (sequence [symbol '"', .most fun inner => inner != '"' && inner != '\n',
        symbol '"'])
      (.andThen valuePart (.rounds (.andThen (run spaceOrTab) valuePart)))),
    blanks]

/-- What can follow a direction on its own line: types, names and ranges. -/
def startsHead (inner : Char) : Bool :=
  inner.isAlphanum || inner == ':' || inner == '[' || inner == ']' || inner == '_' || inner == '-'

def continuesHead (inner : Char) : Bool :=
  startsHead inner || inner == '`' || spaceOrTab inner

/-- A direction and the head it opens, which stands on the direction's line or, if that line has
nothing more, on a later one. -/
def portHead : Pattern :=
  sequence [
    .capture 0 (oneOf (["input", "inout", "output"].map exactly)), .wordEdge,
    .capture 1 (.orElse
      (sequence [.most spaceOrTab, .one fun inner => startsHead inner || inner == '`',
        .most continuesHead])
      (.andThen (.most spaceOrTab)
        (optional (sequence [symbol '\n', blanks, .one startsHead, .most continuesHead]))))]

def portName : Pattern := sequence [blanks, .capture 0 word, blanks, optional (symbol ',')]

def separator : Pattern := .andThen blanks (symbol ',')

def listEnd : Pattern := .andThen blanks (.one fun inner => inner == ')' || inner == ';')

def guards : List Rule :=
  [⟨guardEnter, some .guardEnter, none⟩, ⟨guardExit, some .guardExit, none⟩]

def openComment : Rule := ⟨commentStart, some .commentStart, some (.push .blockComment)⟩

def skip (pattern : Pattern) : Rule := ⟨pattern, none, none⟩

def rootRules : List Rule :=
  guards ++
  [⟨moduleStart, some .moduleStart, some (.push .module)⟩,
    openComment,
    ⟨documentation, some .documentation, none⟩,
    skip lineComment,
    skip anything]

def moduleRules : List Rule :=
  guards ++
  [skip stringLiteral,
    skip functionBlock,
    skip taskBlock,
    ⟨parameterHead, some .parameterStart, some (.push .parameters)⟩,
    ⟨portHead, some .portStart, some (.push .modulePort)⟩,
    ⟨moduleEnd, some .moduleEnd, some .pop⟩,
    openComment,
    ⟨sectionLabel, some .sectionLabel, none⟩,
    ⟨documentation, some .documentation, none⟩,
    skip lineComment,
    skip anything]

def parameterRules : List Rule :=
  guards ++
  [⟨.andThen blanks parameterHead, some .parameterStart, none⟩,
    ⟨parameterItem, some .parameterItem, none⟩,
    skip separator,
    ⟨listEnd, none, some .pop⟩,
    openComment,
    ⟨documentation, some .documentation, none⟩,
    skip lineComment,
    skip (run isBlank)]

def portRules : List Rule :=
  guards ++
  [⟨sequence [blanks, portHead, blanks, optional (symbol ',')], some .portStart, none⟩,
    ⟨portName, some .portName, none⟩,
    skip separator,
    ⟨listEnd, none, some .pop⟩,
    openComment,
    ⟨sectionLabel, some .sectionLabel, none⟩,
    ⟨documentation, some .documentation, none⟩,
    skip lineComment,
    skip (run isBlank)]

def commentRules : List Rule :=
  [⟨commentEnd, some .commentEnd, some .pop⟩,
    skip (.orElse (run (allBut '*')) (.one fun _ => true))]

def table : RuleTable
  | .root => rootRules
  | .module => moduleRules
  | .parameters => parameterRules
  | .modulePort => portRules
  | .blockComment => commentRules

end VerilogInterface.Verilog
