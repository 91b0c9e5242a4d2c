import VerilogInterface.FileTree
import VerilogInterface.Report
import VerilogInterface.Text.Blank
import VerilogInterface.Toml.Document

/-! What a project file says: the project's name, where its sources are and how to report them. Only
the name is required; unknown fields are passed over. -/

namespace VerilogInterface

structure Config where
  name : String
  description : String := ""
  /-- Directories with sources, below the project's root. -/
  directories : List String := ["src"]
  /-- Beginnings of paths below the root that are left out. -/
  excluded : List String := []
  format : Format := .text
  /-- The only kind of declarations to report. -/
  kind : Option Kind := none
deriving DecidableEq, Repr

inductive ConfigError where
  | unreadable (cause : AccessError)
  /-- The file is not a document. -/
  | malformed
  /-- A field is missing or has a value of the wrong kind. -/
  | mistyped
  | unnamed
  | noDirectory
  | blankDirectory (entry : String)
deriving DecidableEq, Repr

def ConfigError.message : ConfigError → String
  | unreadable cause => s!"failed to read configuration: {cause.message}"
  | malformed => "failed to parse configuration: the file is not well formed"
  | mistyped => "failed to parse configuration: a field is missing or has the wrong type"
  | unnamed => "missing required field: project.name"
  | noDirectory => "validation error: sources.dirs must list at least one directory"
  | blankDirectory entry =>
    s!"validation error: sources.dirs contains an empty entry: {Text.quoteBlank entry}"

namespace Config

open Toml

/-- The fields of a record: named in a table, or in their order in an array. A date has none of
them. -/
def fields? (names : List String) : Value → Option (List (Option Value))
  | .table _ entries => some (names.map fun name => entries.lookup name)
  | .array _ items => some (names.mapIdx fun index _ => items[index]?)
  | .moment _ => some (names.map fun _ => none)
  | _ => none

def text? : Value → Option String
  | .text content => some content
  | _ => none

def texts? : Value → Option (List String)
  | .array _ items => items.mapM text?
  | _ => none

/-- One of several words, written as a string or as the name of an empty container. -/
def choice? (ofName? : String → Option α) : Value → Option α
  | .text name => ofName? name
  | .table _ [(name, .table _ [])] => ofName? name
  | .table _ [(name, .array _ [])] => ofName? name
  | _ => none

/-- A field that keeps its default if it is missing. -/
def field? (decode : Value → Option α) (default : α) : Option Value → Option α
  | some value => decode value
  | none => some default

def ofEntries? (entries : Entries) : Option Config := do
  match ← fields? ["name", "description"] (← entries.lookup "project"),
    ← fields? ["dirs", "exclude"] ((entries.lookup "sources").getD (.table .implied [])),
    ← fields? ["format", "kind"] ((entries.lookup "output").getD (.table .implied [])) with
  | [name, description], [directories, excluded], [format, kind] =>
    some {
      name := ← text? (← name)
      description := ← field? text? "" description
      directories := ← field? texts? ["src"] directories
      excluded := ← field? texts? [] excluded
      format := ← field? (choice? Format.ofName?) .text format
      kind := ← field? (fun value => (choice? Kind.ofName? value).map some) none kind }
  | _, _, _ => none

/-- A configuration needs a name and directories that are not blank. -/
def validate (config : Config) : Except ConfigError Config :=
  if Text.isBlankText config.name then .error .unnamed
  else if config.directories.isEmpty then .error .noDirectory
  else
    match config.directories.find? Text.isBlankText with
    | some entry => .error (.blankDirectory entry)
    | none => .ok config

def parse (text : String) : Except ConfigError Config :=
  match Toml.parse text with
  | none => .error .malformed
  | some entries =>
    match ofEntries? entries with
    | none => .error .mistyped
    | some config => config.validate

def load (disk : Disk) (path : Path) : Except ConfigError Config :=
  match disk.read path with
  | .error cause => .error (.unreadable cause)
  | .ok text => parse text

end Config

end VerilogInterface
