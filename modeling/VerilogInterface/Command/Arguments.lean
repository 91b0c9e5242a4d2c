import VerilogInterface.Report

/-! The arguments of the command line. Options may stand anywhere before or after the command's
name, short ones joined behind one hyphen; on either side each may stand once, and a value after
the name overrides one before it. -/

namespace VerilogInterface

structure GlobalOptions where
  quiet : Bool := false
  verbose : Bool := false
  config : Option String := none
deriving DecidableEq, Repr

inductive LogLevel where
  | error
  | warn
  | debug
deriving DecidableEq, Repr

def LogLevel.name : LogLevel → String
  | error => "ERROR"
  | warn => "WARN"
  | debug => "DEBUG"

/-- Being quiet wins over being verbose. -/
def GlobalOptions.logLevel (options : GlobalOptions) : LogLevel :=
  if options.quiet then .error else if options.verbose then .debug else .warn

inductive Command where
  /-- Report on files. -/
  | parse (files : List String) (format : Option Format) (kind : Option Kind)
  /-- Report on the sources of a project. -/
  | scan (format : Option Format)
deriving DecidableEq, Repr

inductive Request where
  | run (options : GlobalOptions) (command : Command)
  | version
  | misuse
deriving DecidableEq, Repr

namespace Arguments

inductive Flag where
  | quiet
  | verbose
  | version
  | config
  | format
  | kind
deriving DecidableEq, Repr

namespace Flag

def long : Flag → String
  | quiet => "quiet"
  | verbose => "verbose"
  | version => "version"
  | config => "config"
  | format => "format"
  | kind => "kind"

def short? : Flag → Option Char
  | quiet => some 'q'
  | verbose => some 'v'
  | version => some 'V'
  | config => none
  | format => some 'f'
  | kind => some 'k'

def takesValue : Flag → Bool
  | config | format | kind => true
  | quiet | verbose | version => false

def front : List Flag := [quiet, verbose, version, config]

def parse : List Flag := [quiet, verbose, config, format, kind]

def scan : List Flag := [quiet, verbose, config, format]

end Flag

structure Reading where
  quiet : Bool := false
  verbose : Bool := false
  config : Option String := none
  format : Option Format := none
  kind : Option Kind := none
  files : List String := []
deriving DecidableEq, Repr

namespace Reading

/-- Sets an option without a value. The version is given at once. -/
def switch (reading : Reading) : Flag → Except Request Reading
  | .quiet => if reading.quiet then .error .misuse else .ok { reading with quiet := true }
  | .verbose => if reading.verbose then .error .misuse else .ok { reading with verbose := true }
  | .version => .error .version
  | .config | .format | .kind => .error .misuse

def store (reading : Reading) (value : String) : Flag → Except Request Reading
  | .config =>
    if reading.config.isSome then .error .misuse
    else .ok { reading with config := some value }
  | .format =>
    match reading.format, Format.ofName? value with
    | none, some format => .ok { reading with format := some format }
    | _, _ => .error .misuse
  | .kind =>
    match reading.kind, Kind.ofName? value with
    | none, some kind => .ok { reading with kind := some kind }
    | _, _ => .error .misuse
  | .quiet | .verbose | .version => .error .misuse

/-- Reads the letters behind a hyphen. An option with a value takes the letters after it, or else
waits for the next word. -/
def letters (flags : List Flag) (reading : Reading) :
    List Char → Except Request (Reading × Option Flag)
  | [] => .ok (reading, none)
  | letter :: rest =>
    match flags.find? (·.short? == some letter) with
    | none => .error .misuse
    | some flag =>
      if flag.takesValue then
        match rest with
        | [] => .ok (reading, some flag)
        | '=' :: value => (reading.store (String.ofList value) flag).map (·, none)
        | value => (reading.store (String.ofList value) flag).map (·, none)
      else
        match reading.switch flag with
        | .ok next => next.letters flags rest
        | .error request => .error request

/-- Reads a name behind two hyphens, with a value behind an equals sign or in the next word. -/
def name (flags : List Flag) (reading : Reading) (characters : List Char) :
    Except Request (Reading × Option Flag) :=
  let (name, value) :=
    match Text.cut? '=' characters with
    | some (name, value) => (name, some (String.ofList value))
    | none => (characters, none)
  match flags.find? (·.long.toList == name), value with
  | none, _ => .error .misuse
  | some flag, some value => (reading.store value flag).map (·, none)
  | some flag, none =>
    if flag.takesValue then .ok (reading, some flag) else (reading.switch flag).map (·, none)

end Reading

/-- How a word is understood where options may stand. -/
inductive Word where
  /-- Two hyphens alone: no options follow. -/
  | divider
  | name (characters : List Char)
  | letters (characters : List Char)
  /-- Anything else, also a single hyphen. -/
  | plain (text : String)

def Word.ofString (text : String) : Word :=
  match text.toList with
  | ['-', '-'] => .divider
  | '-' :: '-' :: characters => .name characters
  | ['-'] => .plain text
  | '-' :: characters => .letters characters
  | _ => .plain text

/-- Reads the words before the command's name, and gives the name and the words after it. The
option waits for its value. -/
def readFront (reading : Reading) (waiting : Option Flag) :
    List String → Except Request (Reading × String × List String)
  | [] => .error .misuse
  | word :: words =>
    match waiting, Word.ofString word with
    | some flag, .plain value =>
      match reading.store value flag with
      | .ok next => readFront next none words
      | .error request => .error request
    | none, .plain text => .ok (reading, text, words)
    | none, .name characters =>
      match reading.name Flag.front characters with
      | .ok (next, waiting) => readFront next waiting words
      | .error request => .error request
    | none, .letters characters =>
      match reading.letters Flag.front characters with
      | .ok (next, waiting) => readFront next waiting words
      | .error request => .error request
    | _, _ => .error .misuse

def readBack (flags : List Flag) (reading : Reading) (waiting : Option Flag) :
    List String → Except Request Reading
  | [] => if waiting.isSome then .error .misuse else .ok reading
  | word :: words =>
    match waiting, Word.ofString word with
    | some flag, .plain value =>
      match reading.store value flag with
      | .ok next => readBack flags next none words
      | .error request => .error request
    | none, .plain text =>
      readBack flags { reading with files := reading.files ++ [text] } none words
    | none, .divider => .ok { reading with files := reading.files ++ words }
    | none, .name characters =>
      match reading.name flags characters with
      | .ok (next, waiting) => readBack flags next waiting words
      | .error request => .error request
    | none, .letters characters =>
      match reading.letters flags characters with
      | .ok (next, waiting) => readBack flags next waiting words
      | .error request => .error request
    | some _, _ => .error .misuse

def globalOptions (front back : Reading) : GlobalOptions :=
  { quiet := front.quiet || back.quiet
    verbose := front.verbose || back.verbose
    config := back.config.or front.config }

private def understand (arguments : List String) : Except Request Request := do
  let (front, command, words) ← readFront {} none arguments
  match command with
  | "parse" =>
    let back ← readBack Flag.parse {} none words
    if back.files.isEmpty then .error .misuse
    else .ok (.run (globalOptions front back) (.parse back.files back.format back.kind))
  | "scan" =>
    let back ← readBack Flag.scan {} none words
    if back.files.isEmpty then .ok (.run (globalOptions front back) (.scan back.format))
    else .error .misuse
  | _ => .error .misuse

def request (arguments : List String) : Request :=
  match understand arguments with
  | .ok request => request
  | .error request => request

end Arguments

end VerilogInterface
