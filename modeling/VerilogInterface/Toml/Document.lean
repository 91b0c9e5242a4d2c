import VerilogInterface.Toml.Statement

/-! A document is the table that its statements build. Every header gathers the assignments up to
the next one. -/

namespace VerilogInterface.Toml

/-- Makes every line break a single character. -/
def unifyBreaks : List Char → List Char
  | '\r' :: '\n' :: rest => '\n' :: unifyBreaks rest
  | character :: rest => character :: unifyBreaks rest
  | [] => []

/-- Drops a byte order mark at the beginning. -/
def withoutMark : List Char → List Char
  | '\ufeff' :: rest => rest
  | characters => characters

/-- The assignments before the first header, and the statements from there on. -/
def assignments : List Statement → List (List String × String × Value) × List Statement
  | .assign way name value :: rest =>
    let (found, others) := assignments rest
    ((way, name, value) :: found, others)
  | others => ([], others)

def fill (found : List (List String × String × Value)) (entries : Entries) : Option Entries :=
  found.foldlM (fun entries (way, name, value) => assign way name value entries) entries

/-- Adds the sections of a document one by one; the number bounds them. -/
def addSections : Nat → List Statement → Entries → Option Entries
  | 0, _, _ => none
  | _ + 1, [], entries => some entries
  | bound + 1, .header way name :: rest, entries => do
    let (found, others) := assignments rest
    addSections bound others (← changeAt (declare name (fill found)) way entries)
  | bound + 1, .element way name :: rest, entries => do
    let (found, others) := assignments rest
    addSections bound others (← changeAt (extend name (fill found)) way entries)
  | _ + 1, .assign _ _ _ :: _, _ => none

def parse (text : String) : Option Entries := do
  let characters := withoutMark (unifyBreaks text.toList)
  let found ← statements (characters.length + 1) characters
  let (first, sections) := assignments found
  addSections (sections.length + 1) sections (← fill first [])

end VerilogInterface.Toml
