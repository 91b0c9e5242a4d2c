import VerilogInterface.Toml.Value

/-! Adding to tables. A name is given once; a dotted key extends only tables that dotted keys have
made, and a header takes over only a table that longer headers have implied. -/

namespace VerilogInterface.Toml

def replace (name : String) (value : Value) (entries : Entries) : Entries :=
  entries.map fun entry => if entry.1 == name then (name, value) else entry

def add (name : String) (value : Value) (entries : Entries) : Option Entries :=
  if (entries.lookup name).isSome then none else some (entries ++ [(name, value)])

/-- Changes the last of the tables of a growing array. -/
def changeLast (change : Entries → Option Entries) (items : List Value) : Option (List Value) :=
  match items.reverse with
  | .table form entries :: others => do some (.table form (← change entries) :: others).reverse
  | _ => none

/-- Adds a value below a table that a dotted key has entered. -/
def assignBelow (name : String) (value : Value) (form : Form) :
    List String → Entries → Option Entries
  | [], entries => if form = .dotted then add name value entries else none
  | part :: way, entries =>
    match entries.lookup part with
    | none => do
      let inner ← assignBelow name value .dotted way []
      some (entries ++ [(part, .table .dotted inner)])
    | some (.table form inner) =>
      if form = .dotted ∨ form = .implied then do
        let inner ← assignBelow name value form way inner
        some (replace part (.table form inner) entries)
      else none
    | some (.array true items) => do
      let items ← changeLast (assignBelow name value .declared way) items
      some (replace part (.array true items) entries)
    | some _ => none

def assign (way : List String) (name : String) (value : Value) (entries : Entries) :
    Option Entries :=
  match way with
  | [] => add name value entries
  | _ => assignBelow name value .declared way entries

/-- Changes the table at the end of a header's way, implying tables where there are none. -/
def changeAt (change : Entries → Option Entries) : List String → Entries → Option Entries
  | [], entries => change entries
  | part :: way, entries =>
    match entries.lookup part with
    | none => do some (entries ++ [(part, .table .implied (← changeAt change way []))])
    | some (.table .inline _) => none
    | some (.table form inner) => do
      some (replace part (.table form (← changeAt change way inner)) entries)
    | some (.array true items) => do
      some (replace part (.array true (← changeLast (changeAt change way) items)) entries)
    | some _ => none

/-- Gives a header its entries: a new table, or one that was only implied so far. -/
def declare (name : String) (fill : Entries → Option Entries) (entries : Entries) :
    Option Entries :=
  match entries.lookup name with
  | none => do some (entries ++ [(name, .table .declared (← fill []))])
  | some (.table .implied inner) => do
    some (entries.filter (·.1 != name) ++ [(name, .table .declared (← fill inner))])
  | some _ => none

/-- Gives a header in double brackets its entries, as one more table of a growing array. -/
def extend (name : String) (fill : Entries → Option Entries) (entries : Entries) : Option Entries :=
  match entries.lookup name with
  | none => do some (entries ++ [(name, .array true [.table .declared (← fill [])])])
  | some (.array true items) => do
    some (replace name (.array true (items ++ [.table .declared (← fill [])])) entries)
  | some _ => none

end VerilogInterface.Toml
