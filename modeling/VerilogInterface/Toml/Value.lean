/-! The values of a TOML document. A table remembers how it was written, because that decides what
may still be added to it. -/

namespace VerilogInterface.Toml

/-- How a table came to be. -/
inductive Form where
  /-- Between braces; nothing can be added later. -/
  | inline
  /-- By a header of its own. -/
  | declared
  /-- On the way to the table of a longer header. -/
  | implied
  /-- On the way to the value of a dotted key. -/
  | dotted
deriving DecidableEq, Repr

inductive Value where
  | text (content : String)
  | integer (amount : Int)
  | float (spelling : String)
  | boolean (holds : Bool)
  /-- A date, a time, or both. -/
  | moment (spelling : String)
  /-- Values in order. A growing array is made of tables, one for each header in double brackets. -/
  | array (growing : Bool) (items : List Value)
  | table (form : Form) (entries : List (String × Value))
deriving Repr

/-- Named values in the order of their first mention. -/
abbrev Entries := List (String × Value)

/-- Reads something from the beginning of the characters and leaves the rest. -/
abbrev Reader (α : Type) := List Char → Option (α × List Char)

end VerilogInterface.Toml
