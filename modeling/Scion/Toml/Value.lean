/-!
Values of a configuration text. Tables remember how they came about, because that decides what may
be added to them later.
-/

namespace Scion.Toml

/-- How a table came about. -/
inductive Origin where
  /-- Written in one piece between braces. -/
  | inline
  /-- Opened by a header of its own. -/
  | header
  /-- Only named on the way to a header further down. -/
  | implied
  /-- Named by a dotted key. -/
  | dotted
deriving DecidableEq, Repr

inductive Value where
  | string (text : String)
  | integer (value : Int)
  | boolean (value : Bool)
  /-- A number with a fraction, a date or a time. -/
  | other
  | array (items : List Value)
  | table (origin : Origin) (entries : List (String × Value))
  /-- Tables under one name, each opened by a header in double brackets, last first. -/
  | tables (elements : List (List (String × Value)))
deriving Repr, Inhabited

abbrev Entries := List (String × Value)

end Scion.Toml
