import Scion.Toml.Value

/-!
Adding to tables. A name is given once: a key has one value, and a table is opened by one header. A
dotted key extends only tables that dotted keys have made; a header may pass through any table.
-/

namespace Scion.Toml

namespace Entries

def get? (key : String) (entries : Entries) : Option Value := entries.lookup key

/-- Changes the value of a key that is there; a key that is not there is added at the end. -/
def update (key : String) (f : Option Value → Option Value) : Entries → Option Entries
  | [] => (f none).map fun v => [(key, v)]
  | (k, v) :: rest =>
    if k = key then (f (some v)).map fun v => (k, v) :: rest
    else (update key f rest).map ((k, v) :: ·)

/-- Enters a value under a dotted key. -/
def assign : List String → Value → Entries → Option Entries
  | [], _, _ => none
  | [key], value, entries =>
    entries.update key fun
      | none => some value
      | some _ => none
  | key :: next :: more, value, entries =>
    entries.update key fun
      | none => (assign (next :: more) value []).map (.table .dotted)
      | some (.table .dotted inner) =>
        (assign (next :: more) value inner).map (.table .dotted)
      | some (.table .implied inner) =>
        if more.isEmpty then none
        else (assign (next :: more) value inner).map (.table .implied)
      | some (.tables (inner :: elements)) =>
        if more.isEmpty then none
        else (assign (next :: more) value inner).map fun inner => .tables (inner :: elements)
      | some _ => none

/-- Changes the table that a header names, passing through the tables on the way. -/
def within (f : Entries → Option Entries) : List String → Entries → Option Entries
  | [], entries => f entries
  | key :: path, entries =>
    entries.update key fun
      | none => (within f path []).map (.table .implied)
      | some (.table .inline _) => none
      | some (.table origin inner) => (within f path inner).map (.table origin)
      | some (.tables (inner :: elements)) =>
        (within f path inner).map fun inner => .tables (inner :: elements)
      | some _ => none

/-- Opens the table of a header. -/
def openTable (key : String) (entries : Entries) : Option Entries :=
  entries.update key fun
    | none => some (.table .header [])
    | some (.table .implied inner) => some (.table .header inner)
    | some _ => none

/-- Starts another of the tables under one name. -/
def openElement (key : String) (entries : Entries) : Option Entries :=
  entries.update key fun
    | none => some (.tables [[]])
    | some (.tables elements) => some (.tables ([] :: elements))
    | some _ => none

end Entries

end Scion.Toml
