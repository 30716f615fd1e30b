import Scion.Config

/-!
Reading a configuration out of a value of some format. Fields may be given by name or, in a list, by
position. A field that is missing has its default, a name that is not known is passed over, and a
field given twice or with a value of the wrong kind is refused.
-/

namespace Scion.Config

/-- A record as a format shows it. -/
inductive Shape (V : Type) where
  | named (fields : List (String × V))
  | listed (items : List V)

/-- What the values of a format can be read as. -/
structure Reading (V : Type) where
  text? : V → Option String
  /-- A count that may also be left open. -/
  count? : V → Option (Option Nat)
  flag? : V → Option Bool
  format? : V → Option OutputFormat
  shape? : V → Option (Shape V)
  /-- A list may be longer than the record has fields. -/
  ignoresExcess : Bool

namespace Shape

variable {V : Type}

/-- The value of a field; there is no answer when it is given twice. -/
def field? (name : String) (position : Nat) : Shape V → Option (Option V)
  | named fields =>
    match fields.filter fun f => f.1 = name with
    | [] => some none
    | [f] => some (some f.2)
    | _ :: _ :: _ => none
  | listed items => some items[position]?

/-- A field with its default. -/
def get? {α : Type} (shape : Shape V) (name : String) (position : Nat) (decode : V → Option α)
    (default : α) : Option α :=
  match shape.field? name position with
  | none => none
  | some none => some default
  | some (some v) => decode v

def fits (ignoresExcess : Bool) (size : Nat) : Shape V → Bool
  | named _ => true
  | listed items => ignoresExcess || items.length ≤ size

end Shape

namespace Reading

variable {V : Type} (r : Reading V)

def record? (size : Nat) (v : V) : Option (Shape V) :=
  (r.shape? v).bind fun shape => if shape.fits r.ignoresExcess size then some shape else none

def settings? (v : V) : Option GraftSettings := do
  let shape ← r.record? 4 v
  let defaults : GraftSettings := {}
  let maxSolutions ← shape.get? "max_solutions" 0 r.count? defaults.maxSolutions
  let maxExtensions ← shape.get? "max_extensions" 1 r.count? defaults.maxExtensions
  let checkValidity ← shape.get? "check_validity" 2 r.flag? defaults.checkValidity
  let expandTrivial ← shape.get? "expand_trivial" 3 r.flag? defaults.expandTrivial
  return ⟨maxSolutions, maxExtensions, checkValidity, expandTrivial⟩

def output? (v : V) : Option OutputSettings := do
  let shape ← r.record? 2 v
  let defaults : OutputSettings := {}
  let format ← shape.get? "format" 0 r.format? defaults.format
  let showOpen ← shape.get? "show_open" 1 r.flag? defaults.showOpen
  return ⟨format, showOpen⟩

def config? (v : V) : Option GraftConfig := do
  let shape ← r.record? 3 v
  let defaults : GraftConfig := {}
  let version ← shape.get? "version" 0 r.text? defaults.version
  let insertion ← shape.get? "insertion" 1 r.settings? defaults.insertion
  let output ← shape.get? "output" 2 r.output? defaults.output
  return ⟨version, insertion, output⟩

end Reading

end Scion.Config
