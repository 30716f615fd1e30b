import Scion.Path
import Scion.Text.Blank
import Scion.Text.Split

/-!
Paths on the command line: child indices separated by commas, with blanks around them. A blank text
is the path of the root.
-/

namespace Scion.Path

/-- Indices have 64 bits. -/
def indexLimit : Nat := Nat.pow 2 64

def decimal? (ds : List Char) : Option Nat :=
  if ds.isEmpty || !ds.all Char.isDigit then none
  else
    let n := ds.foldl (fun n c => n * 10 + (c.toNat - '0'.toNat)) 0
    if n < indexLimit then some n else none

/-- Decimal digits, perhaps behind a plus sign. -/
def index? : List Char → Option Nat
  | '+' :: ds => decimal? ds
  | ds => decimal? ds

def indices? : List (List Char) → Option (List Nat)
  | [] => some []
  | part :: rest =>
    match index? (Text.trim part), indices? rest with
    | some i, some is => some (i :: is)
    | _, _ => none

def parse? (text : String) : Option Path :=
  if (Text.trim text.toList).isEmpty then some root
  else (indices? (Text.splitAt ',' text.toList)).map Path.mk

end Scion.Path
