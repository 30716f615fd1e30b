import Scion.Decimal.Binary64

/-!
The shortest decimal that reads back as a given binary number, and of several such decimals the
nearest. The candidates on the grid of a power of ten are the two neighbours of the number; the
coarsest grid on which one of them reads back wins.
-/

namespace Scion

/-- A decimal `digits * 10 ^ exponent`. -/
structure Decimal where
  digits : Nat
  exponent : Int
deriving DecidableEq, Repr

namespace Decimal

/-- Numerator and denominator of a decimal. -/
def ratio (d : Decimal) : Nat × Nat :=
  if 0 ≤ d.exponent then (d.digits * Nat.pow 10 d.exponent.toNat, 1)
  else (d.digits, Nat.pow 10 (-d.exponent).toNat)

/-- The decimal reads back as the number. -/
def readsAs (d : Decimal) (b : Binary64) : Bool :=
  let (num, den) := d.ratio
  Binary64.ofRatio? num den == some b

/-- The quotient divided by a power of ten, rounded down, and whether the upper neighbour is nearer;
in the middle the even one counts as nearer. -/
def gridBelow (num den : Nat) (exponent : Int) : Nat × Bool :=
  let (n, d) :=
    if 0 ≤ exponent then (num, den * Nat.pow 10 exponent.toNat)
    else (num * Nat.pow 10 (-exponent).toNat, den)
  let twice := 2 * (n % d)
  (n / d, d < twice || (twice == d && n / d % 2 == 1))

/-- The better of the two neighbours on a grid that reads back. -/
def onGrid? (b : Binary64) (exponent : Int) : Option Decimal :=
  let (num, den) := Binary64.ratio b.mantissa b.exponent
  let (below, upperNearer) := gridBelow num den exponent
  let lower : Decimal := ⟨below, exponent⟩
  let upper : Decimal := ⟨below + 1, exponent⟩
  let (first, second) := if upperNearer then (upper, lower) else (lower, upper)
  if 0 < first.digits && first.readsAs b then some first
  else if 0 < second.digits && second.readsAs b then some second
  else none

/-- Tries finer and finer grids. -/
def refine (b : Binary64) : Nat → Int → Option Decimal
  | 0, _ => none
  | grids + 1, exponent =>
    match onGrid? b exponent with
    | some d => some d
    | none => refine b grids (exponent - 1)

/-- Moves zeros at the end of the digits into the exponent. -/
def normalize : Nat → Decimal → Decimal
  | 0, d => d
  | steps + 1, d =>
    if d.digits ≠ 0 ∧ d.digits % 10 = 0 then normalize steps ⟨d.digits / 10, d.exponent + 1⟩ else d

/-- A power of ten above every finite number. -/
def topExponent : Int := 309

/-- Seventeen digits always read back, and the smallest number needs no finer grid than the 340th
negative power of ten. -/
def ofBinary (b : Binary64) : Decimal :=
  if b.mantissa = 0 then ⟨0, 0⟩
  else
    match refine b 650 topExponent with
    | some d => normalize 20 d
    | none => ⟨0, 0⟩

end Decimal

end Scion
