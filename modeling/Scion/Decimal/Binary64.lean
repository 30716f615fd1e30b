/-!
Non-negative finite numbers of the binary64 format, in exact arithmetic on natural numbers. A number
is a mantissa of at most 53 bits times a power of two that is at least the 1074th negative one;
rounding takes the nearest such number and the even mantissa in the middle.
-/

namespace Scion

structure Binary64 where
  mantissa : Nat
  exponent : Int
deriving DecidableEq, Repr

namespace Binary64

/-- Mantissas are smaller than this. -/
def mantissaLimit : Nat := Nat.pow 2 53

def leastExponent : Int := -1074

def greatestExponent : Int := 971

def zero : Binary64 := ⟨0, leastExponent⟩

/-- The quotient rounded to a natural number, halves to the even neighbour. -/
def roundDiv (num den : Nat) : Nat :=
  let q := num / den
  let twice := 2 * (num % den)
  if twice < den then q
  else if den < twice then q + 1
  else if q % 2 = 0 then q else q + 1

/-- `num / den` divided by a power of two, as a pair of natural numbers. -/
def scaled (num den : Nat) (exponent : Int) : Nat × Nat :=
  if 0 ≤ exponent then (num, den * Nat.pow 2 exponent.toNat)
  else (num * Nat.pow 2 (-exponent).toNat, den)

/-- The exponent at which a quotient has a mantissa of 53 bits, but none below the least one. -/
def exponentFor (num den : Nat) : Int :=
  let guess : Int := (num.log2 : Int) - den.log2 - 53
  let (n, d) := scaled num den guess
  max leastExponent (if mantissaLimit ≤ n / d then guess + 1 else guess)

/-- The number nearest to a quotient; there is none beyond the largest. -/
def ofRatio? (num den : Nat) : Option Binary64 :=
  if num = 0 then some zero
  else
    let exponent := exponentFor num den
    let (n, d) := scaled num den exponent
    let mantissa := roundDiv n d
    let rounded : Binary64 :=
      if mantissa = mantissaLimit then ⟨mantissaLimit / 2, exponent + 1⟩ else ⟨mantissa, exponent⟩
    if greatestExponent < rounded.exponent then none else some rounded

/-- Numerator and denominator of a mantissa at an exponent. -/
def ratio (mantissa : Nat) (exponent : Int) : Nat × Nat :=
  if 0 ≤ exponent then (mantissa * Nat.pow 2 exponent.toNat, 1)
  else (mantissa, Nat.pow 2 (-exponent).toNat)

def mul? (a b : Binary64) : Option Binary64 :=
  let (num, den) := ratio (a.mantissa * b.mantissa) (a.exponent + b.exponent)
  ofRatio? num den

/-- The divisor has to be positive. -/
def div? (a b : Binary64) : Option Binary64 :=
  let (num, den) := ratio a.mantissa (a.exponent - b.exponent)
  ofRatio? num (den * b.mantissa)

def ofNat? (n : Nat) : Option Binary64 := ofRatio? n 1

end Binary64

end Scion
