import Scion.Decimal.Shortest

/-!
Numbers of a data format that knows 64-bit integers, signed or not, and binary64 numbers. A numeral
without fraction and exponent that fits is an integer; everything else is rounded. A numeral keeps
as many digits as fit in 64 bits and is then scaled by a power of ten; it is refused when it lies
beyond the finite numbers.
-/

namespace Scion.Json

inductive Number where
  | integer (value : Int)
  /-- A rounded number, by its shortest decimal. -/
  | real (negative : Bool) (value : Decimal)
deriving DecidableEq, Repr

namespace Number

def wordLimit : Nat := Nat.pow 2 64

def digit? (c : Char) : Option Nat := if c.isDigit then some (c.toNat - '0'.toNat) else none

/-- The parts of a numeral. -/
structure Numeral where
  negative : Bool
  whole : List Nat
  fraction? : Option (List Nat)
  exponent? : Option (Bool × List Nat)

/-- A maximal run of digits, and what follows it. -/
def digits : List Char → List Nat × List Char
  | [] => ([], [])
  | c :: rest =>
    match digit? c with
    | some d =>
      let (ds, rest) := digits rest
      (d :: ds, rest)
    | none => ([], c :: rest)

def fraction? : List Char → Option (Option (List Nat) × List Char)
  | '.' :: rest =>
    match digits rest with
    | ([], _) => none
    | (ds, rest) => some (some ds, rest)
  | rest => some (none, rest)

/-- The sign of an exponent; true means negative. -/
def exponentSign : List Char → Bool × List Char
  | '-' :: rest => (true, rest)
  | '+' :: rest => (false, rest)
  | rest => (false, rest)

def exponent? : List Char → Option (Option (Bool × List Nat))
  | [] => some none
  | c :: rest =>
    if c = 'e' ∨ c = 'E' then
      let (negative, rest) := exponentSign rest
      match digits rest with
      | ([], _) => none
      | (ds, []) => some (some (negative, ds))
      | (_, _ :: _) => none
    else none

/-- No numeral starts with a zero unless it is the only digit before the point. -/
def numeral? (cs : List Char) : Option Numeral := do
  let (negative, cs) := match cs with
    | '-' :: rest => (true, rest)
    | _ => (false, cs)
  let (whole, rest) := digits cs
  match whole with
  | [] => none
  | 0 :: _ :: _ => none
  | _ =>
    let (fraction, rest) ← fraction? rest
    let exponent ← exponent? rest
    return ⟨negative, whole, fraction, exponent⟩

/-- Appends digits to a number as long as it fits; returns also the digits left over. -/
def keep (n : Nat) : List Nat → Nat × List Nat
  | [] => (n, [])
  | d :: ds => if n * 10 + d < wordLimit then keep (n * 10 + d) ds else (n, d :: ds)

def powerOfTen? (k : Nat) : Option Binary64 := Binary64.ofNat? (Nat.pow 10 k)

/-- Scales by a power of ten in steps of at most 308; three steps down reach zero. -/
def scale? : Nat → Binary64 → Int → Option Binary64
  | 0, _, _ => some .zero
  | steps + 1, b, exponent =>
    if exponent.natAbs ≤ 308 then do
      let power ← powerOfTen? exponent.natAbs
      if 0 ≤ exponent then b.mul? power else b.div? power
    else if b.mantissa = 0 then some b
    else if 0 ≤ exponent then none
    else do
      let power ← powerOfTen? 308
      scale? steps (← b.div? power) (exponent + 308)

def ofDigits (ds : List Nat) : Nat := ds.foldl (fun n d => n * 10 + d) 0

/-- Exponents from here on are not computed with. -/
def exponentLimit : Nat := Nat.pow 2 31

def round? (negative : Bool) (significand : Nat) (exponent : Int) : Option Number := do
  let b ← scale? 6 (← Binary64.ofNat? significand) exponent
  return .real negative (.ofBinary b)

/-- The number that a numeral stands for. -/
def ofNumeral? (n : Numeral) : Option Number :=
  let (significand, dropped) := keep 0 n.whole
  let (significand, shift) :=
    match n.fraction? with
    | none => (significand, (dropped.length : Int))
    | some ds =>
      let (kept, left) := keep significand ds
      (kept, (dropped.length : Int) - (ds.length - left.length : Nat))
  match n.exponent? with
  | some (negative, ds) =>
    if ofDigits ds < exponentLimit then
      round? n.negative significand (if negative then shift - ofDigits ds else shift + ofDigits ds)
    else if significand ≠ 0 && !negative then none
    else some (.real n.negative ⟨0, 0⟩)
  | none =>
    if n.fraction?.isSome || !dropped.isEmpty then round? n.negative significand shift
    else if !n.negative then some (.integer significand)
    else if 0 < significand ∧ significand ≤ Nat.pow 2 63 then some (.integer (-significand))
    else round? true significand 0

def parse? (cs : List Char) : Option Number := (numeral? cs).bind ofNumeral?

/-- The digits of a positive decimal: with a point when it stands near them, else with an exponent.
A point is written for every number from a hundred thousandth up to ten to the sixteenth. -/
def renderPositive (d : Decimal) : String :=
  let ds := toString d.digits
  let point : Int := ds.length + d.exponent
  if 0 ≤ d.exponent ∧ point ≤ 16 then ds ++ "".pushn '0' d.exponent.toNat ++ ".0"
  else if 0 < point ∧ point ≤ 16 then
    String.ofList (ds.toList.take point.toNat) ++ "." ++ String.ofList (ds.toList.drop point.toNat)
  else if -5 < point ∧ point ≤ 0 then "0." ++ "".pushn '0' (-point).toNat ++ ds
  else
    match ds.toList with
    | [c] => String.singleton c ++ "e" ++ toString (point - 1)
    | c :: cs => String.singleton c ++ "." ++ String.ofList cs ++ "e" ++ toString (point - 1)
    | [] => ""

def render : Number → String
  | integer value => toString value
  | real negative value =>
    (if negative then "-" else "") ++ (if value.digits = 0 then "0.0" else renderPositive value)

end Number

end Scion.Json
