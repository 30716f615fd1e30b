import Scion.Toml.Value

/-!
Numbers, truth values, dates and times. Integers have 64 bits with sign and may be written in four
bases, with underscores between digits. Of numbers with a fraction and of dates only the form is
checked.
-/

namespace Scion.Toml.Scalar

/-- Digits of a base, none of them missing beside an underscore. -/
def digits? (isDigit : Char → Bool) (afterDigit : Bool) : List Char → Option (List Char)
  | [] => if afterDigit then some [] else none
  | c :: rest =>
    if isDigit c then (digits? isDigit true rest).map (c :: ·)
    else if c = '_' && afterDigit then digits? isDigit false rest
    else none

def digitValue (c : Char) : Nat :=
  if c.isDigit then c.toNat - '0'.toNat else c.toLower.toNat - 'a'.toNat + 10

def isHex (c : Char) : Bool :=
  c.isDigit || ('a' ≤ c && c ≤ 'f') || ('A' ≤ c && c ≤ 'F')

def isOctal (c : Char) : Bool := '0' ≤ c && c ≤ '7'

def isBinary (c : Char) : Bool := c = '0' || c = '1'

def value (base : Nat) (ds : List Char) : Nat := ds.foldl (fun n c => n * base + digitValue c) 0

/-- Integers reach from the negative of this number up to the number before it. -/
def integerLimit : Nat := Nat.pow 2 63

def inRange (n : Int) : Bool := -(integerLimit : Int) ≤ n && n < integerLimit

def inBase? (base : Nat) (isDigit : Char → Bool) (cs : List Char) : Option Int := do
  let ds ← digits? isDigit false cs
  let n : Int := value base ds
  if inRange n then some n else none

/-- The sign of a number; true means negative. -/
def sign : List Char → Bool × List Char
  | '-' :: rest => (true, rest)
  | '+' :: rest => (false, rest)
  | cs => (false, cs)

/-- Decimal digits that do not start with a zero, unless it is the only one. -/
def whole? (cs : List Char) : Option (List Char) :=
  match digits? Char.isDigit false cs with
  | some ('0' :: _ :: _) => none
  | ds? => ds?

def integer? (cs : List Char) : Option Int :=
  match cs with
  | '0' :: 'x' :: rest => inBase? 16 isHex rest
  | '0' :: 'o' :: rest => inBase? 8 isOctal rest
  | '0' :: 'b' :: rest => inBase? 2 isBinary rest
  | _ => do
    let (negative, rest) := sign cs
    let ds ← whole? rest
    let n : Int := if negative then -(value 10 ds : Int) else value 10 ds
    if inRange n then some n else none

def isExponentMark (c : Char) : Bool := c = 'e' || c = 'E'

def isExponent (cs : List Char) : Bool := (digits? Char.isDigit false (sign cs).2).isSome

/-- Digits after the point, perhaps with an exponent. -/
def isFraction (cs : List Char) : Bool :=
  match cs.span fun c => !isExponentMark c with
  | (ds, []) => (digits? Char.isDigit false ds).isSome
  | (ds, _ :: exponent) => (digits? Char.isDigit false ds).isSome && isExponent exponent

def isFloat (cs : List Char) : Bool :=
  let rest := (sign cs).2
  if rest = "inf".toList || rest = "nan".toList then true
  else
    match rest.span fun c => c ≠ '.' && !isExponentMark c with
    | (_, []) => false
    | (ds, '.' :: fraction) => (whole? ds).isSome && isFraction fraction
    | (ds, _ :: exponent) => (whole? ds).isSome && isExponent exponent

/-- A number of exactly the given count of digits, and the rest. -/
def fixed? (count : Nat) (cs : List Char) : Option (Nat × List Char) :=
  let ds := cs.take count
  if ds.length = count && ds.all Char.isDigit then some (value 10 ds, cs.drop count) else none

def separator? (c : Char) : List Char → Option (List Char)
  | [] => none
  | d :: rest => if d = c then some rest else none

def daysIn (year month : Nat) : Nat :=
  if month = 2 then
    if year % 4 = 0 && (year % 100 ≠ 0 || year % 400 = 0) then 29 else 28
  else if month = 4 || month = 6 || month = 9 || month = 11 then 30
  else 31

def date? (cs : List Char) : Option (List Char) := do
  let (year, cs) ← fixed? 4 cs
  let (month, cs) ← fixed? 2 (← separator? '-' cs)
  let (day, cs) ← fixed? 2 (← separator? '-' cs)
  if 1 ≤ month && month ≤ 12 && 1 ≤ day && day ≤ daysIn year month then some cs else none

def secondFraction? : List Char → Option (List Char)
  | '.' :: rest =>
    match rest.span Char.isDigit with
    | ([], _) => none
    | (_, rest) => some rest
  | cs => some cs

def time? (cs : List Char) : Option (List Char) := do
  let (hour, cs) ← fixed? 2 cs
  let (minute, cs) ← fixed? 2 (← separator? ':' cs)
  let (second, cs) ← fixed? 2 (← separator? ':' cs)
  if hour ≤ 23 && minute ≤ 59 && second ≤ 60 then secondFraction? cs else none

def isOffset : List Char → Bool
  | [] => true
  | [c] => c = 'Z' || c = 'z'
  | c :: rest =>
    (c = '+' || c = '-') &&
      match fixed? 2 rest with
      | some (hour, ':' :: rest) =>
        match fixed? 2 rest with
        | some (minute, []) => hour ≤ 23 && minute ≤ 59
        | _ => false
      | _ => false

def isDateTime (cs : List Char) : Bool :=
  time? cs == some [] ||
    match date? cs with
    | none => false
    | some [] => true
    | some (c :: rest) =>
      (c = 'T' || c = 't' || c = ' ') &&
        match time? rest with
        | some offset => isOffset offset
        | none => false

/-- The value of a word that is neither quoted nor bracketed. -/
def ofWord? (cs : List Char) : Option Value :=
  if cs = "true".toList then some (.boolean true)
  else if cs = "false".toList then some (.boolean false)
  else
    match integer? cs with
    | some n => some (.integer n)
    | none => if isFloat cs || isDateTime cs then some .other else none

def isWordChar (c : Char) : Bool :=
  c.isAlphanum || c = '+' || c = '-' || c = '_' || c = '.' || c = ':'

/-- A date and a time may be separated by one space. -/
def word (cs : List Char) : List Char × List Char :=
  let (first, rest) := cs.span isWordChar
  match date? first, rest with
  | some [], ' ' :: more =>
    if (more.head?.map Char.isDigit).getD false then
      let (second, rest) := more.span isWordChar
      (first ++ ' ' :: second, rest)
    else (first, rest)
  | _, _ => (first, rest)

def read? (cs : List Char) : Option (Value × List Char) :=
  let (cs, rest) := word cs
  (ofWord? cs).map fun v => (v, rest)

end Scion.Toml.Scalar
