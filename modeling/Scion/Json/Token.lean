import Scion.Json.Number

/-!
Tokens of the data format. A text is read one character at a time; between tokens blanks are
skipped, and a word or numeral ends where the next token or blank begins.
-/

namespace Scion.Json

inductive Token where
  | openArray
  | closeArray
  | openObject
  | closeObject
  | colon
  | comma
  | null
  | bool (value : Bool)
  | number (value : Number)
  | string (text : String)
deriving DecidableEq, Repr

namespace Token

/-- The code units of a string that is being read, last first, or the state between tokens. -/
inductive Mode where
  | between
  | inString (units : List Nat)
  | afterBackslash (units : List Nat)
  /-- `missing` hexadecimal digits of an escaped unit are still to come. -/
  | inUnit (missing value : Nat) (units : List Nat)
  | inWord (read : List Char)

def isSpace (c : Char) : Bool := c = ' ' || c = '\t' || c = '\n' || c = '\r'

def punctuation? (c : Char) : Option Token :=
  if c = '[' then some openArray
  else if c = ']' then some closeArray
  else if c = '\x7b' then some openObject
  else if c = '\x7d' then some closeObject
  else if c = ':' then some colon
  else if c = ',' then some comma
  else none

def word? (cs : List Char) : Option Token :=
  if cs = "null".toList then some null
  else if cs = "true".toList then some (bool true)
  else if cs = "false".toList then some (bool false)
  else (Number.parse? cs).map number

def escaped? (c : Char) : Option Nat :=
  if c = '"' || c = '\\' || c = '/' then some c.toNat
  else if c = 'b' then some 0x8
  else if c = 'f' then some 0xc
  else if c = 'n' then some 0xa
  else if c = 'r' then some 0xd
  else if c = 't' then some 0x9
  else none

def hexValue? (c : Char) : Option Nat :=
  if '0' ≤ c ∧ c ≤ '9' then some (c.toNat - '0'.toNat)
  else if 'a' ≤ c ∧ c ≤ 'f' then some (c.toNat - 'a'.toNat + 10)
  else if 'A' ≤ c ∧ c ≤ 'F' then some (c.toNat - 'A'.toNat + 10)
  else none

def isHighSurrogate (n : Nat) : Bool := 0xd800 ≤ n && n < 0xdc00

def isLowSurrogate (n : Nat) : Bool := 0xdc00 ≤ n && n < 0xe000

/-- Joins pairs of surrogates; one that stands alone is refused. -/
def joinUnits? : List Nat → Option (List Char)
  | [] => some []
  | n :: rest =>
    if isHighSurrogate n then
      match rest with
      | m :: rest =>
        if isLowSurrogate m then
          (joinUnits? rest).map (Char.ofNat (0x10000 + (n - 0xd800) * 0x400 + (m - 0xdc00)) :: ·)
        else none
      | [] => none
    else if isLowSurrogate n then none
    else (joinUnits? rest).map (Char.ofNat n :: ·)

def string? (units : List Nat) : Option Token :=
  (joinUnits? units.reverse).map fun cs => string (String.ofList cs)

/-- The tokens of a text, from a given state on. -/
def scanFrom : Mode → List Char → Option (List Token)
  | .between, [] => some []
  | .inWord read, [] => (word? read.reverse).map ([·])
  | .inString _, [] => none
  | .afterBackslash _, [] => none
  | .inUnit .., [] => none
  | .between, c :: rest =>
    if isSpace c then scanFrom .between rest
    else if c = '"' then scanFrom (.inString []) rest
    else
      match punctuation? c with
      | some token => (scanFrom .between rest).map (token :: ·)
      | none => scanFrom (.inWord [c]) rest
  | .inWord read, c :: rest =>
    if isSpace c then do
      let token ← word? read.reverse
      (scanFrom .between rest).map (token :: ·)
    else if c = '"' then none
    else
      match punctuation? c with
      | some next => do
        let token ← word? read.reverse
        (scanFrom .between rest).map (token :: next :: ·)
      | none => scanFrom (.inWord (c :: read)) rest
  | .inString units, c :: rest =>
    if c = '"' then do
      let token ← string? units
      (scanFrom .between rest).map (token :: ·)
    else if c = '\\' then scanFrom (.afterBackslash units) rest
    else if c.toNat < 0x20 then none
    else scanFrom (.inString (c.toNat :: units)) rest
  | .afterBackslash units, c :: rest =>
    if c = 'u' then scanFrom (.inUnit 4 0 units) rest
    else
      match escaped? c with
      | some unit => scanFrom (.inString (unit :: units)) rest
      | none => none
  | .inUnit missing value units, c :: rest =>
    match hexValue? c with
    | none => none
    | some d =>
      if missing ≤ 1 then scanFrom (.inString ((value * 16 + d) :: units)) rest
      else scanFrom (.inUnit (missing - 1) (value * 16 + d) units) rest

def scan? (cs : List Char) : Option (List Token) := scanFrom .between cs

/-- Blanks between tokens are skipped. -/
theorem scan_space {c : Char} {rest : List Char} (h : isSpace c) :
    scanFrom .between (c :: rest) = scanFrom .between rest := by
  rw [scanFrom, if_pos h]

end Token

end Scion.Json
