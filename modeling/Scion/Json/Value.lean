import Scion.Json.Number

/-!
Values of the data format, and how they are written. An object keeps its members in order. The
compact form has no blanks; the spread form puts every element on a line of its own.
-/

namespace Scion.Json

inductive Value where
  | null
  | bool (value : Bool)
  | number (value : Number)
  | string (text : String)
  | array (items : List Value)
  | object (members : List (String × Value))
deriving Repr, Inhabited

def hexDigit (n : Nat) : Char :=
  if n < 10 then Char.ofNat ('0'.toNat + n) else Char.ofNat ('a'.toNat + (n - 10))

/-- Only quotes, backslashes and control characters are escaped. -/
def escapeChar (c : Char) : List Char :=
  if c = '"' then ['\\', '"']
  else if c = '\\' then ['\\', '\\']
  else if c = '\x08' then ['\\', 'b']
  else if c = '\x0c' then ['\\', 'f']
  else if c = '\n' then ['\\', 'n']
  else if c = '\r' then ['\\', 'r']
  else if c = '\t' then ['\\', 't']
  else if c.toNat < 0x20 then
    ['\\', 'u', '0', '0', hexDigit (c.toNat / 16), hexDigit (c.toNat % 16)]
  else [c]

def writeString (s : String) : List Char := '"' :: s.toList.flatMap escapeChar ++ ['"']

namespace Value

mutual

def writeCompact : Value → List Char
  | null => "null".toList
  | bool true => "true".toList
  | bool false => "false".toList
  | number n => n.render.toList
  | string s => writeString s
  | array items => '[' :: writeItems items ++ [']']
  | object members => '\x7b' :: writeMembers members ++ ['\x7d']

def writeItems : List Value → List Char
  | [] => []
  | [v] => writeCompact v
  | v :: w :: rest => writeCompact v ++ ',' :: writeItems (w :: rest)

def writeMembers : List (String × Value) → List Char
  | [] => []
  | [(key, v)] => writeString key ++ ':' :: writeCompact v
  | (key, v) :: m :: rest => writeString key ++ ':' :: writeCompact v ++ ',' :: writeMembers (m :: rest)

end

def compact (v : Value) : String := String.ofList v.writeCompact

/-- A line break and two blanks for each level. -/
def newline (level : Nat) : List Char := '\n' :: List.replicate (2 * level) ' '

mutual

def writeSpread (level : Nat) : Value → List Char
  | array items =>
    if items.isEmpty then ['[', ']']
    else '[' :: spreadItems (level + 1) items ++ newline level ++ [']']
  | object members =>
    if members.isEmpty then ['\x7b', '\x7d']
    else '\x7b' :: spreadMembers (level + 1) members ++ newline level ++ ['\x7d']
  | v => writeCompact v

def spreadItems (level : Nat) : List Value → List Char
  | [] => []
  | [v] => newline level ++ writeSpread level v
  | v :: w :: rest => newline level ++ writeSpread level v ++ ',' :: spreadItems level (w :: rest)

def spreadMembers (level : Nat) : List (String × Value) → List Char
  | [] => []
  | [(key, v)] => newline level ++ writeString key ++ ':' :: ' ' :: writeSpread level v
  | (key, v) :: m :: rest =>
    newline level ++ writeString key ++ ':' :: ' ' :: writeSpread level v
      ++ ',' :: spreadMembers level (m :: rest)

end

def spread (v : Value) : String := String.ofList (v.writeSpread 0)

end Value

end Scion.Json
