/-!
Strings of a configuration text, in four forms: between double or single quotes, on one line or
between tripled quotes. Double quotes allow escapes. A text is written in the first of these forms
that shows it as it is.
-/

namespace Scion.Toml

/-- A character that may stand in a string or a comment as it is. -/
def isPlain (c : Char) : Bool := c = '\t' || (0x20 ≤ c.toNat && c.toNat ≠ 0x7f)

namespace Quoted

/-- Where a reader stands between double quotes. -/
inductive Mode where
  | plain
  | afterBackslash
  /-- `missing` hexadecimal digits are still to come. -/
  | inCode (missing value : Nat)
  /-- After a backslash at the end of a line, up to the next character that is not blank. -/
  | joining (sawBreak : Bool)

def escaped? (c : Char) : Option Char :=
  if c = 'b' then some '\x08'
  else if c = 't' then some '\t'
  else if c = 'n' then some '\n'
  else if c = 'f' then some '\x0c'
  else if c = 'r' then some '\r'
  else if c = '"' || c = '\\' then some c
  else none

def hexValue? (c : Char) : Option Nat :=
  if '0' ≤ c ∧ c ≤ '9' then some (c.toNat - '0'.toNat)
  else if 'a' ≤ c ∧ c ≤ 'f' then some (c.toNat - 'a'.toNat + 10)
  else if 'A' ≤ c ∧ c ≤ 'F' then some (c.toNat - 'A'.toNat + 10)
  else none

def scalar? (n : Nat) : Option Char := if n.isValidChar then some (Char.ofNat n) else none

/-- What a text and its rest look like with one more character in front of the text. -/
def prepend (c : Char) : Option (List Char × List Char) → Option (List Char × List Char)
  | some (text, rest) => some (c :: text, rest)
  | none => none

/-- The text up to the closing double quote, and what follows it. -/
def basic : Mode → List Char → Option (List Char × List Char)
  | _, [] => none
  | .plain, c :: rest =>
    if c = '"' then some ([], rest)
    else if c = '\\' then basic .afterBackslash rest
    else if isPlain c then prepend c (basic .plain rest)
    else none
  | .afterBackslash, c :: rest =>
    if c = 'u' then basic (.inCode 4 0) rest
    else if c = 'U' then basic (.inCode 8 0) rest
    else
      match escaped? c with
      | some e => prepend e (basic .plain rest)
      | none => none
  | .inCode missing value, c :: rest =>
    match hexValue? c with
    | none => none
    | some d =>
      if missing ≤ 1 then
        match scalar? (value * 16 + d) with
        | some e => prepend e (basic .plain rest)
        | none => none
      else basic (.inCode (missing - 1) (value * 16 + d)) rest
  | .joining _, _ :: _ => none

/-- The text up to the closing single quote, and what follows it. -/
def literal : List Char → Option (List Char × List Char)
  | [] => none
  | c :: rest =>
    if c = '\'' then some ([], rest) else if isPlain c then prepend c (literal rest) else none

/-- A line break, written with or without a carriage return. -/
def lineBreak? : List Char → Option (List Char)
  | '\n' :: rest => some rest
  | '\r' :: '\n' :: rest => some rest
  | _ => none

def prependAll (cs : List Char) : Option (List Char × List Char) → Option (List Char × List Char)
  | some (text, rest) => some (cs ++ text, rest)
  | none => none

/-- The text up to three closing double quotes. Up to two more quotes in front of them belong to the
text; `quotes` counts those that have just been read. -/
def multilineBasic : Nat → Mode → List Char → Option (List Char × List Char)
  | quotes, _, [] => if 3 ≤ quotes then some (List.replicate (quotes - 3) '"', []) else none
  | quotes, .plain, c :: rest =>
    if c = '"' then
      if quotes = 4 then some (['"', '"'], rest) else multilineBasic (quotes + 1) .plain rest
    else if 3 ≤ quotes then some (List.replicate (quotes - 3) '"', c :: rest)
    else
      prependAll (List.replicate quotes '"') <|
        if c = '\\' then multilineBasic 0 .afterBackslash rest
        else if c = '\n' || isPlain c then prepend c (multilineBasic 0 .plain rest)
        else if c = '\r' && rest.head? == some '\n' then multilineBasic 0 .plain rest
        else none
  | _, .afterBackslash, c :: rest =>
    if c = 'u' then multilineBasic 0 (.inCode 4 0) rest
    else if c = 'U' then multilineBasic 0 (.inCode 8 0) rest
    else if c = ' ' || c = '\t' || c = '\r' then multilineBasic 0 (.joining false) rest
    else if c = '\n' then multilineBasic 0 (.joining true) rest
    else
      match escaped? c with
      | some e => prepend e (multilineBasic 0 .plain rest)
      | none => none
  | _, .inCode missing value, c :: rest =>
    match hexValue? c with
    | none => none
    | some d =>
      if missing ≤ 1 then
        match scalar? (value * 16 + d) with
        | some e => prepend e (multilineBasic 0 .plain rest)
        | none => none
      else multilineBasic 0 (.inCode (missing - 1) (value * 16 + d)) rest
  | _, .joining sawBreak, c :: rest =>
    if c = ' ' || c = '\t' || c = '\r' then multilineBasic 0 (.joining sawBreak) rest
    else if c = '\n' then multilineBasic 0 (.joining true) rest
    else if !sawBreak then none
    else if c = '"' then multilineBasic 1 .plain rest
    else if c = '\\' then multilineBasic 0 .afterBackslash rest
    else if isPlain c then prepend c (multilineBasic 0 .plain rest)
    else none

/-- The text up to three closing single quotes; `quotes` counts those that have just been read. -/
def multilineLiteral : Nat → List Char → Option (List Char × List Char)
  | quotes, [] => if 3 ≤ quotes then some (List.replicate (quotes - 3) '\'', []) else none
  | quotes, c :: rest =>
    if c = '\'' then
      if quotes = 4 then some (['\'', '\''], rest) else multilineLiteral (quotes + 1) rest
    else if 3 ≤ quotes then some (List.replicate (quotes - 3) '\'', c :: rest)
    else
      prependAll (List.replicate quotes '\'') <|
        if c = '\n' || isPlain c then prepend c (multilineLiteral 0 rest)
        else if c = '\r' && rest.head? == some '\n' then multilineLiteral 0 rest
        else none

/-- A line break right after the opening quotes does not belong to the text. -/
def skipBreak (cs : List Char) : List Char := (lineBreak? cs).getD cs

/-- A string of any form, and what follows it. -/
def read? : List Char → Option (List Char × List Char)
  | '"' :: '"' :: '"' :: rest => multilineBasic 0 .plain (skipBreak rest)
  | '"' :: rest => basic .plain rest
  | '\'' :: '\'' :: '\'' :: rest => multilineLiteral 0 (skipBreak rest)
  | '\'' :: rest => literal rest
  | _ => none

/-- A string on one line, as a key may be. -/
def readKey? : List Char → Option (List Char × List Char)
  | '"' :: rest => basic .plain rest
  | '\'' :: rest => literal rest
  | _ => none

/-- The length of the longest run of a character; `current` is the length of the present run. -/
def longestRun (q : Char) (current : Nat) : List Char → Nat
  | [] => current
  | c :: rest =>
    if c = q then longestRun q (current + 1) rest else max current (longestRun q 0 rest)

def hasControl (cs : List Char) : Bool :=
  cs.any fun c => c ≠ '\t' && c ≠ '\n' && (c.toNat < 0x20 || c.toNat = 0x7f)

def upperHexDigit (n : Nat) : Char :=
  if n < 10 then Char.ofNat ('0'.toNat + n) else Char.ofNat ('A'.toNat + (n - 10))

/-- How a character is written between double quotes when it cannot stand as it is. -/
def escape (c : Char) : List Char :=
  if c = '\x08' then ['\\', 'b']
  else if c = '\t' then ['\\', 't']
  else if c = '\n' then ['\\', 'n']
  else if c = '\x0c' then ['\\', 'f']
  else if c = '\r' then ['\\', 'r']
  else if c = '"' || c = '\\' then ['\\', c]
  else if c.toNat < 0x20 || c.toNat = 0x7f then
    ['\\', 'u', '0', '0', upperHexDigit (c.toNat / 16), upperHexDigit (c.toNat % 16)]
  else [c]

/-- Between tripled quotes line breaks stand as they are, and of three quotes in a row only the last
is escaped; `quotes` counts those just written. -/
def escapeMultiline : Nat → List Char → List Char
  | _, [] => []
  | quotes, c :: rest =>
    if c = '\n' then c :: escapeMultiline 0 rest
    else if c = '"' then
      if quotes < 2 then c :: escapeMultiline (quotes + 1) rest
      else '\\' :: c :: escapeMultiline 0 rest
    else escape c ++ escapeMultiline 0 rest

def multiline (delimiter body text : List Char) : List Char :=
  delimiter ++ (if text.contains '\n' then ['\n'] else []) ++ body ++ delimiter

def tripled (q : Char) : List Char := [q, q, q]

/-- The form is chosen so that as little as possible has to be escaped. -/
def write (cs : List Char) : List Char :=
  let hasBreak := cs.contains '\n'
  let hasBackslash := cs.contains '\\'
  let control := hasControl cs
  let doubles := longestRun '"' 0 cs
  let singles := longestRun '\'' 0 cs
  if !control && !hasBackslash && doubles = 0 && !hasBreak then
    '"' :: cs.flatMap escape ++ ['"']
  else if !control && singles = 0 && !hasBreak then '\'' :: cs ++ ['\'']
  else if !control && !hasBackslash && doubles ≤ 2 then
    multiline (tripled '"') (escapeMultiline 0 cs) cs
  else if !control && singles ≤ 2 then multiline (tripled '\'') cs cs
  else if hasBreak then multiline (tripled '"') (escapeMultiline 0 cs) cs
  else '"' :: cs.flatMap escape ++ ['"']

end Quoted

end Scion.Toml
