/-!
Scalars of an indented configuration text, and what plain ones can mean. A line break inside a scalar
is folded: a single one becomes a space, and of several all but one remain.
-/

namespace Scion.Yaml

/-- A place in a text: the column, and what is still to be read. -/
structure Cursor where
  column : Nat
  rest : List Char

def isBlank (c : Char) : Bool := c = ' ' || c = '\t'

/-- A blank, a line break or the end of the text comes next. -/
def endsWord : List Char → Bool
  | [] => true
  | c :: _ => isBlank c || c = '\n'

def isFlowMark (c : Char) : Bool := c = ',' || c = '[' || c = ']' || c = '\x7b' || c = '\x7d'

/-- The text of line breaks that were met between two parts of a scalar. -/
def fold (breaks : Nat) : List Char :=
  if breaks = 1 then [' '] else List.replicate (breaks - 1) '\n'

namespace Scalar

/-- A number of at most 64 bits in decimal, hexadecimal, octal or binary digits. -/
def radixValue? (base : Nat) (ds : List Char) : Option Nat := do
  let value ← ds.foldlM (fun n c => do
    let d ← if c.isDigit then some (c.toNat - '0'.toNat)
      else if c.isAlpha then some (c.toLower.toNat - 'a'.toNat + 10)
      else none
    if d < base then some (n * base + d) else none) 0
  if ds.isEmpty || Nat.pow 2 64 ≤ value then none else some value

/-- Digits with a zero in front are a text. -/
def isPaddedDigits (cs : List Char) : Bool :=
  match cs with
  | '0' :: _ :: _ => cs.all Char.isDigit
  | _ => false

def unsigned? (text : String) : Option Nat :=
  let cs := match text.toList with
    | '+' :: rest => rest
    | cs => cs
  let prefixed :=
    match cs with
    | '0' :: 'x' :: ds => radixValue? 16 ds
    | '0' :: 'o' :: ds => radixValue? 8 ds
    | '0' :: 'b' :: ds => radixValue? 2 ds
    | _ => none
  match prefixed with
  | some n => some n
  | none => if isPaddedDigits cs then none else radixValue? 10 cs

def boolean? (text : String) : Option Bool :=
  if ["true", "True", "TRUE"].contains text then some true
  else if ["false", "False", "FALSE"].contains text then some false
  else none

def isNull (text : String) : Bool := ["", "~", "null", "Null", "NULL"].contains text

def beginsMark : List Char → Bool
  | [] => false
  | c :: _ => isFlowMark c || c = '?'

/-- Part of a plain scalar on one line, without the blanks behind it, and what follows. `blanks` are
those met since the last other character; they are given back in front of a comment. -/
def plainLine (inFlow : Bool) (blanks : List Char) : List Char → List Char × List Char
  | [] => ([], [])
  | c :: rest =>
    if c = '\n' then ([], c :: rest)
    else if isBlank c then plainLine inFlow (c :: blanks) rest
    else if c = ':' && (endsWord rest || (inFlow && beginsMark rest)) then ([], c :: rest)
    else if c = '#' && !blanks.isEmpty then ([], blanks.reverse ++ c :: rest)
    else if inFlow && isFlowMark c then ([], c :: rest)
    else
      let (text, rest) := plainLine inFlow [] rest
      (blanks.reverse ++ c :: text, rest)

/-- Whether a plain scalar can begin here. -/
def canStartPlain (inFlow : Bool) : List Char → Bool
  | [] => false
  | c :: rest =>
    if c = '-' then !endsWord rest
    else if c = '?' || c = ':' then !inFlow && !endsWord rest
    else
      !(isBlank c || c = '\n' || isFlowMark c || c = '#' || c = '&' || c = '*' || c = '!' || c = '|'
        || c = '>' || c = '\'' || c = '"' || c = '%' || c = '@' || c = '\x60')

/-- What a run of line breaks, blank lines and indentation leads to. -/
structure Gap where
  /-- The number of line breaks. -/
  count : Nat
  /-- The text from the last of the breaks on; nothing at the end of the text. -/
  lastBreak : List Char
  next : Cursor

/-- The gap behind a line of a plain scalar; no tab stands where the indentation is too small. -/
def gap? (least count column : Nat) (lastBreak : List Char) : List Char → Option Gap
  | [] => some ⟨count, [], ⟨column, []⟩⟩
  | c :: rest =>
    if c = '\n' then gap? least (count + 1) 0 (c :: rest) rest
    else if c = '\t' && 0 < count && column < least then none
    else if isBlank c then gap? least count (column + 1) lastBreak rest
    else some ⟨count, lastBreak, ⟨column, c :: rest⟩⟩

/-- The further lines of a plain scalar; in a block they are indented by at least `least`. -/
def plainMore (inFlow : Bool) (least : Nat) : Nat → List Char → Option (List Char × List Char)
  | 0, _ => none
  | fuel + 1, cs => do
    let ⟨count, lastBreak, next⟩ ← gap? least 0 0 cs cs
    let continues := 0 < count && !next.rest.isEmpty && (inFlow || least ≤ next.column)
      && next.rest.head? != some '#' && !(inFlow && (next.rest.head?.map isFlowMark).getD false)
      && !(inFlow && next.rest.head? == some ':' && endsWord next.rest.tail)
    if continues then do
      let (text, rest) := plainLine inFlow [] next.rest
      if !inFlow && rest.head? == some ':' then none
      else
        let (more, rest) ← plainMore inFlow least fuel rest
        some (fold count ++ text ++ more, rest)
    else some ([], lastBreak)

def hexValue? (c : Char) : Option Nat :=
  if '0' ≤ c ∧ c ≤ '9' then some (c.toNat - '0'.toNat)
  else if 'a' ≤ c ∧ c ≤ 'f' then some (c.toNat - 'a'.toNat + 10)
  else if 'A' ≤ c ∧ c ≤ 'F' then some (c.toNat - 'A'.toNat + 10)
  else none

def escapes : List (Char × Char) :=
  [('0', '\x00'), ('a', '\x07'), ('b', '\x08'), ('t', '\t'), ('\t', '\t'), ('n', '\n'), ('v', '\x0b'),
   ('f', '\x0c'), ('r', '\r'), ('e', '\x1b'), (' ', ' '), ('"', '"'), ('/', '/'), ('\\', '\\'),
   ('N', '\u0085'), ('_', '\u00a0'), ('L', '\u2028'), ('P', '\u2029')]

/-- Where a reader stands in a quoted scalar. -/
inductive Mode where
  | text
  | afterBackslash
  | inCode (missing value : Nat)
  /-- Line breaks have been met; after an escaped one a single break leaves no space. -/
  | folding (count : Nat) (escaped : Bool)

/-- Joins a character to a text that was read. -/
def prepend (cs : List Char) : Option (List Char × List Char) → Option (List Char × List Char)
  | some (text, rest) => some (cs ++ text, rest)
  | none => none

def foldBreaks (count : Nat) (escaped : Bool) : List Char :=
  if escaped then List.replicate (count - 1) '\n' else fold count

/-- A scalar between double quotes. `blanks` are those that a line break would drop. -/
def doubleQuoted (blanks : List Char) : Mode → List Char → Option (List Char × List Char)
  | _, [] => none
  | .text, c :: rest =>
    if c = '"' then some (blanks.reverse, rest)
    else if c = '\\' then prepend blanks.reverse (doubleQuoted [] .afterBackslash rest)
    else if c = '\n' then doubleQuoted [] (.folding 1 false) rest
    else if isBlank c then doubleQuoted (c :: blanks) .text rest
    else prepend (blanks.reverse ++ [c]) (doubleQuoted [] .text rest)
  | .afterBackslash, c :: rest =>
    if c = '\n' then doubleQuoted [] (.folding 1 true) rest
    else if c = 'x' then doubleQuoted [] (.inCode 2 0) rest
    else if c = 'u' then doubleQuoted [] (.inCode 4 0) rest
    else if c = 'U' then doubleQuoted [] (.inCode 8 0) rest
    else
      match escapes.lookup c with
      | some e => prepend [e] (doubleQuoted [] .text rest)
      | none => none
  | .inCode missing value, c :: rest =>
    match hexValue? c with
    | none => none
    | some d =>
      if missing ≤ 1 then
        let n := value * 16 + d
        if n.isValidChar then prepend [Char.ofNat n] (doubleQuoted [] .text rest) else none
      else doubleQuoted [] (.inCode (missing - 1) (value * 16 + d)) rest
  | .folding count escaped, c :: rest =>
    if c = '\n' then doubleQuoted [] (.folding (count + 1) escaped) rest
    else if isBlank c then doubleQuoted [] (.folding count escaped) rest
    else
      prepend (foldBreaks count escaped) <|
        if c = '"' then some ([], rest)
        else if c = '\\' then doubleQuoted [] .afterBackslash rest
        else prepend [c] (doubleQuoted [] .text rest)

/-- A scalar between single quotes, where a quote is written twice. `pending` says that a quote has
been read, and `count` how many line breaks. -/
def singleQuoted (blanks : List Char) (pending : Bool) (count : Nat) :
    List Char → Option (List Char × List Char)
  | [] => if pending then some ([], []) else none
  | c :: rest =>
    if pending then
      if c = '\'' then prepend ['\''] (singleQuoted [] false 0 rest) else some ([], c :: rest)
    else if c = '\n' then singleQuoted [] false (count + 1) rest
    else if isBlank c then
      if 0 < count then singleQuoted [] false count rest else singleQuoted (c :: blanks) false 0 rest
    else
      prepend (if 0 < count then fold count else blanks.reverse) <|
        if c = '\'' then singleQuoted [] true 0 rest else prepend [c] (singleQuoted [] false 0 rest)

/-- A quoted scalar of either kind, and what follows it. -/
def quoted? : List Char → Option (List Char × List Char)
  | '"' :: rest => doubleQuoted [] .text rest
  | '\'' :: rest => singleQuoted [] false 0 rest
  | _ => none

end Scalar

end Scion.Yaml
