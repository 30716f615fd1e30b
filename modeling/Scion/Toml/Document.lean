import Scion.Toml.Quoted
import Scion.Toml.Scalar
import Scion.Toml.Table

/-!
Reading a configuration text. A text is a sequence of statements, one on a line: headers, which open
tables, and assignments to keys of the table opened last. The statements are read first and then
carried out one by one.
-/

namespace Scion.Toml

inductive Statement where
  | header (path : List String)
  | elementHeader (path : List String)
  | assignment (key : List String) (value : Value)
deriving Repr

namespace Statement

def skipBlanks (cs : List Char) : List Char := cs.dropWhile fun c => c = ' ' || c = '\t'

def isBareKeyChar (c : Char) : Bool := c.isAlphanum || c = '_' || c = '-'

def simpleKey? (cs : List Char) : Option (String × List Char) :=
  match cs.span isBareKeyChar with
  | ([], _) => (Quoted.readKey? cs).map fun (key, rest) => (String.ofList key, rest)
  | (key, rest) => some (String.ofList key, rest)

/-- Keys between dots, with blanks around them. -/
def dottedKey? : Nat → List Char → Option (List String × List Char)
  | 0, _ => none
  | fuel + 1, cs => do
    let (key, rest) ← simpleKey? (skipBlanks cs)
    match skipBlanks rest with
    | '.' :: rest => do
      let (keys, rest) ← dottedKey? fuel rest
      return (key :: keys, rest)
    | rest => return ([key], rest)

/-- What is left of a line after a comment; a comment holds no control characters. -/
def skipComment? : List Char → Option (List Char)
  | '#' :: rest =>
    let after := rest.dropWhile isPlain
    if after.isEmpty || (Quoted.lineBreak? after).isSome then some after else none
  | cs => some cs

/-- Skips blanks, comments and line breaks between the elements of an array. -/
def skipSpace? : Nat → List Char → Option (List Char)
  | 0, _ => none
  | fuel + 1, cs => do
    let rest ← skipComment? (skipBlanks cs)
    match Quoted.lineBreak? rest with
    | some rest => skipSpace? fuel rest
    | none => some rest

mutual

def value? : Nat → List Char → Option (Value × List Char)
  | 0, _ => none
  | fuel + 1, cs =>
    match cs with
    | '[' :: rest => do
      let (items, rest) ← items? fuel (← skipSpace? rest.length.succ rest)
      return (.array items, rest)
    | '\x7b' :: rest => do
      match skipBlanks rest with
      | '\x7d' :: rest => return (.table .inline [], rest)
      | rest =>
        let (entries, rest) ← members? fuel [] rest
        return (.table .inline entries, rest)
    | '"' :: _ | '\'' :: _ =>
      (Quoted.read? cs).map fun (text, rest) => (.string (String.ofList text), rest)
    | _ => Scalar.read? cs

/-- The elements of an array and what follows its closing bracket. -/
def items? : Nat → List Char → Option (List Value × List Char)
  | 0, _ => none
  | _ + 1, ']' :: rest => some ([], rest)
  | fuel + 1, cs => do
    let (item, rest) ← value? fuel cs
    match ← skipSpace? rest.length.succ rest with
    | ']' :: rest => return ([item], rest)
    | ',' :: rest =>
      let (items, rest) ← items? fuel (← skipSpace? rest.length.succ rest)
      return (item :: items, rest)
    | _ => none

/-- The assignments between braces and what follows the closing brace. -/
def members? : Nat → Entries → List Char → Option (Entries × List Char)
  | 0, _, _ => none
  | fuel + 1, entries, cs => do
    let (key, rest) ← dottedKey? cs.length.succ cs
    match rest with
    | '=' :: rest =>
      let (value, rest) ← value? fuel (skipBlanks rest)
      let entries ← entries.assign key value
      match skipBlanks rest with
      | '\x7d' :: rest => return (entries, rest)
      | ',' :: rest => members? fuel entries rest
      | _ => none
    | _ => none

end

/-- A header in single or double brackets, without the opening ones. -/
def header? (cs : List Char) : Option (Statement × List Char) :=
  match cs with
  | '[' :: rest => do
    let (path, rest) ← dottedKey? rest.length.succ rest
    match rest with
    | ']' :: ']' :: rest => return (.elementHeader path, rest)
    | _ => none
  | _ => do
    let (path, rest) ← dottedKey? cs.length.succ cs
    match rest with
    | ']' :: rest => return (.header path, rest)
    | _ => none

def assignment? (cs : List Char) : Option (Statement × List Char) := do
  let (key, rest) ← dottedKey? cs.length.succ cs
  match rest with
  | '=' :: rest =>
    let (value, rest) ← value? rest.length.succ (skipBlanks rest)
    return (.assignment key value, rest)
  | _ => none

/-- Nothing but blanks and a comment may follow on the line. -/
def endLine? (cs : List Char) : Option (List Char) := do
  let rest ← skipComment? (skipBlanks cs)
  if rest.isEmpty then some [] else Quoted.lineBreak? rest

/-- A line with at most one statement, and what follows it. -/
def line? (cs : List Char) : Option (Option Statement × List Char) :=
  match skipBlanks cs with
  | [] => some (none, [])
  | '#' :: rest => (endLine? ('#' :: rest)).map fun rest => (none, rest)
  | '\n' :: rest => some (none, rest)
  | '\r' :: rest => (endLine? ('\r' :: rest)).map fun rest => (none, rest)
  | '[' :: rest => do
    let (statement, rest) ← header? rest
    return (some statement, ← endLine? rest)
  | cs => do
    let (statement, rest) ← assignment? cs
    return (some statement, ← endLine? rest)

/-- Every line takes at least one character. -/
def lines? : Nat → List Char → Option (List Statement)
  | _, [] => some []
  | 0, _ :: _ => none
  | fuel + 1, cs => do
    let (statement?, rest) ← line? cs
    let more ← lines? fuel rest
    return statement?.toList ++ more

end Statement

/-- The document so far and the path of the table opened last. -/
structure Document where
  entries : Entries := []
  current : List String := []

namespace Document

def carryOut (d : Document) : Statement → Option Document
  | .assignment key value =>
    (d.entries.within (Entries.assign key value) d.current).map fun e => { d with entries := e }
  | .header path =>
    match path.getLast? with
    | none => none
    | some key =>
      (d.entries.within (Entries.openTable key) path.dropLast).map fun e => ⟨e, path⟩
  | .elementHeader path =>
    match path.getLast? with
    | none => none
    | some key =>
      (d.entries.within (Entries.openElement key) path.dropLast).map fun e => ⟨e, path⟩

def carryOutAll (d : Document) : List Statement → Option Document
  | [] => some d
  | s :: rest =>
    match d.carryOut s with
    | some d => d.carryOutAll rest
    | none => none

end Document

/-- The entries of a whole text, which may begin with a byte order mark. -/
def parse? (text : String) : Option Entries := do
  let cs := match text.toList with
    | '\ufeff' :: rest => rest
    | cs => cs
  let statements ← Statement.lines? cs.length cs
  let d ← Document.carryOutAll {} statements
  return d.entries

end Scion.Toml
