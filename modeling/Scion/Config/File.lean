import Scion.Config.Decode
import Scion.Toml.Document
import Scion.Yaml.Document

/-!
Configurations in files. Two formats are read, told apart by the extension of the file's name; saving
writes one of them. A configuration that was read has passed validation.
-/

namespace Scion

namespace Toml

/-- Counts are integers that are not negative. -/
def Value.count? : Value → Option (Option Nat)
  | .integer n => if 0 ≤ n then some (some n.toNat) else none
  | _ => none

def Value.isEmptyCollection : Value → Bool
  | .array items => items.isEmpty
  | .table _ entries => entries.isEmpty
  | .tables elements => elements.isEmpty
  | _ => false

/-- A name, or a table with that one name and nothing in it. -/
def Value.format? : Value → Option OutputFormat
  | .string s => OutputFormat.ofName? s
  | .table _ [(name, v)] => if v.isEmptyCollection then OutputFormat.ofName? name else none
  | _ => none

def reading : Config.Reading Value where
  text?
    | .string s => some s
    | _ => none
  count? := Value.count?
  flag?
    | .boolean b => some b
    | _ => none
  format? := Value.format?
  shape?
    | .table _ entries => some (.named entries)
    | .array items => some (.listed items)
    | .tables elements => some (.listed (elements.reverse.map (.table .header)))
    | _ => none
  ignoresExcess := true

/-- The largest integer of the format. -/
def maxInteger : Nat := Nat.pow 2 63 - 1

end Toml

namespace Yaml

def keyText? : Node → Option String
  | .scalar _ text => some text
  | _ => none

def fields? : List (Node × Node) → Option (List (String × Node))
  | [] => some []
  | (key, value) :: rest =>
    match keyText? key, fields? rest with
    | some name, some fields => some ((name, value) :: fields)
    | _, _ => none

/-- Without quotes nothing can be said in several ways. -/
def count? : Node → Option (Option Nat)
  | .scalar true text =>
    if Scalar.isNull text then some none else (Scalar.unsigned? text).map some
  | _ => none

def reading : Config.Reading Node where
  text?
    | .scalar _ text => some text
    | _ => none
  count? := count?
  flag?
    | .scalar true text => Scalar.boolean? text
    | _ => none
  format?
    | .scalar _ text => OutputFormat.ofName? text
    | _ => none
  shape?
    | .mapping entries => (fields? entries).map .named
    | .sequence items => some (.listed items)
    | .scalar plain text => if plain && text.isEmpty then some (.named []) else none
  ignoresExcess := false

end Yaml

namespace GraftConfig

def ofToml? (text : String) : Option GraftConfig :=
  (Toml.parse? text).bind fun entries => Toml.reading.config? (.table .header entries)

def ofYaml? (text : String) : Option GraftConfig :=
  (Yaml.parse? text).bind Yaml.reading.config?

/-- Reads a file with one of the readers and validates what it says. -/
def loadWith (files : Files) (path : String) (format : Format)
    (read? : String → Option GraftConfig) : Except Failure GraftConfig :=
  match files.read path ("Failed to read grafter config from " ++ path) with
  | .error f => .error f
  | .ok text =>
    match read? text with
    | none =>
      .error ⟨["Failed to parse " ++ format.name ++ " config from " ++ path], .malformed format⟩
    | some c =>
      match c.validate with
      | .ok _ => .ok c
      | .error f => .error f

def loadToml (files : Files) (path : String) : Except Failure GraftConfig :=
  loadWith files path .toml ofToml?

def loadYaml (files : Files) (path : String) : Except Failure GraftConfig :=
  loadWith files path .yaml ofYaml?

/-- The name of a file at the end of a path; slashes at the end do not count. -/
def fileName (path : List Char) : List Char :=
  ((path.reverse.dropWhile (· = '/')).takeWhile (· ≠ '/')).reverse

/-- What follows the last dot of a name, unless the name has no other dot before and begins with it.
-/
def extension? (name : List Char) : Option (List Char) :=
  if name = ['.', '.'] then none
  else
    match name.reverse.span (· ≠ '.') with
    | (_, []) => none
    | (_, [_]) => none
    | (reversed, _ :: _ :: _) => some reversed.reverse

def isYaml (path : String) : Bool :=
  match extension? (fileName path.toList) with
  | some e => e = "yaml".toList || e = "yml".toList
  | none => false

/-- Any extension but those of the one format stands for the other. -/
def load (files : Files) (path : String) : Except Failure GraftConfig :=
  if isYaml path then loadYaml files path else loadToml files path

def countLine (key : String) : Option Nat → String
  | some n => key ++ " = " ++ toString n ++ "\n"
  | none => ""

def flagText (b : Bool) : String := if b then "true" else "false"

def toToml (c : GraftConfig) : String :=
  "version = " ++ String.ofList (Toml.Quoted.write c.version.toList) ++ "\n\n[insertion]\n"
    ++ countLine "max_solutions" c.insertion.maxSolutions
    ++ countLine "max_extensions" c.insertion.maxExtensions
    ++ "check_validity = " ++ flagText c.insertion.checkValidity ++ "\n"
    ++ "expand_trivial = " ++ flagText c.insertion.expandTrivial ++ "\n\n[output]\n"
    ++ "format = " ++ String.ofList (Toml.Quoted.write c.output.format.name.toList) ++ "\n"
    ++ "show_open = " ++ flagText c.output.showOpen ++ "\n"

def isExpressible (c : GraftConfig) : Bool :=
  (c.insertion.maxSolutions.all (· ≤ Toml.maxInteger))
    && (c.insertion.maxExtensions.all (· ≤ Toml.maxInteger))

/-- The text to be saved, if its counts can be written and its place exists. -/
def save (c : GraftConfig) (isWritable : String → Bool) (path : String) :
    Except Failure String :=
  if !c.isExpressible then
    .error ⟨["Failed to serialize grafter config to TOML"], .inexpressible .toml⟩
  else if isWritable path then .ok c.toToml
  else .error ⟨["Failed to write grafter config to " ++ path], .unwritable⟩

end GraftConfig

end Scion
