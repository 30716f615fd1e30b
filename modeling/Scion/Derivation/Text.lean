import Scion.Derivation
import Scion.Failure
import Scion.Json.Reader

/-!
Parse trees written as JSON. A node is an array of its symbol and its children; an open position has
null in place of the children.
-/

namespace Scion.ParseTree

open Json (Value)

mutual

def toJson : ParseTree → Value
  | .hole s => .array [.string s.text, .null]
  | .node s cs => .array [.string s.text, .array (listToJson cs)]

def listToJson : List ParseTree → List Value
  | [] => []
  | c :: cs => toJson c :: listToJson cs

end

mutual

def ofJson? : Value → Option ParseTree
  | .array [.string s, .null] => some (.hole ⟨s⟩)
  | .array [.string s, .array items] => (listOfJson? items).map (.node ⟨s⟩)
  | _ => none

def listOfJson? : List Value → Option (List ParseTree)
  | [] => some []
  | v :: rest =>
    match ofJson? v, listOfJson? rest with
    | some c, some cs => some (c :: cs)
    | _, _ => none

end

def parse? (text : String) : Option ParseTree := (Value.parse? text).bind ofJson?

def load (files : Files) (path : String) : Except Failure ParseTree :=
  match files.read path ("Failed to read parse tree from " ++ path) with
  | .error f => .error f
  | .ok text =>
    match parse? text with
    | some t => .ok t
    | none => .error ⟨["Failed to parse JSON tree from " ++ path], .malformed .json⟩

end Scion.ParseTree
