/-!
Nodes of an indented configuration text. A scalar remembers whether it was written without quotes,
because only then can it mean a number, a truth value or nothing.
-/

namespace Scion.Yaml

inductive Node where
  | scalar (plain : Bool) (text : String)
  | sequence (items : List Node)
  | mapping (entries : List (Node × Node))
deriving Repr, Inhabited

/-- What stands where nothing is written. -/
def Node.empty : Node := .scalar true ""

end Scion.Yaml
