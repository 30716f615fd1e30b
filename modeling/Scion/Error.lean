import Scion.Node
import Scion.Path

/-!
What can go wrong when trees are addressed and grafted. Two of the causes only say that one
candidate position does not work out; the others are faults of the caller.
-/

namespace Scion

inductive GraftError where
  /-- The tree at hand does not follow the production path that the grammar promised. -/
  | structuralMismatch (symbol expected : Symbol)
  /-- No alternative of `parent` has room for `child`. -/
  | noProduction (parent child : Symbol)
  | invalidPath (path : Path) (reason : String)
  | unknownNode (id : NodeId)
  | malformedGrammar (text : String)
deriving DecidableEq, Repr

namespace GraftError

def message : GraftError → String
  | structuralMismatch symbol expected =>
    "Structural mismatch at " ++ symbol.text ++ ": no child with symbol " ++ expected.text
  | noProduction parent child => "No production of " ++ parent.text ++ " contains " ++ child.text
  | invalidPath path reason => "Invalid path " ++ path.render ++ ": " ++ reason
  | unknownNode id => "Node #" ++ toString id ++ " not found in tree"
  | malformedGrammar text => "Grammar error: " ++ text

/-- A search skips the candidate that met a recoverable error and goes on. -/
def isRecoverable : GraftError → Bool
  | structuralMismatch .. | noProduction .. => true
  | invalidPath .. | unknownNode _ | malformedGrammar _ => false

end GraftError

end Scion
