import Scion.Derivation.Yield
import Scion.Text.Lowercase
import Scion.Text.Occurrence
import Scion.Text.Quoted

/-!
Asking for the inserted text before or after a reference node. The text of a result is cut at the
first occurrence of the text of the reference, and the requested side has to contain the inserted
text.
-/

namespace Scion

inductive Relation where
  | before
  | after
deriving DecidableEq, Repr

namespace Relation

def name : Relation → String
  | before => "before"
  | after => "after"

/-- The letters A to Z may be written in either case. -/
def parse (text : String) : Except GraftError Relation :=
  let lowered := Text.lowercaseLatin text
  if lowered = "before" then .ok .before
  else if lowered = "after" then .ok .after
  else .error (.malformedGrammar ("unknown ordering relation " ++ Text.quoted lowered))

theorem parse_name (r : Relation) : parse r.name = .ok r := by
  cases r <;> rfl

end Relation

structure Placement where
  relation : Relation
  reference : NodeId
deriving DecidableEq, Repr

/-- False when the reference is not in the tree or its text not in the text of the tree. -/
def Placement.holds (p : Placement) (t : DerivationTree) (insertText : String) : Bool :=
  match t.get? p.reference with
  | none => false
  | some reference =>
    match Text.cut? reference.text.toList t.text.toList with
    | none => false
    | some (before, after) =>
      Text.occursIn insertText.toList <|
        match p.relation with
        | .before => before
        | .after => after

end Scion
