import Scion.Derivation.Yield
import Scion.Text.Blank
import Scion.Text.Occurrence
import Scion.Text.Quoted

/-!
A plausibility check on the text of a result: no word of the target is lost, nothing is shorter than
target and inserted tree together, and the inserted text occurs.
-/

namespace Scion

inductive Rejection where
  | missingToken (token : String)
  | tooShort (actual required : Nat)
  | insertNotFound
  /-- The inserted text is not on the requested side. -/
  | misplaced
deriving DecidableEq, Repr

def Rejection.message : Rejection → String
  | missingToken token => "token " ++ Text.quoted token ++ " lost"
  | tooShort actual required => "length " ++ toString actual ++ " < " ++ toString required
  | insertNotFound => "inserted text not found"
  | misplaced => "ordering predicate failed"

/-- What a result is measured against. -/
structure Validity where
  words : List (List Char)
  targetLength : Nat
  insertText : String

namespace Validity

/-- Lengths are those of the encoded texts. -/
def ofTrees (target insert : DerivationTree) : Validity where
  words := Text.words target.text.toList
  targetLength := target.text.utf8ByteSize
  insertText := insert.text

def required (v : Validity) : Nat := v.targetLength + v.insertText.utf8ByteSize

def judge (v : Validity) (text : String) : Except Rejection Unit :=
  let present := Text.words text.toList
  match v.words.find? fun word => !present.contains word with
  | some word => .error (.missingToken (String.ofList word))
  | none =>
    if text.utf8ByteSize < v.required then .error (.tooShort text.utf8ByteSize v.required)
    else if Text.occursIn v.insertText.toList text.toList then .ok ()
    else .error .insertNotFound

end Validity

end Scion
