import Scion.Json.Token
import Scion.Json.Value

/-!
Values from tokens. The reader keeps a stack of the containers that are still open, innermost first,
and goes through the tokens once. Containers nest at most 127 deep. A member whose key occurred
before takes the place of the earlier one.
-/

namespace Scion.Json

namespace Reader

/-- A container that is still open. -/
inductive Frame where
  /-- The elements so far, last first. -/
  | items (before : List Value)
  /-- The members so far, in order, and the key whose value is awaited. -/
  | members (before : List (String × Value)) (key : String)

/-- What may come next. -/
inductive State where
  | value (stack : List Frame)
  /-- A value or the end of the array that was just opened. -/
  | firstItem (stack : List Frame)
  /-- A key or the end of the object that was just opened. -/
  | firstKey (stack : List Frame)
  | key (before : List (String × Value)) (stack : List Frame)
  | colon (before : List (String × Value)) (key : String) (stack : List Frame)
  /-- A value is complete: a comma, the end of a container, or the end of the text. -/
  | complete (value : Value) (stack : List Frame)

def maxDepth : Nat := 127

/-- Enters a member at its key's place, or at the end. -/
def put (key : String) (value : Value) : List (String × Value) → List (String × Value)
  | [] => [(key, value)]
  | (k, v) :: rest => if k = key then (k, value) :: rest else (k, v) :: put key value rest

def startValue? (stack : List Frame) : Token → Option State
  | .null => some (.complete .null stack)
  | .bool b => some (.complete (.bool b) stack)
  | .number n => some (.complete (.number n) stack)
  | .string s => some (.complete (.string s) stack)
  | .openArray => if stack.length < maxDepth then some (.firstItem stack) else none
  | .openObject => if stack.length < maxDepth then some (.firstKey stack) else none
  | .closeArray | .closeObject | .colon | .comma => none

def finish? (value : Value) : List Frame → Token → Option State
  | .items before :: stack, .comma => some (.value (.items (value :: before) :: stack))
  | .items before :: stack, .closeArray =>
    some (.complete (.array (value :: before).reverse) stack)
  | .members before key :: stack, .comma => some (.key (put key value before) stack)
  | .members before key :: stack, .closeObject =>
    some (.complete (.object (put key value before)) stack)
  | _, _ => none

def step? : State → Token → Option State
  | .value stack, t => startValue? stack t
  | .firstItem stack, .closeArray => some (.complete (.array []) stack)
  | .firstItem stack, t => startValue? (.items [] :: stack) t
  | .firstKey stack, .closeObject => some (.complete (.object []) stack)
  | .firstKey stack, .string key => some (.colon [] key stack)
  | .firstKey _, _ => none
  | .key before stack, .string key => some (.colon before key stack)
  | .key _ _, _ => none
  | .colon before key stack, .colon => some (.value (.members before key :: stack))
  | .colon _ _ _, _ => none
  | .complete v stack, t => finish? v stack t

def run? : State → List Token → Option Value
  | .complete v [], [] => some v
  | _, [] => none
  | state, t :: rest =>
    match step? state t with
    | some state => run? state rest
    | none => none

end Reader

def Value.ofTokens? (tokens : List Token) : Option Value := Reader.run? (.value []) tokens

def Value.parse? (text : String) : Option Value :=
  (Token.scan? text.toList).bind Value.ofTokens?

end Scion.Json
