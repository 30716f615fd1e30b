import Scion.Derivation

/-!
The text of a derivation tree: its closed leaves with terminal symbols, read from left to right.
Open positions contribute nothing unless they are asked to show their symbols.
-/

namespace Scion.Tree

mutual

def render (showOpen : Bool) : DerivationTree → String
  | hole n => if showOpen then n.symbol.text else ""
  | node n cs =>
    if cs.isEmpty then (if n.symbol.isTerminal then n.symbol.text else "")
    else renderAll showOpen cs

def renderAll (showOpen : Bool) : List DerivationTree → String
  | [] => ""
  | c :: cs => render showOpen c ++ renderAll showOpen cs

end

def text (t : DerivationTree) : String := t.render false

theorem renderAll_append (showOpen : Bool) (cs ds : List DerivationTree) :
    renderAll showOpen (cs ++ ds) = renderAll showOpen cs ++ renderAll showOpen ds := by
  induction cs with
  | nil => simp [renderAll]
  | cons c cs ih => simp [renderAll, ih, String.append_assoc]

end Scion.Tree
