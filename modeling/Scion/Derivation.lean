import Scion.Error
import Scion.Text.Quoted
import Scion.Tree.Address
import Scion.Tree.Traversal

/-!
Derivation trees: trees whose labels are nodes with an identity. Their shape without identities is a
parse tree. A shape becomes a derivation tree by issuing the next free identities, children before
their parent, so a copy never shares an identity with anything older.
-/

namespace Scion

abbrev ParseTree := Tree Symbol

abbrev DerivationTree := Tree Node

namespace Tree

def id (t : DerivationTree) : NodeId := t.label.id

def symbol (t : DerivationTree) : Symbol := t.label.symbol

def shape (t : DerivationTree) : ParseTree := t.map Node.symbol

mutual

/-- A derivation tree of the given shape, and the next free identity. -/
def instantiate : ParseTree → NodeId → DerivationTree × NodeId
  | hole s, next => (hole ⟨next, s⟩, next + 1)
  | node s cs, next =>
    let (children, next) := instantiateAll cs next
    (node ⟨next, s⟩ children, next + 1)

def instantiateAll : List ParseTree → NodeId → List DerivationTree × NodeId
  | [], next => ([], next)
  | c :: cs, next =>
    let (child, next) := instantiate c next
    let (children, next) := instantiateAll cs next
    (child :: children, next)

end

/-- The same shape with fresh identities throughout. -/
def duplicate (t : DerivationTree) (next : NodeId) : DerivationTree × NodeId :=
  instantiate t.shape next

def Obstacle.lookupReason : Obstacle Node → String
  | .outOfRange index depth width =>
    "index " ++ toString index ++ " out of range at depth " ++ toString depth ++ " ("
      ++ toString width ++ " children)"
  | .openNode n depth => "open node " ++ n.symbol.text ++ " at depth " ++ toString depth
  | .closedLeaf n depth => "leaf " ++ Text.quoted n.symbol.text ++ " at depth " ++ toString depth

def Obstacle.replacementReason : Obstacle Node → String
  | .outOfRange index _ width =>
    "index " ++ toString index ++ " out of range (" ++ toString width ++ " children)"
  | .openNode n _ | .closedLeaf n _ => "node " ++ n.symbol.text ++ " has no children"

def subtreeAt (t : DerivationTree) (p : Path) : Except GraftError DerivationTree :=
  match t.descend 0 p.toList with
  | .ok s => .ok s
  | .error o => .error (.invalidPath p o.lookupReason)

/-- Nodes above the path keep their identities; everything beside it stays as it is. -/
def replaceAt (t : DerivationTree) (p : Path) (replacement : DerivationTree) :
    Except GraftError DerivationTree :=
  match t.replace 0 p.toList replacement with
  | .ok s => .ok s
  | .error o => .error (.invalidPath p o.replacementReason)

/-- The path of the first node with the identity. -/
def find? (t : DerivationTree) (id : NodeId) : Option Path :=
  (t.findPath? fun n => n.id == id).map Path.mk

def get? (t : DerivationTree) (id : NodeId) : Option DerivationTree :=
  t.preorder.find? fun s => s.id == id

def containsId (t : DerivationTree) (id : NodeId) : Bool := (t.find? id).isSome

def ids (t : DerivationTree) : List NodeId := t.preorder.map id

def openLeaves (t : DerivationTree) : List Path := t.openPaths.map Path.mk

@[simp] theorem subtreeAt_root (t : DerivationTree) : t.subtreeAt .root = .ok t := rfl

@[simp] theorem replaceAt_root (t x : DerivationTree) : t.replaceAt .root x = .ok x := rfl

end Tree

end Scion
