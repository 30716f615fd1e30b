import Scion.Derivation

/-!
Derivation trees that remember the making of each node. Every node is stamped when it is made, and no
two makings share a stamp. Replacing a subtree makes the nodes above it anew, with their old
identities; all other nodes keep their stamps, so two handles show the same node exactly when their
stamps agree.
-/

namespace Scion

structure Stamped where
  node : Node
  stamp : Nat
deriving DecidableEq, Repr

abbrev RevisedTree := Tree Stamped

namespace RevisedTree

def plain (t : RevisedTree) : DerivationTree := t.map Stamped.node

/-- A tree whose nodes have all just been made, each stamped with its new identity. -/
def ofFresh (t : DerivationTree) : RevisedTree := t.map fun n => ⟨n, n.id⟩

def sameNode (t u : RevisedTree) : Bool := t.label.stamp == u.label.stamp

def subtreeAt (t : RevisedTree) (p : Path) : Except GraftError RevisedTree :=
  match t.descend 0 p.toList with
  | .ok s => .ok s
  | .error o => .error (.invalidPath p (o.map Stamped.node).lookupReason)

/-- Stamps the nodes above a path with consecutive numbers, from the root on. -/
def restamp (t : RevisedTree) (next : Nat) : List Nat → RevisedTree
  | [] => t
  | i :: path =>
    match t with
    | .hole a => .hole ⟨a.node, next⟩
    | .node a cs =>
      .node ⟨a.node, next⟩ <|
        match cs[i]? with
        | some c => cs.set i (restamp c (next + 1) path)
        | none => cs

/-- The revised tree and the next free stamp. -/
def replaceAt (t : RevisedTree) (p : Path) (replacement : RevisedTree) (next : Nat) :
    Except GraftError (RevisedTree × Nat) :=
  match t.replace 0 p.toList replacement with
  | .ok s => .ok (restamp s next p.toList, next + p.length)
  | .error o => .error (.invalidPath p (o.map Stamped.node).replacementReason)

/-- A new node above existing ones. -/
def graft (s : Symbol) (children : List RevisedTree) (next : Nat) : RevisedTree × Nat :=
  (.node ⟨⟨next, s⟩, next⟩ children, next + 1)

/-- Wraps a tree in nodes of one symbol, again and again. -/
def chain (s : Symbol) : Nat → RevisedTree → Nat → RevisedTree × Nat
  | 0, t, next => (t, next)
  | n + 1, t, next =>
    let (t, next) := graft s [t] next
    chain s n t next

theorem plain_ofFresh (t : DerivationTree) : plain (ofFresh t) = t := by
  induction t using Tree.inductionOn with
  | hole a => rfl
  | node a cs ih =>
    simp only [plain, ofFresh, Tree.map, Tree.mapAll_eq_map, List.map_map]
    congr 1
    exact (List.map_congr_left ih).trans (by simp)

end RevisedTree

end Scion
