import Scion.Tree

/-!
Addressing subtrees. Descending along a path and replacing what is found there stop at the same
obstacle: an index past the last child, or a position without children.
-/

namespace Scion.Tree

variable {α : Type}

/-- Why a path leaves the tree; `depth` counts the steps that were taken. -/
inductive Obstacle (α : Type) where
  | outOfRange (index depth width : Nat)
  | openNode (label : α) (depth : Nat)
  | closedLeaf (label : α) (depth : Nat)
deriving DecidableEq, Repr

def Obstacle.map {β : Type} (f : α → β) : Obstacle α → Obstacle β
  | outOfRange index depth width => outOfRange index depth width
  | openNode a depth => openNode (f a) depth
  | closedLeaf a depth => closedLeaf (f a) depth

/-- The subtree reached from a node at the given depth. -/
def descend (t : Tree α) (depth : Nat) : List Nat → Except (Obstacle α) (Tree α)
  | [] => .ok t
  | i :: path =>
    match t with
    | hole a => .error (.openNode a depth)
    | node a [] => .error (.closedLeaf a depth)
    | node _ (c :: cs) =>
      match (c :: cs)[i]? with
      | none => .error (.outOfRange i depth (c :: cs).length)
      | some next => next.descend (depth + 1) path

/-- The tree with the subtree at a path exchanged for another. -/
def replace (t : Tree α) (depth : Nat) : List Nat → Tree α → Except (Obstacle α) (Tree α)
  | [], replacement => .ok replacement
  | i :: path, replacement =>
    match t with
    | hole a => .error (.openNode a depth)
    | node a [] => .error (.closedLeaf a depth)
    | node a (c :: cs) =>
      match (c :: cs)[i]? with
      | none => .error (.outOfRange i depth (c :: cs).length)
      | some next =>
        (next.replace (depth + 1) path replacement).map fun next => node a ((c :: cs).set i next)

@[simp] theorem descend_nil (t : Tree α) (depth : Nat) : t.descend depth [] = .ok t := rfl

@[simp] theorem replace_nil (t x : Tree α) (depth : Nat) : t.replace depth [] x = .ok x := rfl

/-- Replacement stops at the obstacle at which the descent stops. -/
theorem replace_eq_error_iff {t x : Tree α} {depth : Nat} {path : List Nat} {o : Obstacle α} :
    t.replace depth path x = .error o ↔ t.descend depth path = .error o := by
  induction path generalizing t depth with
  | nil => simp
  | cons i path ih =>
    match t with
    | hole a => simp [replace, descend]
    | node a [] => simp [replace, descend]
    | node a (c :: cs) =>
      simp only [replace, descend]
      cases h : (c :: cs)[i]? with
      | none => simp
      | some next =>
        rw [← ih]
        cases hx : next.replace (depth + 1) path x <;> simp [Except.map, hx]

end Scion.Tree
