import Scion.Tree

/-!
Walking a whole tree. Nodes are met parent first and children from left to right; the paths
produced on the way come out in increasing order.
-/

namespace Scion.Tree

variable {α : Type}

mutual

/-- All subtrees, each before those below it. -/
def preorder : Tree α → List (Tree α)
  | hole a => [hole a]
  | node a cs => node a cs :: preorderAll cs

def preorderAll : List (Tree α) → List (Tree α)
  | [] => []
  | c :: cs => preorder c ++ preorderAll cs

end

mutual

/-- The path of the first node whose label passes the test. -/
def findPath? (test : α → Bool) : Tree α → Option (List Nat)
  | hole a => if test a then some [] else none
  | node a cs => if test a then some [] else findPathAmong? test 0 cs

def findPathAmong? (test : α → Bool) (index : Nat) : List (Tree α) → Option (List Nat)
  | [] => none
  | c :: cs =>
    match findPath? test c with
    | some path => some (index :: path)
    | none => findPathAmong? test (index + 1) cs

end

mutual

/-- The paths of all open positions below a node, from left to right. -/
def openPaths : Tree α → List (List Nat)
  | hole _ => [[]]
  | node _ cs => openPathsAmong 0 cs

def openPathsAmong (index : Nat) : List (Tree α) → List (List Nat)
  | [] => []
  | c :: cs => (openPaths c).map (index :: ·) ++ openPathsAmong (index + 1) cs

end

mutual

/-- All subtrees in preorder, each with its depth. -/
def preorderFrom (depth : Nat) : Tree α → List (Nat × Tree α)
  | hole a => [(depth, hole a)]
  | node a cs => (depth, node a cs) :: preorderFromAll (depth + 1) cs

def preorderFromAll (depth : Nat) : List (Tree α) → List (Nat × Tree α)
  | [] => []
  | c :: cs => preorderFrom depth c ++ preorderFromAll depth cs

end

theorem preorderAll_eq_flatMap (cs : List (Tree α)) : preorderAll cs = cs.flatMap preorder := by
  induction cs with
  | nil => rfl
  | cons c cs ih => simp [preorderAll, ih]

theorem self_mem_preorder (t : Tree α) : t ∈ t.preorder := by
  cases t <;> simp [preorder]

end Scion.Tree
