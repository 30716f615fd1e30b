/-!
Finite ordered trees with open positions. A `hole` is a position that no production has filled
yet; a `node` without children is a closed leaf. Every function on trees comes with its companion
on lists of trees, and `Tree.inductionOn` is the induction principle that hides the companion.
-/

namespace Scion

inductive Tree (α : Type) where
  | hole (label : α)
  | node (label : α) (children : List (Tree α))
deriving Repr, Inhabited

namespace Tree

variable {α β : Type}

theorem inductionOn {motive : Tree α → Prop} (hole : ∀ a, motive (.hole a))
    (node : ∀ a children, (∀ c ∈ children, motive c) → motive (.node a children)) :
    ∀ t, motive t
  | .hole a => hole a
  | .node a children => node a children fun c _ => inductionOn hole node c

def label : Tree α → α
  | hole a => a
  | node a _ => a

def children : Tree α → List (Tree α)
  | hole _ => []
  | node _ cs => cs

def isOpen : Tree α → Bool
  | hole _ => true
  | node .. => false

/-- Open or closed, but without children. -/
def isLeaf (t : Tree α) : Bool := t.children.isEmpty

def leaf (a : α) : Tree α := .node a []

@[simp] theorem label_hole (a : α) : (hole a).label = a := rfl

@[simp] theorem label_node (a : α) (cs : List (Tree α)) : (node a cs).label = a := rfl

@[simp] theorem children_hole (a : α) : (hole a).children = [] := rfl

@[simp] theorem children_node (a : α) (cs : List (Tree α)) : (node a cs).children = cs := rfl

mutual

def map (f : α → β) : Tree α → Tree β
  | hole a => hole (f a)
  | node a cs => node (f a) (mapAll f cs)

def mapAll (f : α → β) : List (Tree α) → List (Tree β)
  | [] => []
  | c :: cs => map f c :: mapAll f cs

end

mutual

def size : Tree α → Nat
  | hole _ => 1
  | node _ cs => sizeAll cs + 1

def sizeAll : List (Tree α) → Nat
  | [] => 0
  | c :: cs => size c + sizeAll cs

end

mutual

/-- Every position has been filled. -/
def isComplete : Tree α → Bool
  | hole _ => false
  | node _ cs => areComplete cs

def areComplete : List (Tree α) → Bool
  | [] => true
  | c :: cs => isComplete c && areComplete cs

end

mutual

def beq [BEq α] : Tree α → Tree α → Bool
  | hole a, hole b => a == b
  | node a cs, node b ds => a == b && beqAll cs ds
  | hole _, node .. => false
  | node .., hole _ => false

def beqAll [BEq α] : List (Tree α) → List (Tree α) → Bool
  | [], [] => true
  | c :: cs, d :: ds => beq c d && beqAll cs ds
  | [], _ :: _ => false
  | _ :: _, [] => false

end

instance [BEq α] : BEq (Tree α) := ⟨beq⟩

theorem mapAll_eq_map (f : α → β) (cs : List (Tree α)) : mapAll f cs = cs.map (map f) := by
  induction cs with
  | nil => rfl
  | cons c cs ih => simp [mapAll, ih]

theorem areComplete_eq_all (cs : List (Tree α)) : areComplete cs = cs.all isComplete := by
  induction cs with
  | nil => rfl
  | cons c cs ih => simp [areComplete, ih]

theorem sizeAll_append (cs ds : List (Tree α)) : sizeAll (cs ++ ds) = sizeAll cs + sizeAll ds := by
  induction cs with
  | nil => simp [sizeAll]
  | cons c cs ih => simp [sizeAll, ih, Nat.add_assoc]

end Tree

end Scion
