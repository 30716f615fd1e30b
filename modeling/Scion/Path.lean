/-!
Positions in a tree. A path lists the child indices met on the way down from the root. Two paths
are either comparable, when one continues the other, or one lies strictly left of the other.
-/

namespace Scion

structure Path where
  toList : List Nat
deriving DecidableEq, Repr, Inhabited

namespace Path

def root : Path := ⟨[]⟩

def isRoot (p : Path) : Bool := p.toList.isEmpty

def length (p : Path) : Nat := p.toList.length

def child (p : Path) (index : Nat) : Path := ⟨p.toList ++ [index]⟩

def parent? (p : Path) : Option Path :=
  if p.isRoot then none else some ⟨p.toList.dropLast⟩

/-- The node at `p` is the node at `q` or one of its ancestors. -/
def isAncestor (p q : Path) : Bool := p.toList.isPrefixOf q.toList

/-- The first indices in which two paths differ, when neither continues the other. -/
def leftOf : List Nat → List Nat → Bool
  | i :: p, j :: q => if i = j then leftOf p q else i < j
  | _, _ => false

/-- Strictly left in document order; ancestors are neither before nor after. -/
def isBefore (p q : Path) : Bool := leftOf p.toList q.toList

def isAfter (p q : Path) : Bool := !p.isBefore q && !p.isAncestor q && !q.isAncestor p

instance : Ord Path where
  compare p q := compare p.toList q.toList

def render (p : Path) : String := "(" ++ ", ".intercalate (p.toList.map toString) ++ ")"

@[simp] theorem toList_child (p : Path) (i : Nat) : (p.child i).toList = p.toList ++ [i] := rfl

@[simp] theorem parent?_child (p : Path) (i : Nat) : (p.child i).parent? = some p := by
  simp [parent?, isRoot, child]

theorem leftOf_irrefl (p : List Nat) : leftOf p p = false := by
  induction p with
  | nil => rfl
  | cons i p ih => simp [leftOf, ih]

theorem leftOf_swap (p q : List Nat) :
    (!leftOf p q && !p.isPrefixOf q && !q.isPrefixOf p) = leftOf q p := by
  induction p generalizing q with
  | nil => cases q <;> simp [leftOf]
  | cons i p ih =>
    cases q with
    | nil => simp [leftOf]
    | cons j q =>
      by_cases h : i = j
      · subst h
        simpa [leftOf] using ih q
      · have border : decide (i < j) = !decide (j < i) := by
          rw [← decide_not, decide_eq_decide]
          omega
        simp [leftOf, List.isPrefixOf, h, Ne.symm h, beq_false_of_ne, border]

/-- After means: before, seen from the other side. -/
theorem isAfter_eq (p q : Path) : p.isAfter q = q.isBefore p :=
  leftOf_swap p.toList q.toList

end Path

end Scion
