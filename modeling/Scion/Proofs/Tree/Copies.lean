import Scion.Proofs.Tree.OpenPositions

/-!
Copies. A copy is made from the children up, and every node of it takes the next free identity. So
it has the shape of the tree that was copied, but none of the identities in use, and no identity
twice, whatever identities the tree itself has. Text, fingerprint and open positions are read off
the symbols and the shape, so a copy agrees with the tree in all of them.
-/

namespace Scion.Tree

/-! ### Copying node by node -/

mutual

/-- A copy of a tree and the next free identity; the children are copied before their parent. -/
def copy : DerivationTree → NodeId → DerivationTree × NodeId
  | hole n, next => (hole ⟨next, n.symbol⟩, next + 1)
  | node n cs, next =>
    let (children, next) := copyAll cs next
    (node ⟨next, n.symbol⟩ children, next + 1)

def copyAll : List DerivationTree → NodeId → List DerivationTree × NodeId
  | [], next => ([], next)
  | c :: cs, next =>
    let (child, next) := copy c next
    let (children, next) := copyAll cs next
    (child :: children, next)

end

theorem duplicate_eq_copy (t : DerivationTree) (next : NodeId) :
    t.duplicate next = t.copy next := by
  rw [duplicate]
  induction t using Tree.inductionOn generalizing next with
  | hole n => rfl
  | node n cs ih =>
    have all : ∀ next, instantiateAll (cs.map shape) next = copyAll cs next := by
      clear next
      induction cs with
      | nil => exact fun _ => rfl
      | cons c cs ihcs =>
        intro next
        rw [List.map_cons, instantiateAll_cons, ih c List.mem_cons_self,
          ihcs fun d hd => ih d (List.mem_cons_of_mem _ hd)]
        rfl
    rw [shape_node, instantiate_node, all]
    rfl

/-! ### Reading node by node -/

/-- What a node itself adds to the text. -/
def shown (showOpen : Bool) : DerivationTree → String
  | hole n => if showOpen then n.symbol.text else ""
  | node n cs => if cs.isEmpty ∧ n.symbol.isTerminal then n.symbol.text else ""

theorem foldl_shown_preorder (showOpen : Bool) (t : DerivationTree) (out : String) :
    t.preorder.foldl (fun out s => out ++ s.shown showOpen) out = out ++ t.render showOpen := by
  induction t using Tree.inductionOn generalizing out with
  | hole n => rfl
  | node n cs ih =>
    have below : ∀ out, (cs.flatMap preorder).foldl (fun out s => out ++ s.shown showOpen) out =
        out ++ renderAll showOpen cs := by
      clear out
      induction cs with
      | nil => simp [renderAll]
      | cons c cs ihcs =>
        intro out
        rw [List.flatMap_cons, List.foldl_append, ih c List.mem_cons_self,
          ihcs fun d hd => ih d (List.mem_cons_of_mem _ hd), renderAll, String.append_assoc]
    rw [preorder_eq_cons, List.foldl_cons, children_node, below, render, shown]
    cases cs with
    | nil => simp [renderAll]
    | cons c cs => simp

/-- The text is gathered along the walk through the tree. -/
theorem render_eq_foldl_walk (showOpen : Bool) (t : DerivationTree) :
    t.render showOpen = (walk [t]).foldl (fun out s => out ++ s.shown showOpen) "" := by
  rw [walk_singleton, foldl_shown_preorder, String.empty_append]

open Fingerprint in
mutual

/-- The hash of the nodes themselves. -/
def hash : DerivationTree → UInt64
  | hole n => mix (ofSymbol n.symbol) 1
  | node n cs =>
    if cs.isEmpty then mix (ofSymbol n.symbol) 2
    else hashAll (mix (mix (ofSymbol n.symbol) 3) cs.length.toUInt64) cs

def hashAll (acc : UInt64) : List DerivationTree → UInt64
  | [] => acc
  | c :: cs => hashAll (mix acc (hash c)) cs

end

theorem fingerprint_eq_hash (t : DerivationTree) : t.fingerprint = t.hash := by
  rw [fingerprint]
  induction t using Tree.inductionOn with
  | hole n => rfl
  | node n cs ih =>
    have all : ∀ acc, Fingerprint.ofTrees acc (cs.map shape) = hashAll acc cs := by
      induction cs with
      | nil => exact fun _ => rfl
      | cons c cs ihcs =>
        intro acc
        rw [List.map_cons, Fingerprint.ofTrees, ih c List.mem_cons_self,
          ihcs fun d hd => ih d (List.mem_cons_of_mem _ hd), hashAll]
    rw [shape_node, Fingerprint.ofTree, hash, List.isEmpty_map, List.length_map, all]

/-! ### Open positions under other labels -/

section

variable {α β : Type}

theorem openPaths_map (f : α → β) (t : Tree α) : (t.map f).openPaths = t.openPaths := by
  induction t using Tree.inductionOn with
  | hole a => rfl
  | node a cs ih =>
    have among : ∀ k, openPathsAmong k (cs.map (map f)) = openPathsAmong k cs := by
      induction cs with
      | nil => exact fun _ => rfl
      | cons c cs ihcs =>
        intro k
        rw [List.map_cons, openPathsAmong, openPathsAmong, ih c List.mem_cons_self,
          ihcs fun d hd => ih d (List.mem_cons_of_mem _ hd)]
    rw [map_node, openPaths_eq_among, openPaths_eq_among, among]

theorem isComplete_map (f : α → β) (t : Tree α) : (t.map f).isComplete = t.isComplete := by
  rw [Bool.eq_iff_iff, ← openPaths_eq_nil_iff, ← openPaths_eq_nil_iff, openPaths_map]

end

variable {t u : DerivationTree}

theorem openLeaves_congr (h : t.shape = u.shape) : t.openLeaves = u.openLeaves := by
  rw [openLeaves, openLeaves, ← openPaths_map Node.symbol t, ← openPaths_map Node.symbol u, ← shape,
    ← shape, h]

theorem isComplete_congr (h : t.shape = u.shape) : t.isComplete = u.isComplete := by
  rw [← isComplete_map Node.symbol t, ← isComplete_map Node.symbol u, ← shape, ← shape, h]

/-! ### Copies -/

/-- What was made when `first` was the next free identity is a copy of `t`: it reads like `t`, and
its identities are its own. -/
structure Copied (t : DerivationTree) (first : NodeId) (made : DerivationTree × NodeId) : Prop where
  shape : made.1.shape = t.shape
  fingerprint : made.1.fingerprint = t.fingerprint
  render : ∀ showOpen, made.1.render showOpen = t.render showOpen
  openLeaves : made.1.openLeaves = t.openLeaves
  isComplete : made.1.isComplete = t.isComplete
  distinct : made.1.ids.Nodup
  /-- Identities that were issued before are smaller, those that are issued later are not. -/
  issued : made.1.Issued first made.2

theorem nodup_ids_instantiate (q : ParseTree) (next : NodeId) :
    (q.instantiate next).1.ids.Nodup := by
  rw [(ids_instantiate_perm q next).nodup_iff]
  exact List.nodup_range'

/-- Whatever takes its shape from a tree is a copy of it. -/
theorem copied_instantiate (t : DerivationTree) (next : NodeId) :
    Copied t next (t.shape.instantiate next) := by
  have same : (t.shape.instantiate next).1.shape = t.shape := shape_instantiate t.shape next
  constructor
  · exact same
  · exact fingerprint_congr same
  · intro showOpen
    exact render_congr showOpen same
  · exact openLeaves_congr same
  · exact isComplete_congr same
  · exact nodup_ids_instantiate t.shape next
  · exact issued_instantiate t.shape next

/-- A shape is not changed by making a tree of it. Copying a tree node by node and making a tree of
its shape both give a copy, which agrees with the tree in all that is read off the nodes without
their identities and takes new identities throughout. -/
theorem copies_fresh (t : DerivationTree) (q : ParseTree) (next : NodeId) :
    (q.instantiate next).1.shape = q ∧
      t.duplicate next = t.copy next ∧
      Copied t next (t.duplicate next) ∧
      Copied t next (t.shape.instantiate next) ∧
      t.fingerprint = t.hash ∧
      ∀ showOpen, t.render showOpen =
        (walk [t]).foldl (fun out s => out ++ s.shown showOpen) "" := by
  refine ⟨shape_instantiate q next, duplicate_eq_copy t next, ?_, copied_instantiate t next,
    fingerprint_eq_hash t, fun showOpen => render_eq_foldl_walk showOpen t⟩
  rw [duplicate]
  exact copied_instantiate t next

end Scion.Tree
