import Scion.Proofs.Tree.Lens
import Scion.Proofs.Tree.Traversal

/-!
The open positions of a tree. Their paths are the addresses that lead to an open node, listed in
document order; none continues another, for nothing lies below an open node. A tree without open
positions is complete. When one position is filled, its path gives way to the paths of the open
positions that come with the filling, and the other paths stay where they are.
-/

namespace Scion

/-- The position that is reached by `q` from the node at `p`. -/
def Path.append (p q : Path) : Path := ⟨p.toList ++ q.toList⟩

namespace Tree

variable {α : Type} {t s x t' : Tree α} {depth : Nat} {path p q : List Nat}

/-! ### Collecting -/

mutual

/-- Collects the paths of the open positions below the node at a path, behind those that were found
before. -/
def collectOpen (path : Path) (found : List Path) : Tree α → List Path
  | hole _ => found ++ [path]
  | node _ cs => collectOpenAmong path found 0 cs

def collectOpenAmong (path : Path) (found : List Path) (index : Nat) : List (Tree α) → List Path
  | [] => found
  | c :: cs =>
    collectOpenAmong path (collectOpen (path.child index) found c) (index + 1) cs

end

theorem openPaths_eq_among (a : α) (cs : List (Tree α)) :
    (node a cs).openPaths = openPathsAmong 0 cs := rfl

theorem collectOpen_eq_append (path : Path) (found : List Path) (t : Tree α) :
    collectOpen path found t = found ++ t.openPaths.map fun rest => path.append ⟨rest⟩ := by
  induction t using Tree.inductionOn generalizing path found with
  | hole a => simp [collectOpen, openPaths, Path.append]
  | node a cs ih =>
    have among : ∀ found k, collectOpenAmong path found k cs =
        found ++ (openPathsAmong k cs).map fun rest => path.append ⟨rest⟩ := by
      clear found
      induction cs with
      | nil => simp [collectOpenAmong, openPathsAmong]
      | cons c cs ihcs =>
        intro found k
        have first := ih c List.mem_cons_self (path.child k) found
        rw [collectOpenAmong, first, ihcs fun d hd => ih d (List.mem_cons_of_mem _ hd),
          openPathsAmong, List.map_append, List.map_map, List.append_assoc]
        congr 2
        apply List.map_congr_left
        intro rest _
        simp [Path.append, Path.child]
    rw [collectOpen, among, openPaths_eq_among]

/-! ### Addresses of open nodes -/

/-- An open node is found at the path. -/
def opensAt (t : Tree α) (depth : Nat) (path : List Nat) : Bool :=
  match t.descend depth path with
  | .ok s => s.isOpen
  | .error _ => false

theorem opensAt_iff : t.opensAt depth path ↔ ∃ s, t.descend depth path = .ok s ∧ s.isOpen := by
  rw [opensAt]
  cases t.descend depth path <;> simp

theorem openPaths_eq_filter (t : Tree α) (depth : Nat) :
    t.openPaths = t.addresses.filter (t.opensAt depth) := by
  induction t using Tree.inductionOn generalizing depth with
  | hole a => rfl
  | node a cs ih =>
    -- The children behind the first `k` are reached from the node by indices that start at `k`.
    have below : ∀ ds k, cs.drop k = ds →
        openPathsAmong k ds = (addressesAmong k ds).filter ((node a cs).opensAt depth) := by
      intro ds
      induction ds with
      | nil => exact fun _ _ => rfl
      | cons d ds ihds =>
        intro k split
        obtain ⟨hd, later⟩ := getElem?_of_drop split
        have first : (node a cs).opensAt depth ∘ (fun path => k :: path) =
            d.opensAt (depth + 1) := by
          funext path
          rw [Function.comp_apply, opensAt, descend_cons hd, opensAt]
        rw [openPathsAmong, addressesAmong, List.filter_append, List.filter_map, first,
          ← ih d (List.mem_of_getElem? hd), ihds (k + 1) later]
    have root : (node a cs).opensAt depth [] = false := rfl
    rw [addresses_eq_cons, List.filter_cons, root, openPaths_eq_among, below cs 0 rfl]
    rfl

theorem mem_openPaths (depth : Nat) :
    path ∈ t.openPaths ↔ ∃ s, t.descend depth path = .ok s ∧ s.isOpen := by
  rw [openPaths_eq_filter t depth, List.mem_filter, opensAt_iff, mem_addresses depth]
  constructor
  · rintro ⟨-, opened⟩
    exact opened
  · rintro ⟨s, hs, opened⟩
    exact ⟨⟨s, hs⟩, s, hs, opened⟩

/-- Nothing lies below an open node. -/
theorem eq_of_prefix_of_isOpen (hp : t.descend depth p = .ok s) (opened : s.isOpen)
    (hq : t.descend depth q = .ok x) (below : p <+: q) : p = q := by
  induction p generalizing t depth q with
  | nil =>
    cases hp
    cases q with
    | nil => rfl
    | cons j q =>
      cases s with
      | hole a => simp [descend] at hq
      | node a cs => simp [isOpen] at opened
  | cons i p ih =>
    cases q with
    | nil => simp at below
    | cons j q =>
      obtain ⟨rfl, deeper⟩ := List.cons_prefix_cons.1 below
      obtain ⟨c, hc, hp⟩ := descend_cons_ok.1 hp
      obtain ⟨d, hd, hq⟩ := descend_cons_ok.1 hq
      obtain rfl : c = d := Option.some.inj (hc.symm.trans hd)
      rw [ih hp hq deeper]

theorem openPaths_sorted (t : Tree α) : t.openPaths.Pairwise fun p q => compare p q = .lt := by
  rw [openPaths_eq_filter t 0]
  exact (addresses_sorted t).filter _

/-- The open positions stand beside each other, from left to right. -/
theorem openPaths_pairwise_leftOf (t : Tree α) :
    t.openPaths.Pairwise fun p q => Path.leftOf p q := by
  refine (openPaths_sorted t).imp_of_mem fun {p q} hp hq smaller => ?_
  obtain left | ⟨below, differ⟩ := Path.compare_eq_lt_iff.1 smaller
  · exact left
  · obtain ⟨s, hs, opened⟩ := (mem_openPaths 0).1 hp
    obtain ⟨r, hr, -⟩ := (mem_openPaths 0).1 hq
    exact absurd (eq_of_prefix_of_isOpen hs opened hr below) differ

/-! ### Complete trees -/

theorem isComplete_eq_all (t : Tree α) : t.isComplete = t.preorder.all fun s => !s.isOpen := by
  induction t using Tree.inductionOn with
  | hole a => rfl
  | node a cs ih =>
    have below : cs.all isComplete = (cs.flatMap preorder).all fun s => !s.isOpen := by
      rw [List.all_flatMap, Bool.eq_iff_iff, List.all_eq_true, List.all_eq_true]
      exact forall₂_congr fun c hc => by rw [ih c hc]
    rw [isComplete, areComplete_eq_all, below, preorder_eq_cons]
    rfl

theorem openPaths_eq_nil_iff : t.openPaths = [] ↔ t.isComplete := by
  rw [isComplete_eq_all, List.all_eq_true, List.eq_nil_iff_forall_not_mem]
  constructor
  · intro none s hs
    obtain ⟨path, found⟩ := exists_descend_of_mem_preorder hs 0
    have closed : ¬ s.isOpen := fun opened => none path ((mem_openPaths 0).2 ⟨s, found, opened⟩)
    simpa using closed
  · intro closed path opened
    obtain ⟨s, found, opened⟩ := (mem_openPaths 0).1 opened
    have shut := closed s (mem_preorder_of_descend found)
    simp [opened] at shut

/-! ### Filling -/

theorem openPathsAmong_append (k : Nat) (cs ds : List (Tree α)) :
    openPathsAmong k (cs ++ ds) = openPathsAmong k cs ++ openPathsAmong (k + cs.length) ds := by
  induction cs generalizing k with
  | nil => rfl
  | cons c cs ih =>
    rw [List.cons_append, openPathsAmong, ih, openPathsAmong, List.append_assoc, List.length_cons,
      Nat.add_assoc, Nat.add_comm 1]

/-- The open positions left and right of an address do not depend on what is found there. -/
theorem openPaths_around (h : t.descend depth path = .ok s) :
    ∃ before after : List (List Nat), ∀ x t', t.replace depth path x = .ok t' →
      t'.openPaths = before ++ x.openPaths.map (path ++ ·) ++ after := by
  induction path generalizing t depth with
  | nil =>
    refine ⟨[], [], fun x t' hx => ?_⟩
    cases hx
    simp
  | cons i path ih =>
    obtain ⟨c, hc, hs⟩ := descend_cons_ok.1 h
    obtain ⟨before, after, split⟩ := ih hs
    obtain ⟨hi, -⟩ := List.getElem?_eq_some_iff.1 hc
    refine ⟨openPathsAmong 0 (t.children.take i) ++ before.map (i :: ·),
      after.map (i :: ·) ++ openPathsAmong (i + 1) (t.children.drop (i + 1)), fun x t' hx => ?_⟩
    obtain ⟨d, d', hd, replaced, rfl⟩ := replace_cons_ok.1 hx
    obtain rfl : c = d := Option.some.inj (hc.symm.trans hd)
    have position : 0 + (t.children.take i).length = i := by
      rw [Nat.zero_add, List.length_take_of_le (Nat.le_of_lt hi)]
    rw [openPaths_eq_among, List.set_eq_take_append_cons_drop, if_pos hi, openPathsAmong_append,
      openPathsAmong, position, split x d' replaced]
    simp [Function.comp_def]

/-! ### Open leaves of a derivation tree -/

theorem mem_openLeaves {t : DerivationTree} {p : Path} :
    p ∈ t.openLeaves ↔ ∃ s, t.subtreeAt p = .ok s ∧ s.isOpen := by
  have listed : p ∈ t.openLeaves ↔ p.toList ∈ t.openPaths := by
    rw [openLeaves, List.mem_map]
    constructor
    · rintro ⟨path, listed, rfl⟩
      exact listed
    · intro listed
      exact ⟨p.toList, listed, rfl⟩
  simp only [listed, mem_openPaths 0, subtreeAt_eq_ok]

/-- Filling an open position puts the open positions of the filling in its place. -/
theorem openLeaves_replaceAt {t : DerivationTree} {p : Path} (h : p ∈ t.openLeaves) :
    ∃ before after : List Path, t.openLeaves = before ++ p :: after ∧
      ∀ x, ∃ t', t.replaceAt p x = .ok t' ∧
        t'.openLeaves = before ++ x.openLeaves.map p.append ++ after := by
  obtain ⟨s, found, opened⟩ := mem_openLeaves.1 h
  obtain ⟨before, after, split⟩ := openPaths_around (subtreeAt_eq_ok.1 found)
  have filled {x t' : DerivationTree} (replaced : t.replaceAt p x = .ok t') :
      t'.openLeaves =
        before.map Path.mk ++ x.openLeaves.map p.append ++ after.map Path.mk := by
    rw [openLeaves, split x t' (replaceAt_eq_ok.1 replaced), openLeaves]
    simp [Function.comp_def, Path.append]
  refine ⟨before.map Path.mk, after.map Path.mk, ?_, ?_⟩
  · -- Putting the hole back that is there already shows what stands in the place of the filling.
    have itself : s.openLeaves.map p.append = [p] := by
      cases s with
      | hole a => simp [openLeaves, openPaths, Path.append]
      | node a cs => simp [isOpen] at opened
    rw [filled (replaceAt_subtreeAt found), itself, List.append_assoc, List.singleton_append]
  · intro x
    obtain ⟨t', replaced⟩ := exists_replaceAt found x
    exact ⟨t', replaced, filled replaced⟩

/-- The paths that are collected are the addresses of the open nodes, each once, and each is before
the later ones. There are none exactly when the walk through the tree meets no open node. Filling
one of the positions leaves all the other paths in their places. -/
theorem openLeaves_exact (t : DerivationTree) :
    t.openLeaves = collectOpen .root [] t ∧
      (∀ p, p ∈ t.openLeaves ↔ ∃ s, t.subtreeAt p = .ok s ∧ s.isOpen) ∧
      t.openLeaves.Nodup ∧
      (t.openLeaves.Pairwise fun p q => compare p q = .lt ∧ p.isBefore q) ∧
      (t.openLeaves = [] ↔ t.isComplete) ∧
      (t.isComplete = (walk [t]).all fun s => !s.isOpen) ∧
      ∀ p ∈ t.openLeaves, ∃ before after, t.openLeaves = before ++ p :: after ∧
        ∀ x, ∃ t', t.replaceAt p x = .ok t' ∧
          t'.openLeaves = before ++ x.openLeaves.map p.append ++ after := by
  have ordered : t.openLeaves.Pairwise fun p q => compare p q = .lt ∧ p.isBefore q := by
    apply List.pairwise_map.2
    exact (openPaths_sorted t).and (openPaths_pairwise_leftOf t)
  refine ⟨?_, fun p => mem_openLeaves, ?_, ordered, ?_, ?_, fun p => openLeaves_replaceAt⟩
  · rw [collectOpen_eq_append, List.nil_append]
    rfl
  · refine ordered.imp fun {p q} before => ?_
    rintro rfl
    have left := before.2
    rw [Path.isBefore, Path.leftOf_irrefl] at left
    exact absurd left Bool.false_ne_true
  · rw [openLeaves, List.map_eq_nil_iff]
    exact openPaths_eq_nil_iff
  · rw [walk_singleton]
    exact isComplete_eq_all t

end Tree

end Scion
