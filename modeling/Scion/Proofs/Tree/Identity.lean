import Scion.Derivation
import Scion.Proofs.Tree.Address

/-!
Identities in derivation trees. In a tree whose identities all differ a node is found again at its
own address. Replacing a subtree keeps every identity outside of it, and a shape that becomes a tree
takes exactly the next free identities.
-/

namespace Scion.Tree

@[simp] theorem shape_hole (n : Node) : shape (hole n) = hole n.symbol := rfl

@[simp] theorem shape_node (n : Node) (cs : List DerivationTree) :
    shape (node n cs) = node n.symbol (cs.map shape) := by
  rw [shape, map, mapAll_eq_map]
  rfl

@[simp] theorem label_shape (t : DerivationTree) : t.shape.label = t.symbol := by
  cases t <;> rfl

@[simp] theorem children_shape (t : DerivationTree) : t.shape.children = t.children.map shape := by
  cases t <;> simp

theorem ids_eq_cons (t : DerivationTree) : t.ids = t.id :: t.children.flatMap ids := by
  rw [ids, preorder_eq_cons, List.map_cons, List.map_flatMap]
  rfl

theorem ids_eq_map_label (t : DerivationTree) :
    t.ids = (t.preorder.map label).map Node.id := by
  rw [ids, List.map_map]
  rfl

theorem id_mem_ids {s t : DerivationTree} (h : s ∈ t.preorder) : s.id ∈ t.ids :=
  List.mem_map_of_mem h

theorem ids_subset_of_mem_preorder {s t : DerivationTree} (h : s ∈ t.preorder) : s.ids ⊆ t.ids := by
  intro i hi
  obtain ⟨r, hr, rfl⟩ := List.mem_map.1 hi
  exact id_mem_ids (mem_preorder_trans hr h)

/-! ### Addresses of nodes -/

theorem subtreeAt_eq_ok {t s : DerivationTree} {p : Path} :
    t.subtreeAt p = .ok s ↔ t.descend 0 p.toList = .ok s := by
  rw [subtreeAt]
  cases t.descend 0 p.toList <;> simp

theorem replaceAt_eq_ok {t x t' : DerivationTree} {p : Path} :
    t.replaceAt p x = .ok t' ↔ t.replace 0 p.toList x = .ok t' := by
  rw [replaceAt]
  cases t.replace 0 p.toList x <;> simp

theorem exists_replaceAt {t s : DerivationTree} {p : Path} (h : t.subtreeAt p = .ok s)
    (x : DerivationTree) : ∃ t', t.replaceAt p x = .ok t' := by
  obtain ⟨t', ht'⟩ := exists_replace_of_descend (subtreeAt_eq_ok.1 h) x
  exact ⟨t', replaceAt_eq_ok.2 ht'⟩

theorem mem_preorder_of_subtreeAt {t s : DerivationTree} {p : Path} (h : t.subtreeAt p = .ok s) :
    s ∈ t.preorder :=
  mem_preorder_of_descend (subtreeAt_eq_ok.1 h)

/-- Looking for an identity and then descending ends at the node that has it first in preorder. -/
theorem get?_of_find? {t : DerivationTree} {i : NodeId} {p : Path} (h : t.find? i = some p) :
    ∃ s, t.subtreeAt p = .ok s ∧ t.get? i = some s := by
  obtain ⟨path, hp, rfl⟩ := Option.map_eq_some_iff.1 h
  obtain ⟨s, hs, first⟩ := exists_descend_of_findPath? hp 0
  exact ⟨s, subtreeAt_eq_ok.2 hs, first⟩

/-- Looking for the identity of a node leads to some node with this identity. -/
theorem exists_find? {t s : DerivationTree} (h : s ∈ t.preorder) :
    ∃ p r, t.find? s.id = some p ∧ t.subtreeAt p = .ok r ∧ r.id = s.id := by
  cases hp : t.find? s.id with
  | none => exact absurd (Option.map_eq_none_iff.1 hp) (findPath?_ne_none h (by simp [id]))
  | some p =>
    obtain ⟨r, hr, first⟩ := get?_of_find? hp
    exact ⟨p, r, rfl, hr, by simpa using List.find?_some first⟩

/-- When all identities differ it leads to the node itself. -/
theorem exists_find?_self {t s : DerivationTree} (distinct : t.ids.Nodup) (h : s ∈ t.preorder) :
    ∃ p, t.find? s.id = some p ∧ t.subtreeAt p = .ok s := by
  obtain ⟨p, r, hp, hr, hid⟩ := exists_find? h
  obtain ⟨path, hs⟩ := exists_descend_of_mem_preorder h 0
  have same : path = p.toList := descend_injective distinct hs (subtreeAt_eq_ok.1 hr) hid.symm
  exact ⟨p, hp, subtreeAt_eq_ok.2 (same ▸ hs)⟩

/-! ### Replacement -/

theorem mem_preorder_of_replaceAt {t x t' : DerivationTree} {p : Path}
    (h : t.replaceAt p x = .ok t') : x ∈ t'.preorder :=
  mem_preorder_of_descend (descend_of_replace (replaceAt_eq_ok.1 h))

/-- A replacement takes away the identities of one subtree and brings in those of the other. -/
theorem ids_perm_of_replaceAt {t s x t' : DerivationTree} {p : Path} (hs : t.subtreeAt p = .ok s)
    (hx : t.replaceAt p x = .ok t') : (t'.ids ++ s.ids).Perm (t.ids ++ x.ids) := by
  have labels := labels_perm_of_replace (subtreeAt_eq_ok.1 hs) (replaceAt_eq_ok.1 hx)
  simpa only [List.map_append, ← ids_eq_map_label] using labels.map Node.id

theorem mem_ids_of_replaceAt {t s x t' : DerivationTree} {p : Path} {i : NodeId}
    (hs : t.subtreeAt p = .ok s) (hx : t.replaceAt p x = .ok t') (hi : i ∈ t.ids)
    (kept : i ∈ s.ids → i ∈ x.ids) : i ∈ t'.ids := by
  have all : i ∈ t'.ids ++ s.ids :=
    (ids_perm_of_replaceAt hs hx).symm.subset (List.mem_append_left _ hi)
  obtain h | h := List.mem_append.1 all
  · exact h
  · exact ids_subset_of_mem_preorder (mem_preorder_of_replaceAt hx) (kept h)

theorem symbol_of_replaceAt {t s x t' : DerivationTree} {p : Path} (hs : t.subtreeAt p = .ok s)
    (hx : t.replaceAt p x = .ok t') (h : x.symbol = s.symbol) : t'.symbol = t.symbol :=
  replace_induct (motive := fun t t' : DerivationTree => t'.symbol = t.symbol)
    (subtreeAt_eq_ok.1 hs) (replaceAt_eq_ok.1 hx) h fun _ _ _ _ _ _ => rfl

/-! ### Fresh identities -/

/-- All identities of the tree were issued from `first` on and before `last`. -/
def Issued (first last : NodeId) (t : DerivationTree) : Prop :=
  ∀ i ∈ t.ids, first ≤ i ∧ i < last

theorem Issued.mono {first last first' last' : NodeId} {t : DerivationTree}
    (h : Issued first last t) (hf : first' ≤ first) (hl : last ≤ last') : Issued first' last' t :=
  fun i hi => ⟨Nat.le_trans hf (h i hi).1, Nat.lt_of_lt_of_le (h i hi).2 hl⟩

theorem Issued.id {first last : NodeId} {t : DerivationTree} (h : Issued first last t) :
    first ≤ t.id ∧ t.id < last :=
  h t.id (id_mem_ids (self_mem_preorder t))

@[simp] theorem instantiate_hole (s : Symbol) (next : NodeId) :
    instantiate (hole s) next = (hole ⟨next, s⟩, next + 1) := rfl

@[simp] theorem instantiate_node (s : Symbol) (qs : List ParseTree) (next : NodeId) :
    instantiate (node s qs) next =
      (node ⟨(instantiateAll qs next).2, s⟩ (instantiateAll qs next).1,
        (instantiateAll qs next).2 + 1) := rfl

@[simp] theorem instantiateAll_cons (q : ParseTree) (qs : List ParseTree) (next : NodeId) :
    instantiateAll (q :: qs) next =
      ((instantiate q next).1 :: (instantiateAll qs (instantiate q next).2).1,
        (instantiateAll qs (instantiate q next).2).2) := rfl

theorem shape_instantiate (q : ParseTree) (next : NodeId) : (instantiate q next).1.shape = q := by
  induction q using Tree.inductionOn generalizing next with
  | hole s => rfl
  | node s qs ih =>
    have shapes : ∀ n, (instantiateAll qs n).1.map shape = qs := by
      clear next
      induction qs with
      | nil => intro n; rfl
      | cons q qs ihq =>
        intro n
        rw [instantiateAll_cons, List.map_cons, ih q List.mem_cons_self,
          ihq fun c hc => ih c (List.mem_cons_of_mem _ hc)]
    rw [instantiate_node, shape_node, shapes]

theorem instantiate_next (q : ParseTree) (next : NodeId) :
    (instantiate q next).2 = next + q.size := by
  induction q using Tree.inductionOn generalizing next with
  | hole s => rfl
  | node s qs ih =>
    have total : ∀ n, (instantiateAll qs n).2 = n + sizeAll qs := by
      clear next
      induction qs with
      | nil => intro n; rfl
      | cons q qs ihq =>
        intro n
        rw [instantiateAll_cons, ihq fun c hc => ih c (List.mem_cons_of_mem _ hc),
          ih q List.mem_cons_self, sizeAll, Nat.add_assoc]
    rw [instantiate_node, total, size, Nat.add_assoc]

/-- The identities of the tree are the next free ones, each used once. -/
theorem ids_instantiate_perm (q : ParseTree) (next : NodeId) :
    (instantiate q next).1.ids.Perm (List.range' next q.size) := by
  induction q using Tree.inductionOn generalizing next with
  | hole s => exact .refl _
  | node s qs ih =>
    have all : ∀ n, ((instantiateAll qs n).1.flatMap ids).Perm (List.range' n (sizeAll qs)) ∧
        (instantiateAll qs n).2 = n + sizeAll qs := by
      clear next
      induction qs with
      | nil => intro n; exact ⟨.refl _, rfl⟩
      | cons q qs ihq =>
        intro n
        obtain ⟨rest, next⟩ := ihq (fun c hc => ih c (List.mem_cons_of_mem _ hc)) (n + q.size)
        rw [instantiateAll_cons, instantiate_next, sizeAll, ← List.range'_append_1, next,
          Nat.add_assoc]
        exact ⟨(ih q List.mem_cons_self n).append rest, rfl⟩
    obtain ⟨below, next⟩ := all next
    rw [instantiate_node, ids_eq_cons, size, List.range'_concat]
    simpa [id, next] using (below.cons _).trans (List.perm_append_singleton _ _).symm

theorem issued_instantiate (q : ParseTree) (next : NodeId) :
    Issued next (instantiate q next).2 (instantiate q next).1 := by
  intro i hi
  rw [instantiate_next]
  simpa [List.mem_range'_1] using (ids_instantiate_perm q next).subset hi

end Scion.Tree
