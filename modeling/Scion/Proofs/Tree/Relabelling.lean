import Scion.Derivation.Yield
import Scion.Proofs.Tree.Identity

/-!
Trees under other labels. Addressing, replacing and finding are the same in a tree and in the tree
with other labels, as long as a test cannot tell the labels apart. Two trees of one shape differ by
a renaming of their identities, on which their texts do not depend. The view of a tree forgets its
identities but for one, and so it decides which node is found under this identity.
-/

namespace Scion.Tree

variable {α β γ : Type}

@[simp] theorem map_hole (f : α → β) (a : α) : (hole a).map f = hole (f a) := rfl

@[simp] theorem map_node (f : α → β) (a : α) (cs : List (Tree α)) :
    (node a cs).map f = node (f a) (cs.map (map f)) := by
  rw [map, mapAll_eq_map]

@[simp] theorem label_map (f : α → β) (t : Tree α) : (t.map f).label = f t.label := by
  cases t <;> rfl

@[simp] theorem children_map (f : α → β) (t : Tree α) :
    (t.map f).children = t.children.map (map f) := by
  cases t <;> simp

@[simp] theorem isOpen_map (f : α → β) (t : Tree α) : (t.map f).isOpen = t.isOpen := by
  cases t <;> rfl

theorem map_map (g : β → γ) (f : α → β) (t : Tree α) : (t.map f).map g = t.map (g ∘ f) := by
  induction t using Tree.inductionOn with
  | hole a => rfl
  | node a cs ih =>
    rw [map_node, map_node, map_node, List.map_map]
    exact congrArg _ (List.map_congr_left ih)

theorem map_congr {f g : α → β} {t : Tree α} (h : ∀ s ∈ t.preorder, f s.label = g s.label) :
    t.map f = t.map g := by
  induction t using Tree.inductionOn with
  | hole a => exact congrArg hole (h _ (self_mem_preorder _))
  | node a cs ih =>
    rw [map_node, map_node]
    congr 1
    · exact h _ (self_mem_preorder _)
    · exact List.map_congr_left fun c hc => ih c hc fun s hs =>
        h s (mem_preorder_iff.2 (.inr ⟨c, hc, hs⟩))

theorem preorder_map (f : α → β) (t : Tree α) : (t.map f).preorder = t.preorder.map (map f) := by
  induction t using Tree.inductionOn with
  | hole a => rfl
  | node a cs ih =>
    rw [preorder_eq_cons, preorder_eq_cons (node a cs), List.map_cons, children_map,
      List.flatMap_map, List.map_flatMap]
    exact congrArg _ (List.flatMap_congr ih)

@[simp] theorem size_map (f : α → β) (t : Tree α) : (t.map f).size = t.size := by
  rw [← length_preorder, preorder_map, List.length_map, length_preorder]

theorem descend_map {f : α → β} {t s : Tree α} {depth : Nat} {path : List Nat}
    (h : t.descend depth path = .ok s) : (t.map f).descend depth path = .ok (s.map f) := by
  induction path generalizing t depth with
  | nil =>
    cases h
    rfl
  | cons i path ih =>
    obtain ⟨c, hc, hs⟩ := descend_cons_ok.1 h
    exact descend_cons_ok.2 ⟨c.map f, by simp [hc], ih hs⟩

theorem replace_map {f : α → β} {t x t' : Tree α} {depth : Nat} {path : List Nat}
    (h : t.replace depth path x = .ok t') :
    (t.map f).replace depth path (x.map f) = .ok (t'.map f) := by
  induction path generalizing t depth t' with
  | nil =>
    cases h
    rfl
  | cons i path ih =>
    obtain ⟨c, c', hc, hx, rfl⟩ := replace_cons_ok.1 h
    exact replace_cons_ok.2 ⟨c.map f, c'.map f, by simp [hc], ih hx, by simp [List.map_set]⟩

/-- A node is found at the same place under other labels when the tests agree on all nodes. -/
theorem findPath?_map {f : α → β} {test : α → Bool} {test' : β → Bool} {t : Tree α}
    (h : ∀ s ∈ t.preorder, test' (f s.label) = test s.label) :
    (t.map f).findPath? test' = t.findPath? test := by
  induction t using Tree.inductionOn with
  | hole a =>
    have here : test' (f a) = test a := h _ (self_mem_preorder _)
    rw [map_hole, findPath?, findPath?, here]
  | node a cs ih =>
    have here : test' (f a) = test a := h _ (self_mem_preorder _)
    have below : ∀ ds ⊆ cs, ∀ k,
        findPathAmong? test' k (ds.map (map f)) = findPathAmong? test k ds := by
      intro ds
      induction ds with
      | nil => exact fun _ _ => rfl
      | cons d ds ihd =>
        intro sub k
        have first := ih d (sub List.mem_cons_self) fun s hs =>
          h s (mem_preorder_iff.2 (.inr ⟨d, sub List.mem_cons_self, hs⟩))
        rw [List.map_cons, findPathAmong?, findPathAmong?, first,
          ihd fun _ hd => sub (List.mem_cons_of_mem _ hd)]
    rw [map_node, findPath?, findPath?, here, below cs (List.Subset.refl cs)]

/-! ### Shapes -/

theorem render_congr (showOpen : Bool) {t u : DerivationTree} (h : t.shape = u.shape) :
    t.render showOpen = u.render showOpen := by
  induction t using Tree.inductionOn generalizing u with
  | hole n =>
    cases u with
    | hole m =>
      rw [shape_hole, shape_hole] at h
      rw [render, render, hole.inj h]
    | node m ds => simp at h
  | node n cs ih =>
    cases u with
    | hole m => simp at h
    | node m ds =>
      rw [shape_node, shape_node] at h
      obtain ⟨symbol, shapes⟩ := node.inj h
      have below : renderAll showOpen cs = renderAll showOpen ds := by
        clear h
        induction cs generalizing ds with
        | nil =>
          rw [List.map_eq_nil_iff.1 shapes.symm]
        | cons c cs ihc =>
          obtain ⟨d, ds, rfl, hd, hds⟩ := List.map_eq_cons_iff.1 shapes.symm
          rw [renderAll, renderAll, ih c List.mem_cons_self hd.symm,
            ihc (fun c hc => ih c (List.mem_cons_of_mem _ hc)) _ hds.symm]
      have empty : cs.isEmpty = ds.isEmpty := by
        rw [← List.isEmpty_map (f := shape), shapes, List.isEmpty_map]
      rw [render, render, below, empty, symbol]

theorem text_congr {t u : DerivationTree} (h : t.shape = u.shape) : t.text = u.text :=
  render_congr false h

theorem shape_replaceAt {t x t' : DerivationTree} {p : Path} (h : t.replaceAt p x = .ok t') :
    t.shape.replace 0 p.toList x.shape = .ok t'.shape :=
  replace_map (replaceAt_eq_ok.1 h)

theorem symbol_congr {t u : DerivationTree} (h : t.shape = u.shape) : t.symbol = u.symbol := by
  rw [← label_shape, h, label_shape]

/-! ### Renaming -/

/-- The same tree with other identities. -/
def rename (f : NodeId → NodeId) (t : DerivationTree) : DerivationTree :=
  t.map fun n => ⟨f n.id, n.symbol⟩

variable {f g : NodeId → NodeId} {t u n : DerivationTree}

@[simp] theorem id_rename : (t.rename f).id = f t.id := by
  simp [rename, id]

@[simp] theorem symbol_rename : (t.rename f).symbol = t.symbol := by
  simp [rename, symbol]

@[simp] theorem isOpen_rename : (t.rename f).isOpen = t.isOpen := isOpen_map ..

@[simp] theorem children_rename : (t.rename f).children = t.children.map (rename f) :=
  children_map ..

@[simp] theorem shape_rename : (t.rename f).shape = t.shape := map_map ..

theorem ids_rename : (t.rename f).ids = t.ids.map f := by
  rw [ids, rename, preorder_map, ids, List.map_map, List.map_map]
  exact List.map_congr_left fun _ _ => id_rename

theorem rename_congr (h : ∀ i ∈ t.ids, f i = g i) : t.rename f = t.rename g := by
  refine map_congr fun s hs => ?_
  rw [h s.label.id (id_mem_ids hs)]

theorem rename_self (t : DerivationTree) : t.rename (fun i => i) = t := by
  induction t using Tree.inductionOn with
  | hole n => rfl
  | node n cs ih =>
    rw [rename, map_node]
    exact congrArg (node n) ((List.map_congr_left ih).trans (List.map_id' cs))

theorem map_rename_self (ts : List DerivationTree) : ts.map (rename fun i => i) = ts :=
  (List.map_congr_left fun t _ => t.rename_self).trans (List.map_id' ts)

theorem find?_rename {i : NodeId} (inj : ∀ j ∈ t.ids, f j = f i → j = i) :
    (t.rename f).find? (f i) = t.find? i := by
  rw [find?, find?, rename, findPath?_map fun s hs => ?_]
  have apart := inj s.id (id_mem_ids hs)
  exact Bool.eq_iff_iff.2 (by simpa using ⟨apart, fun h => h ▸ rfl⟩)

/-- Trees of one shape differ by a renaming, when no identity occurs twice in the first. -/
theorem exists_rename (h : t.shape = u.shape) (distinct : t.ids.Nodup) : ∃ f, u = t.rename f := by
  induction t using Tree.inductionOn generalizing u with
  | hole n =>
    cases u with
    | hole m =>
      refine ⟨fun _ => m.id, ?_⟩
      rw [rename, map_hole, hole.inj h]
    | node m ds => simp at h
  | node n cs ih =>
    cases u with
    | hole m => simp at h
    | node m ds =>
      rw [shape_node, shape_node] at h
      obtain ⟨symbol, shapes⟩ := node.inj h
      rw [ids_eq_cons, children_node, List.nodup_cons] at distinct
      obtain ⟨root, below⟩ := distinct
      -- The renamings of the children work side by side, for no two share an identity.
      have together : ∃ f, ds = cs.map (rename f) := by
        clear h root
        induction cs generalizing ds with
        | nil => exact ⟨fun i => i, List.map_eq_nil_iff.1 shapes.symm⟩
        | cons c cs ihc =>
          obtain ⟨d, ds, rfl, hd, hds⟩ := List.map_eq_cons_iff.1 shapes.symm
          rw [List.flatMap_cons, List.nodup_append] at below
          obtain ⟨inner, outer, apart⟩ := below
          obtain ⟨f, hf⟩ := ih c List.mem_cons_self hd.symm inner
          obtain ⟨g, hg⟩ :=
            ihc (fun c hc => ih c (List.mem_cons_of_mem _ hc)) ds hds.symm outer
          refine ⟨fun i => if i ∈ c.ids then f i else g i, ?_⟩
          rw [List.map_cons, hf, hg]
          congr 1
          · exact rename_congr fun i hi => (if_pos hi).symm
          · refine List.map_congr_left fun c' hc' => rename_congr fun i hi => (if_neg ?_).symm
            exact fun hic => apart i hic i (List.mem_flatMap.2 ⟨c', hc', hi⟩) rfl
      obtain ⟨f, rfl⟩ := together
      refine ⟨fun i => if i = n.id then m.id else f i, ?_⟩
      rw [rename, map_node]
      congr 1
      · rw [if_pos rfl, symbol]
      · refine List.map_congr_left fun c hc => ?_
        refine rename_congr (g := fun i => if i = n.id then m.id else f i) fun i hi =>
          (if_neg ?_).symm
        rintro rfl
        exact root (List.mem_flatMap.2 ⟨c, hc, hi⟩)

/-! ### Views -/

/-- The tree without its identities, where the nodes with the reference's are marked. -/
def view (reference? : Option NodeId) (t : DerivationTree) : Tree (Symbol × Bool) :=
  t.map fun n => (n.symbol, decide (reference? = some n.id))

variable {reference? reference?' : Option NodeId}

theorem view_node (n : Node) (cs : List DerivationTree) :
    (node n cs).view reference? =
      node (n.symbol, decide (reference? = some n.id)) (cs.map (view reference?)) :=
  map_node ..

theorem shape_eq_of_view (h : t.view reference? = u.view reference?') : t.shape = u.shape := by
  have shapes (r? : Option NodeId) (t : DerivationTree) : (t.view r?).map Prod.fst = t.shape :=
    map_map ..
  rw [← shapes reference? t, h, shapes]

theorem view_of_not_mem (h : ∀ i ∈ reference?, i ∉ t.ids) :
    t.view reference? = t.shape.map fun s => (s, false) := by
  rw [shape, map_map]
  refine map_congr fun s hs => Prod.ext rfl ?_
  exact decide_eq_false fun same => h s.id same (id_mem_ids hs)

theorem view_eq_of_shape (h : t.shape = u.shape) (ht : ∀ i ∈ reference?, i ∉ t.ids)
    (hu : ∀ i ∈ reference?', i ∉ u.ids) : t.view reference? = u.view reference?' := by
  rw [view_of_not_mem ht, view_of_not_mem hu, h]

theorem view_rename (inj : ∀ r ∈ reference?, ∀ i ∈ t.ids, f r = f i → r = i) :
    (t.rename f).view (reference?.map f) = t.view reference? := by
  rw [view, rename, map_map]
  refine map_congr fun s hs => Prod.ext rfl ?_
  cases reference? with
  | none => rfl
  | some r =>
    have apart := inj r rfl s.id (id_mem_ids hs)
    simpa using ⟨apart, fun h => h ▸ rfl⟩

theorem view_replaceAt {t x t' u y u' : DerivationTree} {p : Path}
    (targets : t.view reference? = u.view reference?')
    (replacements : x.view reference? = y.view reference?') (ht : t.replaceAt p x = .ok t')
    (hu : u.replaceAt p y = .ok u') : t'.view reference? = u'.view reference?' := by
  have left := replace_map (f := fun n => (n.symbol, decide (reference? = some n.id)))
    (replaceAt_eq_ok.1 ht)
  have right := replace_map (f := fun n => (n.symbol, decide (reference?' = some n.id)))
    (replaceAt_eq_ok.1 hu)
  rw [← view, ← view, ← view] at left right
  rw [targets, replacements, right] at left
  exact (Except.ok.inj left).symm

/-- The node under the reference's identity is the first one that is marked. -/
theorem view_get? (t : DerivationTree) (i : NodeId) :
    (t.get? i).map (view (some i)) = (t.view (some i)).preorder.find? fun s => s.label.2 := by
  rw [view, preorder_map, List.find?_map, get?]
  congr 2
  funext s
  have marked : (s.view (some i)).label.2 = decide (some i = some s.id) := by
    rw [view, label_map]
    rfl
  rw [Function.comp_apply, ← view, marked]
  exact Bool.eq_iff_iff.2 (by simpa using ⟨Eq.symm, Eq.symm⟩)

end Scion.Tree
