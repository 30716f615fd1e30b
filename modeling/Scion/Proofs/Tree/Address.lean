import Mathlib.Data.List.Nodup
import Mathlib.Data.List.Perm.Basic
import Scion.Tree.Address
import Scion.Tree.Traversal

/-!
Subtrees, their addresses and their replacement. The subtrees of a tree are those that a descent
reaches. Whatever a replacement does to a tree follows from what it does at the address and from one
step above it, which `replace_induct` packages. The first node that passes a test is found at an
address, which leads to the first such node in preorder, and an address is known by the key of its
node when all keys differ.
-/

namespace Scion.Tree

variable {α β : Type}

theorem preorder_eq_cons (t : Tree α) : t.preorder = t :: t.children.flatMap preorder := by
  cases t with
  | hole a => rfl
  | node a cs => rw [preorder, preorderAll_eq_flatMap]; rfl

theorem mem_preorder_iff {s t : Tree α} :
    s ∈ t.preorder ↔ s = t ∨ ∃ c ∈ t.children, s ∈ c.preorder := by
  rw [preorder_eq_cons, List.mem_cons, List.mem_flatMap]

theorem mem_preorder_of_mem_children {c t : Tree α} (h : c ∈ t.children) : c ∈ t.preorder :=
  mem_preorder_iff.2 (.inr ⟨c, h, self_mem_preorder c⟩)

/-- What holds of a tree and passes from a child to its parent holds of every tree around it. -/
theorem induct_above {motive : Tree α → Prop} {s t : Tree α} (h : s ∈ t.preorder)
    (here : motive s)
    (above : ∀ t c, c ∈ t.children → s ∈ c.preorder → motive c → motive t) : motive t := by
  induction t using Tree.inductionOn with
  | hole a =>
    obtain rfl : s = hole a := List.mem_singleton.1 h
    exact here
  | node a cs ih =>
    obtain rfl | ⟨c, hc, hs⟩ := mem_preorder_iff.1 h
    · exact here
    · exact above _ c hc hs (ih c hc hs)

theorem preorder_sublist {s t : Tree α} (h : s ∈ t.preorder) :
    s.preorder.Sublist t.preorder := by
  refine induct_above (motive := fun t => s.preorder.Sublist t.preorder) h (.refl _)
    fun t c hc _ ih => ?_
  have below : c.preorder.Sublist (t.children.flatMap preorder) :=
    List.sublist_flatten_of_mem (List.mem_map_of_mem hc)
  rw [preorder_eq_cons t]
  exact (ih.trans below).cons t

theorem mem_preorder_trans {r s t : Tree α} (hr : r ∈ s.preorder) (hs : s ∈ t.preorder) :
    r ∈ t.preorder :=
  (preorder_sublist hs).subset hr

theorem length_preorder (t : Tree α) : t.preorder.length = t.size := by
  induction t using Tree.inductionOn with
  | hole a => rfl
  | node a cs ih =>
    have total : ∀ ds : List (Tree α), (∀ d ∈ ds, d.preorder.length = d.size) →
        (ds.flatMap preorder).length = sizeAll ds := by
      intro ds h
      induction ds with
      | nil => rfl
      | cons d ds ihd => simp_all [sizeAll]
    rw [preorder_eq_cons, List.length_cons, children_node, total cs ih, size]

theorem length_le_flatMap_preorder (ts : List (Tree α)) :
    ts.length ≤ (ts.flatMap preorder).length := by
  induction ts with
  | nil => simp
  | cons t ts ih =>
    rw [List.flatMap_cons, preorder_eq_cons]
    simp only [List.length_cons, List.length_append]
    omega

/-! ### Descending -/

theorem descend_cons_ok {t s : Tree α} {depth i : Nat} {path : List Nat} :
    t.descend depth (i :: path) = .ok s ↔
      ∃ c, t.children[i]? = some c ∧ c.descend (depth + 1) path = .ok s := by
  match t with
  | hole a => simp [descend]
  | node a [] => simp [descend]
  | node a (c :: cs) =>
    simp only [descend, children_node]
    cases (c :: cs)[i]? <;> simp

theorem mem_preorder_of_descend {t s : Tree α} {depth : Nat} {path : List Nat}
    (h : t.descend depth path = .ok s) : s ∈ t.preorder := by
  induction path generalizing t depth with
  | nil => cases h; exact self_mem_preorder s
  | cons i path ih =>
    obtain ⟨c, hc, hs⟩ := descend_cons_ok.1 h
    exact mem_preorder_iff.2 (.inr ⟨c, List.mem_of_getElem? hc, ih hs⟩)

theorem exists_descend_of_mem_preorder {t s : Tree α} (h : s ∈ t.preorder) (depth : Nat) :
    ∃ path, t.descend depth path = .ok s := by
  refine induct_above (motive := fun t => ∀ depth, ∃ path, t.descend depth path = .ok s) h
    (fun _ => ⟨[], rfl⟩) (fun t c hc _ ih depth => ?_) depth
  obtain ⟨path, hp⟩ := ih (depth + 1)
  obtain ⟨i, hi⟩ := List.mem_iff_getElem?.1 hc
  exact ⟨i :: path, descend_cons_ok.2 ⟨c, hi, hp⟩⟩

theorem descend_append {t s r : Tree α} {depth : Nat} {p q : List Nat}
    (hp : t.descend depth p = .ok s) (hq : s.descend (depth + p.length) q = .ok r) :
    t.descend depth (p ++ q) = .ok r := by
  induction p generalizing t depth with
  | nil =>
    cases hp
    exact hq
  | cons i p ih =>
    obtain ⟨c, hc, hs⟩ := descend_cons_ok.1 hp
    rw [List.length_cons, Nat.add_comm p.length, ← Nat.add_assoc] at hq
    exact descend_cons_ok.2 ⟨c, hc, ih hs hq⟩

/-- Nodes with different keys are found at different addresses. -/
theorem descend_injective {t s s' : Tree α} {key : Tree α → β} {depth : Nat} {p q : List Nat}
    (keys : (t.preorder.map key).Nodup) (hp : t.descend depth p = .ok s)
    (hq : t.descend depth q = .ok s') (h : key s = key s') : p = q := by
  induction p generalizing t depth q with
  | nil =>
    cases hp
    cases q with
    | nil => rfl
    | cons j q =>
      obtain ⟨d, hd, hs⟩ := descend_cons_ok.1 hq
      rw [preorder_eq_cons, List.map_cons, List.nodup_cons] at keys
      have below : s' ∈ s.children.flatMap preorder :=
        List.mem_flatMap.2 ⟨d, List.mem_of_getElem? hd, mem_preorder_of_descend hs⟩
      exact absurd (h ▸ List.mem_map_of_mem below) keys.1
  | cons i p ih =>
    obtain ⟨c, hc, hs⟩ := descend_cons_ok.1 hp
    rw [preorder_eq_cons, List.map_cons, List.nodup_cons] at keys
    cases q with
    | nil =>
      cases hq
      have below : s ∈ s'.children.flatMap preorder :=
        List.mem_flatMap.2 ⟨c, List.mem_of_getElem? hc, mem_preorder_of_descend hs⟩
      exact absurd (h ▸ List.mem_map_of_mem below) keys.1
    | cons j q =>
      obtain ⟨d, hd, hs'⟩ := descend_cons_ok.1 hq
      obtain ⟨inner, outer⟩ := List.nodup_flatMap.1 (List.map_flatMap ▸ keys.2)
      -- Both nodes have the same key, so they cannot lie below different children.
      have apart : ¬ List.Disjoint (c.preorder.map key) (d.preorder.map key) := fun disjoint =>
        disjoint (List.mem_map_of_mem (mem_preorder_of_descend hs))
          (h ▸ List.mem_map_of_mem (mem_preorder_of_descend hs'))
      obtain ⟨hi, rfl⟩ := List.getElem?_eq_some_iff.1 hc
      obtain ⟨hj, rfl⟩ := List.getElem?_eq_some_iff.1 hd
      rcases Nat.lt_trichotomy i j with hij | rfl | hij
      · exact absurd (List.pairwise_iff_getElem.1 outer i j hi hj hij) apart
      · rw [ih (inner _ (List.getElem_mem hi)) hs hs']
      · exact absurd (List.disjoint_symm (List.pairwise_iff_getElem.1 outer j i hj hi hij)) apart

/-! ### Replacing -/

theorem replace_cons_ok {t t' x : Tree α} {depth i : Nat} {path : List Nat} :
    t.replace depth (i :: path) x = .ok t' ↔
      ∃ c c', t.children[i]? = some c ∧ c.replace (depth + 1) path x = .ok c' ∧
        t' = node t.label (t.children.set i c') := by
  match t with
  | hole a => simp [replace]
  | node a [] => simp [replace]
  | node a (c :: cs) =>
    simp only [replace, children_node, label_node]
    cases (c :: cs)[i]? with
    | none => simp
    | some next => cases hx : next.replace (depth + 1) path x <;> simp [Except.map, hx, eq_comm]

theorem exists_replace_of_descend {t s : Tree α} {depth : Nat} {path : List Nat}
    (h : t.descend depth path = .ok s) (x : Tree α) : ∃ t', t.replace depth path x = .ok t' := by
  cases hx : t.replace depth path x with
  | ok t' => exact ⟨t', rfl⟩
  | error o => simp [replace_eq_error_iff.1 hx] at h

/-- What relates a tree to its revision: it relates the two subtrees at the address, and it passes
from a child to its parent. -/
theorem replace_induct {motive : Tree α → Tree α → Prop} {t s x t' : Tree α} {depth : Nat}
    {path : List Nat} (hs : t.descend depth path = .ok s) (hx : t.replace depth path x = .ok t')
    (here : motive s x)
    (above : ∀ (t c c' : Tree α) (i : Nat), t.children[i]? = some c → motive c c' →
      motive t (node t.label (t.children.set i c'))) : motive t t' := by
  induction path generalizing t depth t' with
  | nil => cases hs; cases hx; exact here
  | cons i path ih =>
    obtain ⟨c, hc, hs⟩ := descend_cons_ok.1 hs
    obtain ⟨d, c', hd, hx, rfl⟩ := replace_cons_ok.1 hx
    obtain rfl : c = d := Option.some.inj (hc.symm.trans hd)
    exact above t c c' i hc (ih hs hx)

theorem descend_of_replace {t x t' : Tree α} {depth : Nat} {path : List Nat}
    (h : t.replace depth path x = .ok t') : t'.descend depth path = .ok x := by
  induction path generalizing t depth t' with
  | nil => cases h; rfl
  | cons i path ih =>
    obtain ⟨c, c', hc, hx, rfl⟩ := replace_cons_ok.1 h
    obtain ⟨hi, -⟩ := List.getElem?_eq_some_iff.1 hc
    exact descend_cons_ok.2 ⟨c', by simp [hi], ih hx⟩

/-- A replacement takes away the labels of one subtree and brings in those of the other. -/
theorem labels_perm_of_replace {t s x t' : Tree α} {depth : Nat} {path : List Nat}
    (hs : t.descend depth path = .ok s) (hx : t.replace depth path x = .ok t') :
    (t'.preorder.map label ++ s.preorder.map label).Perm
      (t.preorder.map label ++ x.preorder.map label) := by
  refine replace_induct
    (motive := fun t t' => (t'.preorder.map label ++ s.preorder.map label).Perm
      (t.preorder.map label ++ x.preorder.map label)) hs hx List.perm_append_comm ?_
  intro t c c' i hc ih
  obtain ⟨hi, rfl⟩ := List.getElem?_eq_some_iff.1 hc
  have split : t.children = t.children.take i ++ t.children[i] :: t.children.drop (i + 1) := by simp
  rw [preorder_eq_cons, preorder_eq_cons t]
  nth_rewrite 3 [split]
  simp only [children_node, label_node, List.set_eq_take_append_cons_drop, if_pos hi,
    List.flatMap_append, List.flatMap_cons, List.map_cons, List.map_append, List.cons_append,
    List.append_assoc]
  refine .cons _ (.append_left _ ?_)
  have swap (u v w : List α) : (u ++ (v ++ w)).Perm (u ++ w ++ v) := by
    rw [List.append_assoc]
    exact .append_left _ List.perm_append_comm
  exact (swap _ _ _).trans ((ih.append_right _).trans (swap _ _ _).symm)

/-! ### Finding -/

theorem findPathAmong?_eq_some {test : α → Bool} {k : Nat} {cs : List (Tree α)} {path : List Nat}
    (h : findPathAmong? test k cs = some path) :
    ∃ i rest c, path = (k + i) :: rest ∧ cs[i]? = some c ∧ c.findPath? test = some rest ∧
      ∀ d ∈ cs.take i, d.findPath? test = none := by
  induction cs generalizing k with
  | nil => simp [findPathAmong?] at h
  | cons c cs ih =>
    rw [findPathAmong?] at h
    split at h
    · rename_i rest hrest
      exact ⟨0, rest, c, (Option.some.inj h).symm, rfl, hrest, by simp⟩
    · rename_i hc
      obtain ⟨i, rest, d, rfl, hd, hrest, before⟩ := ih h
      refine ⟨i + 1, rest, d, by rw [Nat.add_assoc, Nat.add_comm 1], hd, hrest, ?_⟩
      rw [List.take_succ_cons]
      exact List.forall_mem_cons.2 ⟨hc, before⟩

theorem findPathAmong?_eq_none {test : α → Bool} {k : Nat} {cs : List (Tree α)}
    (h : findPathAmong? test k cs = none) : ∀ c ∈ cs, c.findPath? test = none := by
  induction cs generalizing k with
  | nil => simp
  | cons c cs ih =>
    rw [findPathAmong?] at h
    split at h
    · simp at h
    · rename_i hc
      exact List.forall_mem_cons.2 ⟨hc, ih h⟩

theorem findPath?_ne_none {test : α → Bool} {t s : Tree α} (hs : s ∈ t.preorder)
    (ht : test s.label) : t.findPath? test ≠ none := by
  refine induct_above (motive := fun t => t.findPath? test ≠ none) hs ?_ fun t c hc _ ih => ?_
  · cases s with
    | hole a => simpa [findPath?] using ht
    | node a cs =>
      have passes : test a := ht
      rw [findPath?, if_pos passes]
      simp
  · cases t with
    | hole a => simp at hc
    | node a cs =>
      rw [findPath?]
      split
      · simp
      · exact fun h => ih (findPathAmong?_eq_none h c hc)

/-- The first path to a node that passes a test leads to the first such node in preorder. -/
theorem exists_descend_of_findPath? {test : α → Bool} {t : Tree α} {path : List Nat}
    (h : t.findPath? test = some path) (depth : Nat) :
    ∃ s, t.descend depth path = .ok s ∧ t.preorder.find? (fun r => test r.label) = some s := by
  induction t using Tree.inductionOn generalizing path depth with
  | hole a =>
    rw [findPath?] at h
    split at h
    · rename_i ha
      cases h
      exact ⟨_, rfl, List.find?_cons_of_pos ha⟩
    · simp at h
  | node a cs ih =>
    rw [findPath?] at h
    rw [preorder_eq_cons]
    split at h
    · rename_i ha
      cases h
      exact ⟨_, rfl, List.find?_cons_of_pos ha⟩
    · rename_i ha
      obtain ⟨i, rest, c, rfl, hc, hrest, before⟩ := findPathAmong?_eq_some h
      obtain ⟨s, hs, first⟩ := ih c (List.mem_of_getElem? hc) hrest (depth + 1)
      refine ⟨s, descend_cons_ok.2 ⟨c, by simpa using hc, hs⟩, ?_⟩
      obtain ⟨hi, rfl⟩ := List.getElem?_eq_some_iff.1 hc
      have split : cs = cs.take i ++ cs[i] :: cs.drop (i + 1) := by simp
      have nothing : ((cs.take i).flatMap preorder).find? (fun r => test r.label) = none := by
        rw [List.find?_eq_none]
        intro r hr ht
        obtain ⟨d, hd, hr⟩ := List.mem_flatMap.1 hr
        exact findPath?_ne_none hr ht (before d hd)
      rw [List.find?_cons_of_neg (by simpa using ha), children_node, split, List.flatMap_append,
        List.flatMap_cons, List.find?_append, nothing, List.find?_append, first]
      rfl

end Scion.Tree
