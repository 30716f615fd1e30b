import Scion.Derivation.Yield
import Scion.Proofs.Tree.Identity

/-!
Where the text of a subtree stands. Nodes with children contribute nothing of their own, so the text
of a tree is the text left of an address, that of the subtree there, and the text right of it; when
the subtree is exchanged, the two sides stay as they are.
-/

namespace Scion.Tree

theorem render_of_children {t : DerivationTree} (showOpen : Bool) (h : t.children ≠ []) :
    t.render showOpen = renderAll showOpen t.children := by
  cases t with
  | hole n => simp at h
  | node n cs =>
    have inner : cs.isEmpty = false := by simpa using h
    rw [render, inner]
    rfl

/-- The texts before and after a child. -/
theorem renderAll_around (showOpen : Bool) {cs : List DerivationTree} {i : Nat} {c : DerivationTree}
    (h : cs[i]? = some c) :
    renderAll showOpen cs = renderAll showOpen (cs.take i) ++ c.render showOpen ++
      renderAll showOpen (cs.drop (i + 1)) := by
  obtain ⟨hi, rfl⟩ := List.getElem?_eq_some_iff.1 h
  have split : cs = cs.take i ++ cs[i] :: cs.drop (i + 1) := by simp
  nth_rewrite 1 [split]
  rw [renderAll_append, renderAll, String.append_assoc]

/-- The text left of an address. -/
def renderBefore (showOpen : Bool) (t : DerivationTree) : List Nat → String
  | [] => ""
  | i :: path =>
    renderAll showOpen (t.children.take i) ++
      (t.children[i]?.elim "" fun c => c.renderBefore showOpen path)

/-- The text right of an address. -/
def renderAfter (showOpen : Bool) (t : DerivationTree) : List Nat → String
  | [] => ""
  | i :: path =>
    (t.children[i]?.elim "" fun c => c.renderAfter showOpen path) ++
      renderAll showOpen (t.children.drop (i + 1))

section

variable {showOpen : Bool} {t s c x t' : DerivationTree} {depth i : Nat} {p q path : List Nat}

theorem renderBefore_cons (h : t.children[i]? = some c) :
    t.renderBefore showOpen (i :: path) =
      renderAll showOpen (t.children.take i) ++ c.renderBefore showOpen path := by
  rw [renderBefore, h]
  rfl

theorem renderAfter_cons (h : t.children[i]? = some c) :
    t.renderAfter showOpen (i :: path) =
      c.renderAfter showOpen path ++ renderAll showOpen (t.children.drop (i + 1)) := by
  rw [renderAfter, h]
  rfl

theorem render_of_descend (h : t.descend depth path = .ok s) :
    t.render showOpen =
      t.renderBefore showOpen path ++ s.render showOpen ++ t.renderAfter showOpen path := by
  induction path generalizing t depth with
  | nil =>
    cases h
    simp [renderBefore, renderAfter]
  | cons i path ih =>
    obtain ⟨c, hc, hs⟩ := descend_cons_ok.1 h
    rw [render_of_children showOpen (List.ne_nil_of_mem (List.mem_of_getElem? hc)),
      renderAll_around showOpen hc, ih hs, renderBefore_cons hc, renderAfter_cons hc]
    simp only [String.append_assoc]

/-- A replacement leaves the text on both sides of its address as it is. -/
theorem render_of_replace (h : t.replace depth path x = .ok t') :
    t'.render showOpen =
      t.renderBefore showOpen path ++ x.render showOpen ++ t.renderAfter showOpen path := by
  induction path generalizing t depth t' with
  | nil =>
    cases h
    simp [renderBefore, renderAfter]
  | cons i path ih =>
    obtain ⟨c, c', hc, hx, rfl⟩ := replace_cons_ok.1 h
    obtain ⟨hi, -⟩ := List.getElem?_eq_some_iff.1 hc
    have new : (t.children.set i c')[i]? = some c' := by simp [hi]
    have inner : (node t.label (t.children.set i c')).children ≠ [] :=
      List.ne_nil_of_mem (List.mem_of_getElem? new)
    rw [render_of_children showOpen inner, children_node, renderAll_around showOpen new, ih hx,
      List.take_set_of_le (Nat.le_refl i), List.drop_set_of_lt (Nat.lt_succ_self i),
      renderBefore_cons hc, renderAfter_cons hc]
    simp only [String.append_assoc]

theorem infix_renderAll {showOpen : Bool} {c : DerivationTree} {cs : List DerivationTree}
    (h : c ∈ cs) : (c.render showOpen).toList <:+: (renderAll showOpen cs).toList := by
  obtain ⟨i, hi⟩ := List.mem_iff_getElem?.1 h
  rw [renderAll_around showOpen hi, String.toList_append, String.toList_append]
  exact List.infix_append ..

/-- A subtree right of an address has its text there. -/
theorem infix_renderAfter (right : Path.leftOf p q) (hp : t.descend depth p = .ok s)
    (hq : t.descend depth q = .ok x) :
    (x.render showOpen).toList <:+: (t.renderAfter showOpen p).toList := by
  induction p generalizing t depth q with
  | nil => simp [Path.leftOf] at right
  | cons i p ih =>
    cases q with
    | nil => simp [Path.leftOf] at right
    | cons j q =>
      obtain ⟨c, hc, hs⟩ := descend_cons_ok.1 hp
      obtain ⟨d, hd, hx⟩ := descend_cons_ok.1 hq
      rw [renderAfter_cons hc, String.toList_append]
      rw [Path.leftOf] at right
      split at right
      · rename_i same
        obtain rfl : c = d := Option.some.inj (hc.symm.trans (same ▸ hd))
        exact (ih right hs hx).trans (List.prefix_append ..).isInfix
      · have behind : i + 1 ≤ j := of_decide_eq_true right
        have inside : d ∈ t.children.drop (i + 1) :=
          List.mem_iff_getElem?.2 ⟨j - (i + 1), by
            rw [List.getElem?_drop, Nat.add_sub_of_le behind, hd]⟩
        have within : (x.render showOpen).toList <:+: (d.render showOpen).toList := by
          rw [render_of_descend hx, String.toList_append, String.toList_append]
          exact List.infix_append ..
        exact (within.trans (infix_renderAll inside)).trans (List.suffix_append ..).isInfix

end

/-- An exchange of a subtree keeps the text on both sides of it. -/
theorem render_around (showOpen : Bool) {t s : DerivationTree} {p : Path}
    (h : t.subtreeAt p = .ok s) :
    ∃ before after, t.render showOpen = before ++ s.render showOpen ++ after ∧
      ∀ x t', t.replaceAt p x = .ok t' →
        t'.render showOpen = before ++ x.render showOpen ++ after := by
  refine ⟨_, _, render_of_descend (subtreeAt_eq_ok.1 h), fun x t' hx => ?_⟩
  exact render_of_replace (replaceAt_eq_ok.1 hx)

/-! ### The text of a child -/

theorem infix_render_of_mem {showOpen : Bool} {c t : DerivationTree} (h : c ∈ t.children) :
    (c.render showOpen).toList <:+: (t.render showOpen).toList := by
  rw [render_of_children showOpen (List.ne_nil_of_mem h)]
  exact infix_renderAll h

/-- Of two different children, one has its text before or after that of the other. -/
theorem renderAll_beside (showOpen : Bool) {cs : List DerivationTree} {i j : Nat}
    {c d : DerivationTree} (differ : i ≠ j) (hc : cs[i]? = some c) (hd : cs[j]? = some d) :
    ∃ before after, renderAll showOpen cs = before ++ c.render showOpen ++ after ∧
      ((d.render showOpen).toList <:+: before.toList ∨
        (d.render showOpen).toList <:+: after.toList) := by
  refine ⟨_, _, renderAll_around showOpen hc, ?_⟩
  obtain left | right := Nat.lt_or_gt_of_ne differ
  · refine .inr (infix_renderAll (List.mem_iff_getElem?.2 ⟨j - (i + 1), ?_⟩))
    rw [List.getElem?_drop, Nat.add_sub_of_le left, hd]
  · refine .inl (infix_renderAll (List.mem_iff_getElem?.2 ⟨j, ?_⟩))
    rw [List.getElem?_take_of_lt right, hd]

end Scion.Tree
