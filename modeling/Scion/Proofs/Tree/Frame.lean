import Scion.Derivation.Revision
import Scion.Proofs.Tree.Lens
import Scion.Proofs.Tree.Relabelling
import Scion.Proofs.Tree.Yield

/-!
What a replacement leaves alone. Every node beside the address is the same node afterwards, and the
nodes above it keep their labels and their numbers of children. The identities of the revised tree
and its text are those of the replacement between two parts that do not depend on it, and
replacements at addresses beside each other can be made in either order.
-/

namespace Scion

/-- Neither of two addresses continues the other. -/
def Path.Beside (p q : List Nat) : Prop := Path.leftOf p q ∨ Path.leftOf q p

theorem Path.not_beside_nil {p : List Nat} : ¬ Beside [] p ∧ ¬ Beside p [] := by
  cases p <;> simp [Beside, leftOf]

theorem Path.beside_cons {i j : Nat} {p q : List Nat} :
    Beside (i :: p) (j :: q) ↔ i ≠ j ∨ i = j ∧ Beside p q := by
  by_cases h : i = j
  · simp [Beside, leftOf, h]
  · refine iff_of_true ?_ (.inl h)
    obtain before | after := Nat.lt_or_gt_of_ne h
    · exact .inl (by simp [leftOf, h, before])
    · exact .inr (by simp [leftOf, Ne.symm h, after])

theorem Path.beside_iff {p q : Path} : Beside p.toList q.toList ↔ q.isBefore p ∨ q.isAfter p := by
  rw [isAfter_eq, or_comm]
  rfl

namespace Tree

variable {α : Type} {t s x y t' : Tree α} {depth i : Nat} {p q path : List Nat}

/-! ### Beside the address -/

/-- Two trees agree beside an address when only one child differs and its two forms agree. -/
theorem descend_set {c c' : Tree α} (hc : t.children[i]? = some c)
    (children : t'.children = t.children.set i c') (beside : Path.Beside (i :: p) q)
    (inner : ∀ q, Path.Beside p q →
      (c'.descend (depth + 1) q = .ok s ↔ c.descend (depth + 1) q = .ok s)) :
    t'.descend depth q = .ok s ↔ t.descend depth q = .ok s := by
  cases q with
  | nil => exact absurd beside Path.not_beside_nil.2
  | cons j q =>
    obtain ⟨hi, -⟩ := List.getElem?_eq_some_iff.1 hc
    rw [descend_cons_ok, descend_cons_ok, children]
    obtain differ | ⟨rfl, deeper⟩ := Path.beside_cons.1 beside
    · rw [List.getElem?_set_ne differ]
    · rw [List.getElem?_set_self hi, hc]
      simp only [Option.some.injEq, exists_eq_left', inner q deeper]

theorem descend_beside (beside : Path.Beside p q) (h : t.replace depth p x = .ok t') :
    t'.descend depth q = .ok s ↔ t.descend depth q = .ok s := by
  induction p generalizing t depth q t' with
  | nil => exact absurd beside Path.not_beside_nil.1
  | cons i p ih =>
    obtain ⟨c, c', hc, replaced, rfl⟩ := replace_cons_ok.1 h
    exact descend_set hc rfl beside fun _ deeper => ih deeper replaced

theorem replace_comm {u : Tree α} (beside : Path.Beside p q) (hx : t.replace depth p x = .ok t')
    (hy : t.replace depth q y = .ok u) :
    ∃ v, t'.replace depth q y = .ok v ∧ u.replace depth p x = .ok v := by
  induction p generalizing t depth q t' u with
  | nil => exact absurd beside Path.not_beside_nil.1
  | cons i p ih =>
    cases q with
    | nil => exact absurd beside Path.not_beside_nil.2
    | cons j q =>
      obtain ⟨c, c', hc, left, rfl⟩ := replace_cons_ok.1 hx
      obtain ⟨d, d', hd, right, rfl⟩ := replace_cons_ok.1 hy
      obtain ⟨hi, -⟩ := List.getElem?_eq_some_iff.1 hc
      obtain ⟨hj, -⟩ := List.getElem?_eq_some_iff.1 hd
      obtain differ | ⟨rfl, deeper⟩ := Path.beside_cons.1 beside
      · refine ⟨node t.label ((t.children.set i c').set j d'), ?_, ?_⟩
        · exact replace_cons_ok.2 ⟨d, d', by simp [differ, hd], right, rfl⟩
        · refine replace_cons_ok.2 ⟨c, c', by simp [differ.symm, hc], left, ?_⟩
          rw [List.set_comm _ _ differ]
          rfl
      · obtain rfl : c = d := Option.some.inj (hc.symm.trans hd)
        obtain ⟨v, hv, hv'⟩ := ih deeper left right
        refine ⟨node t.label (t.children.set i v), ?_, ?_⟩
        · exact replace_cons_ok.2 ⟨c', v, by simp [hi], hv, by simp⟩
        · exact replace_cons_ok.2 ⟨d', v, by simp [hi], hv', by simp⟩

/-! ### Above the address -/

/-- Above the address the replacement takes place inside the subtree. -/
theorem descend_above (h : t.replace depth (q ++ path) x = .ok t') :
    ∃ s s', t.descend depth q = .ok s ∧ t'.descend depth q = .ok s' ∧
      s.replace (depth + q.length) path x = .ok s' := by
  induction q generalizing t depth t' with
  | nil => exact ⟨t, t', rfl, rfl, h⟩
  | cons j q ih =>
    obtain ⟨c, c', hc, replaced, rfl⟩ := replace_cons_ok.1 h
    obtain ⟨hj, -⟩ := List.getElem?_eq_some_iff.1 hc
    obtain ⟨s, s', hs, hs', inside⟩ := ih replaced
    refine ⟨s, s', descend_cons_ok.2 ⟨c, hc, hs⟩, descend_cons_ok.2 ⟨c', by simp [hj], hs'⟩, ?_⟩
    rwa [List.length_cons, Nat.add_comm q.length, ← Nat.add_assoc]

theorem label_of_replace_cons (h : t.replace depth (i :: path) x = .ok t') :
    t'.label = t.label ∧ t'.children.length = t.children.length := by
  obtain ⟨c, c', -, -, rfl⟩ := replace_cons_ok.1 h
  exact ⟨rfl, List.length_set⟩

/-! ### The whole traversal -/

theorem preorder_around (h : t.descend depth path = .ok s) :
    ∃ before after : List α, ∀ x t', t.replace depth path x = .ok t' →
      t'.preorder.map label = before ++ x.preorder.map label ++ after := by
  induction path generalizing t depth with
  | nil =>
    refine ⟨[], [], fun x t' hx => ?_⟩
    cases hx
    simp
  | cons i path ih =>
    obtain ⟨c, hc, hs⟩ := descend_cons_ok.1 h
    obtain ⟨before, after, split⟩ := ih hs
    refine ⟨t.label :: ((t.children.take i).flatMap preorder).map label ++ before,
      after ++ ((t.children.drop (i + 1)).flatMap preorder).map label, fun x t' hx => ?_⟩
    obtain ⟨d, d', hd, replaced, rfl⟩ := replace_cons_ok.1 hx
    obtain rfl : c = d := Option.some.inj (hc.symm.trans hd)
    obtain ⟨hi, -⟩ := List.getElem?_eq_some_iff.1 hc
    rw [preorder_eq_cons, children_node, List.set_eq_take_append_cons_drop, if_pos hi]
    simp only [List.map_cons, label_node, List.flatMap_append, List.flatMap_cons, List.map_append,
      split x d' replaced, List.cons_append, List.append_assoc]

/-- What is found in a tree under other labels is what is found in the tree itself. -/
theorem exists_descend_of_map {β : Type} {f : α → β} {r : Tree β}
    (h : (t.map f).descend depth path = .ok r) :
    ∃ s, t.descend depth path = .ok s ∧ s.map f = r := by
  induction path generalizing t depth with
  | nil =>
    cases h
    exact ⟨t, rfl, rfl⟩
  | cons i path ih =>
    obtain ⟨d, hd, hr⟩ := descend_cons_ok.1 h
    rw [children_map, List.getElem?_map] at hd
    obtain ⟨c, hc, rfl⟩ := Option.map_eq_some_iff.1 hd
    obtain ⟨s, hs, rfl⟩ := ih hr
    exact ⟨s, descend_cons_ok.2 ⟨c, hc, hs⟩, rfl⟩

end Tree

/-! ### Stamps -/

namespace RevisedTree

variable {t c s x : RevisedTree} {depth i next : Nat} {p q path : List Nat}

theorem children_restamp (h : t.children[i]? = some c) :
    (t.restamp next (i :: path)).children = t.children.set i (c.restamp (next + 1) path) := by
  cases t with
  | hole a => simp at h
  | node a cs =>
    rw [Tree.children_node] at h
    rw [restamp, Tree.children_node, h]
    rfl

theorem children_restamp_of_none (h : t.children[i]? = none) :
    (t.restamp next (i :: path)).children = t.children := by
  cases t with
  | hole a => rfl
  | node a cs =>
    rw [Tree.children_node] at h
    rw [restamp, Tree.children_node, h]
    rfl

theorem plain_restamp (t : RevisedTree) (next : Nat) (path : List Nat) :
    (t.restamp next path).plain = t.plain := by
  induction path generalizing t next with
  | nil => rfl
  | cons i path ih =>
    cases t with
    | hole a => rfl
    | node a cs =>
      rw [restamp, plain, Tree.map_node, plain, Tree.map_node]
      cases hc : cs[i]? with
      | none => rfl
      | some c =>
        obtain ⟨hi, rfl⟩ := List.getElem?_eq_some_iff.1 hc
        have same : Tree.map Stamped.node (restamp cs[i] (next + 1) path) =
            Tree.map Stamped.node cs[i] := ih cs[i] (next + 1)
        dsimp only
        rw [List.map_set, same, ← List.map_set, List.set_getElem_self]

/-- Only the nodes on the path get new stamps. -/
theorem descend_restamp (beside : Path.Beside p q) :
    (t.restamp next p).descend depth q = .ok s ↔ t.descend depth q = .ok s := by
  induction p generalizing t next depth q with
  | nil => exact absurd beside Path.not_beside_nil.1
  | cons i p ih =>
    cases hc : t.children[i]? with
    | some c => exact Tree.descend_set hc (children_restamp hc) beside fun _ deeper => ih deeper
    | none =>
      cases q with
      | nil => exact absurd beside Path.not_beside_nil.2
      | cons j q => rw [Tree.descend_cons_ok, Tree.descend_cons_ok, children_restamp_of_none hc]

theorem subtreeAt_eq_ok {p : Path} : t.subtreeAt p = .ok s ↔ t.descend 0 p.toList = .ok s := by
  rw [subtreeAt]
  cases t.descend 0 p.toList <;> simp

/-- A revision makes the nodes above the address anew; every node beside it is the node it was. -/
theorem replaceAt_beside {r : DerivationTree} {p : Path} (found : t.plain.subtreeAt p = .ok r)
    (x : RevisedTree) (next : Nat) :
    ∃ t' next', t.replaceAt p x next = .ok (t', next') ∧
      t.plain.replaceAt p x.plain = .ok t'.plain ∧
      ∀ q s, q.isBefore p ∨ q.isAfter p → (t'.subtreeAt q = .ok s ↔ t.subtreeAt q = .ok s) := by
  obtain ⟨s, hs, -⟩ := Tree.exists_descend_of_map (Tree.subtreeAt_eq_ok.1 found)
  obtain ⟨u, replaced⟩ := Tree.exists_replace_of_descend hs x
  refine ⟨restamp u next p.toList, next + p.length, by rw [replaceAt, replaced], ?_, ?_⟩
  · rw [plain_restamp]
    exact Tree.replaceAt_eq_ok.2 (Tree.replace_map replaced)
  · intro q s beside
    rw [← Path.beside_iff] at beside
    rw [subtreeAt_eq_ok, subtreeAt_eq_ok, descend_restamp beside,
      Tree.descend_beside beside replaced]

end RevisedTree

namespace Tree

/-! ### Frames -/

theorem above_of_replaceAt {t x t' : DerivationTree} {p q : Path} (h : t.replaceAt p x = .ok t')
    (above : q.isAncestor p) (proper : q ≠ p) :
    ∃ u u', t.subtreeAt q = .ok u ∧ t'.subtreeAt q = .ok u' ∧ u'.id = u.id ∧
      u'.symbol = u.symbol ∧ u'.children.length = u.children.length := by
  obtain ⟨rest, split⟩ := List.isPrefixOf_iff_prefix.1 above
  have replaced := replaceAt_eq_ok.1 h
  rw [← split] at replaced
  obtain ⟨u, u', hu, hu', inside⟩ := descend_above replaced
  cases rest with
  | nil =>
    rw [List.append_nil] at split
    exact absurd (congrArg Path.mk split) proper
  | cons i rest =>
    obtain ⟨label, width⟩ := label_of_replace_cons inside
    exact ⟨u, u', subtreeAt_eq_ok.2 hu, subtreeAt_eq_ok.2 hu', congrArg Node.id label,
      congrArg Node.symbol label, width⟩

theorem ids_around {t s : DerivationTree} {p : Path} (found : t.subtreeAt p = .ok s) :
    ∃ before after : List NodeId, ∀ x t', t.replaceAt p x = .ok t' →
      t'.ids = before ++ x.ids ++ after := by
  obtain ⟨before, after, split⟩ := preorder_around (subtreeAt_eq_ok.1 found)
  refine ⟨before.map Node.id, after.map Node.id, fun x t' hx => ?_⟩
  rw [ids_eq_map_label, split x t' (replaceAt_eq_ok.1 hx), List.map_append, List.map_append,
    ← ids_eq_map_label]

/-- What every replacement at `p` does, and what it leaves as it is. -/
structure Framed (t : DerivationTree) (p : Path) : Prop where
  replaces : ∀ x, ∃ t', t.replaceAt p x = .ok t'
  beside : ∀ x t', t.replaceAt p x = .ok t' → ∀ q r, q.isBefore p ∨ q.isAfter p →
    (t'.subtreeAt q = .ok r ↔ t.subtreeAt q = .ok r)
  /-- Even the stamps beside the address are kept. -/
  same_nodes : ∀ r : RevisedTree, r.plain = t → ∀ x next, ∃ r' next',
    r.replaceAt p x next = .ok (r', next') ∧ t.replaceAt p x.plain = .ok r'.plain ∧
      ∀ q u, q.isBefore p ∨ q.isAfter p → (r'.subtreeAt q = .ok u ↔ r.subtreeAt q = .ok u)
  above : ∀ x t', t.replaceAt p x = .ok t' → ∀ q : Path, q.isAncestor p → q ≠ p →
    ∃ u u', t.subtreeAt q = .ok u ∧ t'.subtreeAt q = .ok u' ∧ u'.id = u.id ∧
      u'.symbol = u.symbol ∧ u'.children.length = u.children.length
  ids : ∃ before after : List NodeId, ∀ x t', t.replaceAt p x = .ok t' →
    t'.ids = before ++ x.ids ++ after
  text : ∀ showOpen, ∃ before after : String, ∀ x t', t.replaceAt p x = .ok t' →
    t'.render showOpen = before ++ x.render showOpen ++ after
  commutes : ∀ q r, p.isBefore q → t.subtreeAt q = .ok r → ∀ x y, ∃ t₁ t₂ u,
    t.replaceAt p x = .ok t₁ ∧ t.replaceAt q y = .ok t₂ ∧ t₁.replaceAt q y = .ok u ∧
      t₂.replaceAt p x = .ok u

/-- A replacement at an address of the tree changes nothing else: neither the subtrees beside the
address nor the nodes above it and their widths. What it brings in stands between identities and
texts that are the same for every replacement, and two addresses beside each other can be replaced
in either order. -/
theorem replaceAt_framed {t s : DerivationTree} {p : Path} (found : t.subtreeAt p = .ok s) :
    Framed t p where
  replaces := exists_replaceAt found
  beside x t' hx q r beside := by
    rw [subtreeAt_eq_ok, subtreeAt_eq_ok,
      descend_beside (Path.beside_iff.2 beside) (replaceAt_eq_ok.1 hx)]
  same_nodes := by
    rintro r rfl x next
    exact RevisedTree.replaceAt_beside found x next
  above x t' hx q := above_of_replaceAt hx
  ids := ids_around found
  text showOpen := by
    obtain ⟨before, after, -, split⟩ := render_around showOpen found
    exact ⟨before, after, split⟩
  commutes q r before there x y := by
    obtain ⟨t₁, hx⟩ := exists_replaceAt found x
    obtain ⟨t₂, hy⟩ := exists_replaceAt there y
    obtain ⟨u, left, right⟩ :=
      replace_comm (.inl before) (replaceAt_eq_ok.1 hx) (replaceAt_eq_ok.1 hy)
    exact ⟨t₁, t₂, u, hx, hy, replaceAt_eq_ok.2 left, replaceAt_eq_ok.2 right⟩

end Tree

/-! ### Two statements -/

namespace Statements

def rhs : DerivationTree :=
  .node ⟨6, ⟨"<rhs>"⟩⟩ [.node ⟨5, ⟨"<var>"⟩⟩ [.leaf ⟨4, ⟨"y"⟩⟩]]

def assignment : DerivationTree :=
  .node ⟨7, ⟨"<assgn>"⟩⟩ [.node ⟨2, ⟨"<var>"⟩⟩ [.leaf ⟨1, ⟨"x"⟩⟩], .leaf ⟨3, ⟨" := "⟩⟩, rhs]

/-- The text `x := y ; ` before an open statement. -/
def tree : DerivationTree :=
  .node ⟨10, ⟨"<stmt>"⟩⟩ [assignment, .leaf ⟨8, ⟨" ; "⟩⟩, .hole ⟨9, ⟨"<stmt>"⟩⟩]

theorem replaceAt_framed_rhs :
    tree.subtreeAt ⟨[0, 2]⟩ = .ok rhs ∧ tree.Framed ⟨[0, 2]⟩ :=
  have found : tree.subtreeAt ⟨[0, 2]⟩ = .ok rhs := rfl
  ⟨found, Tree.replaceAt_framed found⟩

end Statements

end Scion
