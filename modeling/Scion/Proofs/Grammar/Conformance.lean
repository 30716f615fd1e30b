import Scion.Proofs.Grammar.WellFormed
import Scion.Proofs.Tree.Identity

/-!
Trees that conform to a grammar. The children of every node spell an alternative of its symbol, a
leaf is a terminal or spells the empty alternative, and an open position carries a nonterminal that
has a rule. A subtree may be exchanged for any conforming tree with the same symbol.
-/

namespace Scion

inductive Grammar.Conforms (g : Grammar) : ParseTree → Prop
  | hole {s : Symbol} : s.isNonterminal → g.isDefined s → Conforms g (.hole s)
  | leaf {s : Symbol} : s.isTerminal ∨ [] ∈ g.alternatives s → Conforms g (.leaf s)
  | node {s : Symbol} {qs : List ParseTree} : qs ≠ [] → qs.map Tree.label ∈ g.alternatives s →
      (∀ q ∈ qs, Conforms g q) → Conforms g (.node s qs)

namespace Grammar.Conforms

variable {g : Grammar} {s : Symbol} {a : Alternative} {q r : ParseTree}

theorem of_spelled {qs : List ParseTree} (known : qs.map Tree.label ∈ g.alternatives s)
    (below : ∀ q ∈ qs, g.Conforms q) : g.Conforms (.node s qs) := by
  by_cases h : qs = []
  · subst h
    exact .leaf (.inr known)
  · exact .node h known below

theorem of_children {n : Node} {cs : List DerivationTree}
    (known : cs.map Tree.symbol ∈ g.alternatives n.symbol) (below : ∀ c ∈ cs, g.Conforms c.shape) :
    g.Conforms (Tree.node n cs).shape := by
  have labels : (cs.map Tree.shape).map Tree.label = cs.map Tree.symbol := by simp
  rw [Tree.shape_node]
  refine of_spelled (labels ▸ known) fun q hq => ?_
  obtain ⟨c, hc, rfl⟩ := List.mem_map.1 hq
  exact below c hc

theorem of_mem_children (h : g.Conforms q) (hr : r ∈ q.children) : g.Conforms r := by
  cases h with
  | hole => simp at hr
  | leaf => simp [Tree.leaf] at hr
  | node _ _ below => exact below r hr

theorem of_mem_preorder {t n : DerivationTree} (ht : g.Conforms t.shape) (hn : n ∈ t.preorder) :
    g.Conforms n.shape := by
  refine Tree.induct_above (motive := fun t : DerivationTree => g.Conforms t.shape →
    g.Conforms n.shape) hn id (fun t c hc _ ih ht => ih (ht.of_mem_children ?_)) ht
  rw [Tree.children_shape]
  exact List.mem_map_of_mem hc

theorem set_child {c c' : ParseTree} {i : Nat} (h : g.Conforms q) (hc : q.children[i]? = some c)
    (hc' : g.Conforms c') (same : c'.label = c.label) :
    g.Conforms (.node q.label (q.children.set i c')) := by
  obtain ⟨hi, rfl⟩ := List.getElem?_eq_some_iff.1 hc
  cases h with
  | hole => simp at hi
  | leaf => simp [Tree.leaf] at hi
  | @node s qs _ known below =>
    have hi : i < (qs.map Tree.label).length := by simpa using hi
    refine of_spelled ?_ fun r hr => ?_
    · have same : c'.label = (qs.map Tree.label)[i] := by simpa using same
      simp only [Tree.children_node, Tree.label_node, List.map_set]
      rw [same, List.set_getElem_self]
      exact known
    · obtain hr | rfl := List.mem_or_eq_of_mem_set hr
      · exact below r hr
      · exact hc'

/-- A conforming tree with the symbol of the old one fits in its place. -/
theorem replaceAt {t n x t' : DerivationTree} {p : Path} (ht : g.Conforms t.shape)
    (hn : t.subtreeAt p = .ok n) (hx : g.Conforms x.shape) (same : x.symbol = n.symbol)
    (h : t.replaceAt p x = .ok t') : g.Conforms t'.shape := by
  have both : t'.symbol = t.symbol ∧ (g.Conforms t.shape → g.Conforms t'.shape) := by
    refine Tree.replace_induct (Tree.subtreeAt_eq_ok.1 hn) (Tree.replaceAt_eq_ok.1 h)
      (motive := fun t t' : DerivationTree =>
        t'.symbol = t.symbol ∧ (g.Conforms t.shape → g.Conforms t'.shape)) ⟨same, fun _ => hx⟩ ?_
    rintro t c c' i hc ⟨symbol, kept⟩
    refine ⟨rfl, fun ht => ?_⟩
    have hq : t.shape.children[i]? = some c.shape := by simp [hc]
    have inside : c.shape ∈ t.shape.children := List.mem_of_getElem? hq
    have := ht.set_child hq (kept (ht.of_mem_children inside)) (by simpa using symbol)
    rw [Tree.label_shape, Tree.children_shape] at this
    rw [Tree.shape_node, List.map_set]
    exact this
  exact both.2 ht

end Grammar.Conforms

end Scion
