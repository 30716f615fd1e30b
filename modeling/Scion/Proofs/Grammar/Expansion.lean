import Scion.Derivation
import Scion.Grammar
import Scion.Proofs.Tree.Lens

/-!
Open nodes replaced by their expansions. A nonterminal has an expansion when there is nothing to
choose and nothing is left open: its only alternative consists of terminals. Two trees that differ in
some children of one node only, where the one has open nodes and the other their expansions, come out
of each other by replacing these open nodes one after the other.
-/

namespace Scion

namespace Grammar

variable {g : Grammar} {s : Symbol} {a : Alternative}

/-- There is one alternative to expand the nonterminal by, and it leaves nothing open. -/
structure Expands (g : Grammar) (s : Symbol) (a : Alternative) : Prop where
  nonterminal : s.isNonterminal
  only : g.alternatives s = [a]
  terminals : ∀ x ∈ a, x.isTerminal

/-- An open node and its expansion. -/
def Fills (g : Grammar) (q r : ParseTree) : Prop :=
  ∃ s a, q = .hole s ∧ g.Expands s a ∧ r = .node s (a.map Tree.leaf)

theorem Fills.ne {q r : ParseTree} (h : g.Fills q r) : q ≠ r := by
  obtain ⟨s, a, rfl, -, rfl⟩ := h
  simp

/-- The open nodes at some addresses are replaced by their expansions, one after the other. -/
inductive Expanded (g : Grammar) : List Path → ParseTree → ParseTree → Prop
  | refl (q : ParseTree) : Expanded g [] q q
  | fill {p : Path} {ps : List Path} {q q' r : ParseTree} {s : Symbol} {a : Alternative} :
      q.descend 0 p.toList = .ok (.hole s) → g.Expands s a →
      q.replace 0 p.toList (.node s (a.map Tree.leaf)) = .ok q' →
      Expanded g ps q' r → Expanded g (p :: ps) q r

/-- The children behind `before` are equal in pairs, or the one is the expansion of the other. -/
theorem expanded_of_children {t old u v : ParseTree} {p : Path} {before qs rs : List ParseTree}
    (found : t.descend 0 p.toList = .ok old)
    (pairs : List.Forall₂ (fun q r => q = r ∨ g.Fills q r) qs rs)
    (hu : t.replace 0 p.toList (.node s (before ++ qs)) = .ok u)
    (hv : t.replace 0 p.toList (.node s (before ++ rs)) = .ok v) :
    ∃ spots : List Nat, g.Expanded (spots.map p.child) u v ∧
      ∀ k ∈ spots, ∃ m, k = before.length + m ∧ qs[m]? ≠ rs[m]? := by
  induction pairs generalizing before u with
  | nil =>
    obtain rfl := Except.ok.inj (hu.symm.trans hv)
    exact ⟨[], .refl u, by simp⟩
  | @cons q r qs rs pair _ ih =>
    -- The child at hand is made that of the second tree, and belongs to the part before from then on.
    obtain ⟨mid, hmid⟩ := Tree.exists_replace_of_descend found (.node s (before ++ r :: qs))
    have behind {q : ParseTree} {qs : List ParseTree} : before ++ q :: qs = before ++ [q] ++ qs := by
      simp
    obtain ⟨spots, rest, differ⟩ := ih (behind ▸ hmid) (behind ▸ hv)
    have later : ∀ k ∈ spots, ∃ m, k = before.length + m ∧ (q :: qs)[m]? ≠ (r :: rs)[m]? := by
      intro k hk
      obtain ⟨m, rfl, hm⟩ := differ k hk
      exact ⟨m + 1, by simp [Nat.add_assoc, Nat.add_comm 1], hm⟩
    obtain rfl | fills := pair
    · obtain rfl := Except.ok.inj (hu.symm.trans hmid)
      exact ⟨spots, rest, later⟩
    · refine ⟨before.length :: spots, ?_, List.forall_mem_cons.2 ⟨⟨0, rfl, ?_⟩, later⟩⟩
      · obtain ⟨x, a, rfl, expands, rfl⟩ := fills
        refine .fill ?_ expands ?_ rest
        · exact Tree.descend_append (Tree.descend_of_replace hu)
            (Tree.descend_cons_ok.2 ⟨.hole x, by simp, rfl⟩)
        · exact Tree.replace_append hu
            (Tree.replace_cons_ok.2 ⟨.hole x, _, by simp, Tree.replace_nil .., by simp⟩) hmid
      · simpa using fills.ne

end Grammar

end Scion
