import Mathlib.Data.List.TFAE
import Scion.Proofs.Grammar.Predecessors
import Scion.Proofs.Graft.Layers

/-!
Three views of one relation. That an alternative of a nonterminal contains a symbol can be read off
the index of parents, off the production graph and off the wrapping of trees. The graph has one edge
for each such pair and one node for each symbol that a rule knows.
-/

namespace Scion

variable {g : Grammar} {parent s t : Symbol}

/-- A wrapper is built only where an alternative has a slot for the tree. -/
theorem Host.mentions_of_wrap {tree : DerivationTree} {next : NodeId}
    {made : DerivationTree × NodeId} (h : wrap g parent tree next = .ok made) :
    g.Mentions parent tree.symbol := by
  obtain ⟨l, r, _, -, -, known, -⟩ := wrap_ok h
  exact ⟨_, known, by simp⟩

namespace ProductionGraph

/-- A path of a single step is the shortest one wherever there is such a step. -/
theorem shortestPath?_eq_pair :
    (ofGrammar g).shortestPath? s t = some [s, t] ↔ g.Mentions s t := by
  constructor
  · intro h
    exact List.isChain_pair.1 (shortestPath?_some h).steps
  · intro step
    cases found : (ofGrammar g).shortestPath? s t with
    | none => exact absurd (.single step) (shortestPath?_none found [s, t])
    | some path =>
      have shortest := shortestPath?_some found
      obtain ⟨middle, rfl⟩ := shortest.ends
      have short := shortest.least _ (.single step)
      simp only [List.length_cons, List.length_append, List.length_nil] at short
      obtain rfl : middle = [] := List.eq_nil_of_length_eq_zero (by omega)
      rfl

theorem reaches_iff :
    (ofGrammar g).reaches s t ↔ Relation.TransGen g.Mentions s t := by
  rw [reaches, Option.isSome_iff_exists]
  exact exists_shortestPath?_iff

/-! ### Counting edges -/

theorem length_distinct {symbols : List Symbol} {members : Finset Symbol}
    (within : ∀ s ∈ symbols, s ∈ members) :
    (distinct [] symbols).length = {s ∈ members | s ∈ symbols}.card := by
  rw [← List.toFinset_card_of_nodup nodup_distinct]
  congr 1
  ext s
  simp only [List.mem_toFinset, mem_distinct, Finset.mem_filter]
  have := within s
  grind

/-- The edges, counted by the symbols that they lead to. -/
theorem length_edges {rules : List Rule} {members : Finset Symbol}
    (within : ∀ r ∈ rules, ∀ s ∈ r.symbols, s ∈ members) :
    (rules.flatMap fun r => distinct [] r.symbols).length =
      ∑ s ∈ members, (rules.filter fun r => r.symbols.contains s).length := by
  induction rules with
  | nil => simp
  | cons r rules ih =>
    obtain ⟨here, later⟩ := List.forall_mem_cons.1 within
    have split (s : Symbol) : ((r :: rules).filter fun r => r.symbols.contains s).length =
        (if s ∈ r.symbols then 1 else 0) +
          (rules.filter fun r => r.symbols.contains s).length := by
      rw [List.filter_cons]
      by_cases hs : s ∈ r.symbols <;> simp [hs, Nat.add_comm]
    simp only [split]
    rw [List.flatMap_cons, List.length_append, ih later, length_distinct here,
      Finset.sum_add_distrib, Finset.card_filter]

end ProductionGraph

open ProductionGraph in
/-- The index of parents, the production graph and the wrapping of trees agree on which alternatives
contain which symbols, and the counts of the graph are those of the index. -/
theorem Grammar.containment_views (g : Grammar) (parent s : Symbol) :
    List.TFAE [parent ∈ g.possibleParents s, ∃ a ∈ g.alternatives parent, s ∈ a,
      (ofGrammar g).shortestPath? parent s = some [parent, s],
      ∀ tree : DerivationTree, tree.symbol = s → ∀ next, ∃ made,
        Host.wrap g parent tree next = .ok made] ∧
    ((ofGrammar g).reaches parent s ↔
      Relation.TransGen (fun p q => p ∈ g.possibleParents q) parent s) ∧
    ∃ members : Finset Symbol, (∀ q, q ∈ members ↔ g.Knows q) ∧
      (∀ q ∉ members, g.possibleParents q = []) ∧ (ofGrammar g).nodeCount = members.card ∧
      (ofGrammar g).edgeCount = ∑ q ∈ members, (g.possibleParents q).length := by
  refine ⟨?_, ?_, (ofGrammar g).nodes.toFinset, ?_, ?_, ?_, ?_⟩
  · tfae_have 1 ↔ 2 := mem_possibleParents
    tfae_have 3 ↔ 2 := shortestPath?_eq_pair
    tfae_have 1 → 4 := by
      rintro known tree rfl next
      exact Host.exists_wrap known next
    tfae_have 4 → 2 := by
      intro wraps
      obtain ⟨made, h⟩ := wraps (.hole ⟨0, s⟩) rfl 1
      exact Host.mentions_of_wrap h
    tfae_finish
  · have same : (fun p q => p ∈ g.possibleParents q) = g.Mentions := by
      funext p q
      exact propext mem_possibleParents
    rw [same, reaches_iff]
  · intro q
    rw [List.mem_toFinset, mem_nodes]
  · intro q unknown
    rw [List.mem_toFinset, mem_nodes] at unknown
    refine List.eq_nil_iff_forall_not_mem.2 fun p known => unknown ?_
    exact (Grammar.Mentions.knows (mem_possibleParents.1 known)).2
  · exact (List.toFinset_card_of_nodup nodup_distinct).symm
  · have within : ∀ r ∈ g.rules, ∀ q ∈ r.symbols, q ∈ (ofGrammar g).nodes.toFinset :=
      fun r hr q hq => List.mem_toFinset.2 (mem_nodes.2 ⟨r, hr, .inr hq⟩)
    have parents (q : Symbol) : (g.possibleParents q).length =
        (g.rules.filter fun r => r.symbols.contains q).length := by
      rw [possibleParents_eq, List.length_map]
    simp only [parents]
    rw [edgeCount, ofGrammar, List.flatMap_map]
    exact length_edges within

end Scion
