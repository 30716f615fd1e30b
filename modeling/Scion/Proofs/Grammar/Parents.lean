import Scion.Proofs.Grammar.WellFormed

/-!
What the index of parents says. In a grammar the possible parents of a symbol are the heads of the
rules that mention it, each once and in declaration order; they are the nonterminals that have an
alternative with the symbol.
-/

namespace Scion

namespace ParentIndex

theorem parents_foldl_enter (head : Symbol) (symbols : List Symbol) (index : ParentIndex)
    (s : Symbol) :
    parents (symbols.foldl (enter head) index) s =
      if s ∈ symbols ∧ head ∉ parents index s then parents index s ++ [head]
      else parents index s := by
  induction symbols generalizing index with
  | nil => simp
  | cons t symbols ih =>
    rw [List.foldl_cons, ih, parents_enter]
    by_cases ht : s = t
    · subst ht
      by_cases known : head ∈ parents index s <;> simp [known]
    · simp [ht]

/-- Each rule that mentions a symbol adds its head, provided that no head was entered before. -/
theorem parents_foldl_addRule {rules : List Rule} {index : ParentIndex} {s : Symbol}
    (distinct : (rules.map Rule.head).Nodup)
    (fresh : ∀ r ∈ rules, r.head ∉ parents index s) :
    parents (rules.foldl addRule index) s =
      parents index s ++ (rules.filter fun r => r.symbols.contains s).map Rule.head := by
  induction rules generalizing index with
  | nil => simp
  | cons r rules ih =>
    rw [List.map_cons, List.nodup_cons] at distinct
    have entered : parents (addRule index r) s =
        if s ∈ r.symbols then parents index s ++ [r.head] else parents index s := by
      rw [addRule, parents_foldl_enter]
      simp [fresh r List.mem_cons_self]
    have later : ∀ q ∈ rules, q.head ∉ parents (addRule index r) s := by
      intro q hq
      have other : q.head ≠ r.head := fun same => distinct.1 (same ▸ List.mem_map_of_mem hq)
      rw [entered]
      split
      · simp [fresh q (List.mem_cons_of_mem _ hq), other]
      · exact fresh q (List.mem_cons_of_mem _ hq)
    rw [List.foldl_cons, ih distinct.2 later, entered, List.filter_cons]
    by_cases hs : s ∈ r.symbols <;> simp [hs]

end ParentIndex

namespace Grammar

variable {g : Grammar} {s parent : Symbol}

theorem nodup_nonterminals (g : Grammar) : g.nonterminals.Nodup :=
  (Rule.fault?_eq_none_iff.1 g.faultless).2.1

theorem possibleParents_eq (g : Grammar) (s : Symbol) :
    g.possibleParents s = (g.rules.filter fun r => r.symbols.contains s).map Rule.head := by
  have entered := @ParentIndex.parents_foldl_addRule g.rules [] s g.nodup_nonterminals
    fun _ _ => List.not_mem_nil
  rw [possibleParents, g.parentIndex_eq]
  exact entered

theorem nodup_possibleParents (g : Grammar) (s : Symbol) : (g.possibleParents s).Nodup := by
  rw [possibleParents_eq]
  exact (List.filter_sublist.map Rule.head).nodup g.nodup_nonterminals

theorem alternatives_head {r : Rule} (h : r ∈ g.rules) : g.alternatives r.head = r.alternatives := by
  have found : g.rule? r.head = some r := by
    cases hq : g.rule? r.head with
    | none => simpa using List.find?_eq_none.1 hq r h
    | some q =>
      have same : q.head = r.head := by simpa using List.find?_some hq
      rw [List.inj_on_of_nodup_map g.nodup_nonterminals (List.mem_of_find?_eq_some hq) h same]
  rw [alternatives, found]

theorem mem_possibleParents : parent ∈ g.possibleParents s ↔
    ∃ a ∈ g.alternatives parent, s ∈ a := by
  rw [possibleParents_eq, List.mem_map]
  constructor
  · rintro ⟨r, hr, rfl⟩
    obtain ⟨known, mentions⟩ := List.mem_filter.1 hr
    obtain ⟨a, ha, hs⟩ := List.mem_flatten.1 (List.contains_iff_mem.1 mentions)
    exact ⟨a, alternatives_head known ▸ ha, hs⟩
  · rintro ⟨a, ha, hs⟩
    obtain ⟨r, hr, rfl, hra⟩ := exists_rule_of_mem_alternatives ha
    have mentions : s ∈ r.symbols := List.mem_flatten.2 ⟨a, hra, hs⟩
    exact ⟨r, List.mem_filter.2 ⟨hr, List.contains_iff_mem.2 mentions⟩, rfl⟩

end Grammar

end Scion
