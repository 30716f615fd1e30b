import Scion.Grammar
import Mathlib.Data.List.Nodup

/-!
What a faultless list of rules looks like: the heads are different nonterminals, and every
nonterminal that an alternative mentions is one of them. In a grammar only nonterminals have
alternatives, and each nonterminal of an alternative has a rule of its own.
-/

namespace Scion

namespace Rule

theorem headFault?_eq_none_iff {declared : List Symbol} {rules : List Rule} :
    headFault? declared rules = none ↔
      (∀ r ∈ rules, r.head.isNonterminal ∧ r.head ∉ declared) ∧ (rules.map head).Nodup := by
  induction rules generalizing declared with
  | nil => simp [headFault?]
  | cons r rest ih =>
    rw [headFault?, Symbol.isTerminal]
    split
    · rename_i hterminal
      simp_all
    · split
      · rename_i hdeclared
        simp_all
      · rename_i hterminal hdeclared
        rw [ih, List.forall_mem_cons, List.map_cons, List.nodup_cons, List.mem_map]
        simp only [List.mem_cons, not_or]
        constructor
        · rintro ⟨fresh, distinct⟩
          have head : r.head.isNonterminal ∧ r.head ∉ declared :=
            ⟨by simpa using hterminal, by simpa using hdeclared⟩
          refine ⟨⟨head, fun q hq => ?_⟩, ?_, distinct⟩
          · exact ⟨(fresh q hq).1, (fresh q hq).2.2⟩
          · rintro ⟨q, hq, same⟩
            exact (fresh q hq).2.1 same
        · rintro ⟨⟨-, fresh⟩, unused, distinct⟩
          refine ⟨fun q hq => ⟨(fresh q hq).1, fun same => ?_, (fresh q hq).2⟩, distinct⟩
          exact unused ⟨q, hq, same⟩

theorem undefined?_eq_none_iff {heads : List Symbol} {r : Rule} :
    undefined? heads r = none ↔ ∀ s ∈ r.symbols, s.isNonterminal → s ∈ heads := by
  rw [undefined?, Option.map_eq_none_iff, List.find?_eq_none]
  simp

theorem fault?_eq_none_iff {rules : List Rule} :
    fault? rules = none ↔
      (∀ r ∈ rules, r.head.isNonterminal) ∧ (rules.map head).Nodup ∧
        ∀ r ∈ rules, ∀ s ∈ r.symbols, s.isNonterminal → s ∈ rules.map head := by
  rw [fault?, Option.orElse_eq_orElse, Option.orElse_eq_or, Option.or_eq_none_iff,
    headFault?_eq_none_iff, List.findSome?_eq_none_iff]
  simp only [undefined?_eq_none_iff, List.not_mem_nil, not_false_eq_true, and_true, and_assoc]

theorem fault?_eq_some_iff {rules : List Rule} {fault : GrammarFault} :
    fault? rules = some fault ↔ headFault? [] rules = some fault ∨
      headFault? [] rules = none ∧ rules.findSome? (undefined? (rules.map head)) = some fault := by
  rw [fault?, Option.orElse_eq_orElse, Option.orElse_eq_or, Option.or_eq_some_iff]

end Rule

namespace Grammar

variable {g : Grammar} {s : Symbol} {a : Alternative}

theorem exists_rule_of_mem_alternatives (h : a ∈ g.alternatives s) :
    ∃ r ∈ g.rules, r.head = s ∧ a ∈ r.alternatives := by
  rw [alternatives, rule?] at h
  split at h
  · rename_i r hr
    exact ⟨r, List.mem_of_find?_eq_some hr, by simpa using List.find?_some hr, h⟩
  · simp at h

theorem isDefined_iff : g.isDefined s ↔ s ∈ g.nonterminals := by
  rw [isDefined, rule?, List.find?_isSome, nonterminals, List.mem_map]
  simp

theorem isNonterminal_of_mem_alternatives (h : a ∈ g.alternatives s) : s.isNonterminal := by
  obtain ⟨r, hr, rfl, -⟩ := exists_rule_of_mem_alternatives h
  exact (Rule.fault?_eq_none_iff.1 g.faultless).1 r hr

theorem isDefined_of_mem {t : Symbol} (h : a ∈ g.alternatives s) (ht : t ∈ a)
    (hn : t.isNonterminal) : g.isDefined t := by
  obtain ⟨r, hr, -, ha⟩ := exists_rule_of_mem_alternatives h
  exact isDefined_iff.2 ((Rule.fault?_eq_none_iff.1 g.faultless).2.2 r hr t
    (List.mem_flatten.2 ⟨a, ha, ht⟩) hn)

end Grammar

end Scion
