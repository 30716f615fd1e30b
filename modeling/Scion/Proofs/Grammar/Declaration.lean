import Scion.Grammar.Text
import Scion.Proofs.Grammar.Compact
import Scion.Proofs.Grammar.Parents
import Scion.Symbol.Table

/-!
Which lists of rules are grammars, and what a grammar says about its rules. Rules are declared one
by one, and the first head that is no nonterminal or was declared before ends it; only afterwards are
the nonterminals of the alternatives looked up, so a rule may refer to a later one. A grammar comes
out exactly of the well-formed lists, its index gives back the list, and every fault names something
that is wrong with the rules.
-/

namespace Scion

/-! ### Interning -/

theorem Symbol.text_inj {s t : Symbol} : s.text = t.text ↔ s = t := by
  cases s
  cases t
  simp

namespace SymbolTable

theorem contains_intern_iff {table : SymbolTable} {text text' : String} :
    (table.intern text).contains text' ↔ text' = text ∨ table.contains text' := by
  rw [intern]
  split
  · rename_i known
    constructor
    · exact .inr
    · rintro (rfl | h)
      · exact known
      · exact h
  · simp [contains]

def internAll (table : SymbolTable) (symbols : List Symbol) : SymbolTable :=
  symbols.foldl (fun table s => table.intern s.text) table

theorem contains_internAll {table : SymbolTable} {symbols : List Symbol} {s : Symbol} :
    (table.internAll symbols).contains s.text ↔ table.contains s.text ∨ s ∈ symbols := by
  induction symbols generalizing table with
  | nil => simp [internAll]
  | cons t symbols ih =>
    have first : table.internAll (t :: symbols) = (table.intern t.text).internAll symbols := rfl
    rw [first, ih, contains_intern_iff, Symbol.text_inj, List.mem_cons]
    constructor
    · rintro ((rfl | known) | later)
      · exact .inr (.inl rfl)
      · exact .inl known
      · exact .inr (.inr later)
    · rintro (known | rfl | later)
      · exact .inl (.inr known)
      · exact .inl (.inl rfl)
      · exact .inr later

end SymbolTable

/-! ### Declaring rules one by one -/

/-- The rules that have been declared, in this order, and the symbols that were met in them. -/
structure Draft where
  table : SymbolTable := .empty
  rules : List Rule := []

namespace Draft

def declare (d : Draft) (r : Rule) : Except GrammarFault Draft :=
  let table := d.table.intern r.head.text
  if r.head.isTerminal then .error (.headNotNonterminal r.head)
  else if (d.rules.map Rule.head).contains r.head then .error (.duplicateRule r.head)
  else .ok ⟨table.internAll r.symbols, d.rules ++ [r]⟩

/-- The first nonterminal without a rule, rule by rule and alternative by alternative. -/
def undefined? (d : Draft) : Option GrammarFault :=
  d.rules.findSome? fun r => r.alternatives.findSome? fun a =>
    (a.find? fun s => s.isNonterminal && !(d.rules.map Rule.head).contains s).map
      (.undefinedSymbol r.head)

/-- Declares all rules and then looks for a nonterminal without a rule. -/
def ofRules (rules : List Rule) : Except GrammarFault Draft :=
  match rules.foldlM declare {} with
  | .error fault => .error fault
  | .ok d =>
    match d.undefined? with
    | some fault => .error fault
    | none => .ok d

/-- The draft after the declaration of faultless rules. -/
def extend (d : Draft) (rules : List Rule) : Draft :=
  ⟨d.table.internAll (rules.flatMap fun r => r.head :: r.symbols), d.rules ++ rules⟩

theorem extend_cons (d : Draft) (r : Rule) (rules : List Rule) :
    d.extend (r :: rules) = (d.extend [r]).extend rules := by
  simp [extend, SymbolTable.internAll]

theorem declare_of_fine {d : Draft} {r : Rule} (nonterminal : ¬ r.head.isTerminal)
    (fresh : r.head ∉ d.rules.map Rule.head) : d.declare r = .ok (d.extend [r]) := by
  have unused : (d.rules.map Rule.head).contains r.head = false := by simpa using fresh
  rw [declare, if_neg nonterminal, unused]
  simp [extend, SymbolTable.internAll]

/-- The declarations end with the fault of the first bad head; otherwise all rules are declared. -/
theorem foldlM_declare {d : Draft} {declared : List Symbol} (rules : List Rule)
    (same : ∀ s, s ∈ declared ↔ s ∈ d.rules.map Rule.head) :
    rules.foldlM declare d =
      (Rule.headFault? declared rules).elim (.ok (d.extend rules)) .error := by
  induction rules generalizing d declared with
  | nil => simp [Rule.headFault?, extend, SymbolTable.internAll, pure, Except.pure]
  | cons r rules ih =>
    rw [List.foldlM_cons, Rule.headFault?]
    by_cases terminal : r.head.isTerminal
    · rw [if_pos terminal, declare, if_pos terminal]
      rfl
    · rw [if_neg terminal]
      by_cases known : r.head ∈ declared
      · have repeated : (d.rules.map Rule.head).contains r.head := by
          simpa using (same r.head).1 known
        rw [if_pos (by simpa using known), declare, if_neg terminal, if_pos repeated]
        rfl
      · have fresh : r.head ∉ d.rules.map Rule.head := mt (same r.head).2 known
        -- The declared heads and the draft grow side by side, each in its own order.
        have grown : ∀ s, s ∈ r.head :: declared ↔ s ∈ (d.extend [r]).rules.map Rule.head := by
          intro s
          rw [List.mem_cons, same]
          simp [extend, or_comm]
        rw [if_neg (by simpa using known), declare_of_fine terminal fresh, extend_cons d r rules]
        exact ih grown

theorem undefined?_eq (d : Draft) :
    d.undefined? = d.rules.findSome? (Rule.undefined? (d.rules.map Rule.head)) := by
  rw [undefined?]
  congr 1
  funext r
  rw [Rule.undefined?, Rule.symbols, List.find?_flatten, List.map_findSome?]
  rfl

/-- The loop ends with the fault that the rules have, if any. -/
theorem ofRules_eq (rules : List Rule) :
    ofRules rules = (Rule.fault? rules).elim (.ok (extend {} rules)) .error := by
  rw [ofRules, @foldlM_declare {} [] rules (by simp), Rule.fault?]
  cases heads : Rule.headFault? [] rules with
  | some fault => rfl
  | none =>
    have check : (extend {} rules).undefined? =
        rules.findSome? (Rule.undefined? (rules.map Rule.head)) := undefined?_eq _
    simp only [Option.elim_none, check]
    cases rules.findSome? (Rule.undefined? (rules.map Rule.head)) <;> rfl

end Draft

/-! ### Well-formed lists of rules -/

namespace Rule

structure WellFormed (rules : List Rule) : Prop where
  heads : ∀ r ∈ rules, Symbol.IsName r.head.text.toList
  distinct : (rules.map head).Nodup
  /-- The rule may stand before or behind the alternative that refers to it. -/
  defined : ∀ r ∈ rules, ∀ a ∈ r.alternatives, ∀ s ∈ a, Symbol.IsName s.text.toList →
    ∃ q ∈ rules, q.head = s

variable {rules : List Rule} {r : Rule}

theorem mem_symbols {s : Symbol} : s ∈ r.symbols ↔ ∃ a ∈ r.alternatives, s ∈ a :=
  List.mem_flatten

theorem wellFormed_iff : WellFormed rules ↔ fault? rules = none := by
  rw [fault?_eq_none_iff]
  constructor
  · rintro ⟨heads, distinct, defined⟩
    refine ⟨fun r hr => Symbol.isNonterminal_iff.2 (heads r hr), distinct, fun r hr s hs name => ?_⟩
    obtain ⟨a, ha, hs⟩ := mem_symbols.1 hs
    exact List.mem_map.2 (defined r hr a ha s hs (Symbol.isNonterminal_iff.1 name))
  · rintro ⟨heads, distinct, defined⟩
    refine ⟨fun r hr => Symbol.isNonterminal_iff.1 (heads r hr), distinct, ?_⟩
    intro r hr a ha s hs name
    have known := defined r hr s (mem_symbols.2 ⟨a, ha, hs⟩) (Symbol.isNonterminal_iff.2 name)
    exact List.mem_map.1 known

end Rule

/-! ### Faults -/

/-- What a fault says about the rules. -/
def GrammarFault.Blames (rules : List Rule) : GrammarFault → Prop
  | headNotNonterminal s => (∃ r ∈ rules, r.head = s) ∧ ¬ Symbol.IsName s.text.toList
  | duplicateRule s => 2 ≤ (rules.map Rule.head).count s
  | undefinedSymbol head s => (∃ r ∈ rules, r.head = head ∧ ∃ a ∈ r.alternatives, s ∈ a) ∧
      Symbol.IsName s.text.toList ∧ ∀ q ∈ rules, q.head ≠ s

namespace Rule

variable {rules : List Rule} {fault : GrammarFault}

theorem blames_of_headFault? {before : List Rule} {declared : List Symbol}
    (same : ∀ s, s ∈ declared ↔ s ∈ before.map head) (h : headFault? declared rules = some fault) :
    fault.Blames (before ++ rules) := by
  induction rules generalizing before declared with
  | nil => simp [headFault?] at h
  | cons r rules ih =>
    -- The rules before `r` account for the declared heads, so a repeated head occurs among them.
    rw [headFault?] at h
    split_ifs at h with terminal repeated
    · cases h
      refine ⟨⟨r, List.mem_append_right _ List.mem_cons_self, rfl⟩, fun name => ?_⟩
      have nonterminal : r.head.isNonterminal := Symbol.isNonterminal_iff.2 name
      simp [Symbol.isTerminal, nonterminal] at terminal
    · cases h
      have earlier : r.head ∈ before.map head := (same r.head).1 (by simpa using repeated)
      have once : 0 < (before.map head).count r.head := List.count_pos_iff.2 earlier
      simp only [GrammarFault.Blames, List.map_append, List.map_cons, List.count_append,
        List.count_cons_self]
      omega
    · have grown : ∀ s, s ∈ r.head :: declared ↔ s ∈ (before ++ [r]).map head := by
        intro s
        rw [List.mem_cons, same]
        simp [or_comm]
      have rest := ih grown h
      rwa [List.append_assoc, List.singleton_append] at rest

theorem blames_of_fault? (h : fault? rules = some fault) : fault.Blames rules := by
  obtain heads | ⟨-, undefined⟩ := fault?_eq_some_iff.1 h
  · exact @blames_of_headFault? rules fault [] [] (by simp) heads
  · obtain ⟨r, hr, found⟩ := List.exists_of_findSome?_eq_some undefined
    obtain ⟨s, first, rfl⟩ := Option.map_eq_some_iff.1 found
    have mentioned : s ∈ r.symbols := List.mem_of_find?_eq_some first
    have passes := List.find?_some first
    rw [Bool.and_eq_true, Bool.not_eq_true'] at passes
    obtain ⟨nonterminal, unknown⟩ := passes
    refine ⟨⟨r, hr, rfl, mem_symbols.1 mentioned⟩, Symbol.isNonterminal_iff.1 nonterminal, ?_⟩
    rintro q hq rfl
    have known : (rules.map head).contains q.head :=
      List.contains_iff_mem.2 (List.mem_map_of_mem hq)
    rw [unknown] at known
    exact Bool.false_ne_true known

end Rule

/-! ### What a grammar says about its rules -/

namespace Grammar

/-- The grammar lists the heads, gives back the alternatives, and knows which heads can directly
contain a symbol. -/
structure Indexes (g : Grammar) (rules : List Rule) : Prop where
  nonterminals : g.nonterminals = rules.map Rule.head
  alternatives : ∀ r ∈ rules, g.alternatives r.head = r.alternatives
  no_alternatives : ∀ s, (∀ r ∈ rules, r.head ≠ s) → g.alternatives s = []
  parents : ∀ s p, p ∈ g.possibleParents s ↔
    ∃ r ∈ rules, r.head = p ∧ ∃ a ∈ r.alternatives, s ∈ a
  parents_nodup : ∀ s, (g.possibleParents s).Nodup
  /-- Parents come in declaration order. -/
  parents_sublist : ∀ s, (g.possibleParents s).Sublist (rules.map Rule.head)

theorem indexes_rules (g : Grammar) : g.Indexes g.rules := by
  constructor
  · rfl
  · intro r hr
    exact alternatives_head hr
  · intro s unused
    have none : g.rule? s = none := by
      apply List.find?_eq_none.2
      intro r hr
      simpa using unused r hr
    rw [alternatives, none]
  · intro s p
    rw [possibleParents_eq, List.mem_map]
    simp only [List.mem_filter, List.contains_iff_mem, Rule.mem_symbols]
    constructor
    · rintro ⟨r, ⟨hr, mentions⟩, rfl⟩
      exact ⟨r, hr, rfl, mentions⟩
    · rintro ⟨r, hr, rfl, mentions⟩
      exact ⟨r, ⟨hr, mentions⟩, rfl⟩
  · exact g.nodup_possibleParents
  · intro s
    rw [possibleParents_eq]
    exact List.filter_sublist.map Rule.head

theorem rules_of_ofRules {rules : List Rule} {g : Grammar} (h : ofRules rules = .ok g) :
    g.rules = rules := by
  rw [ofRules] at h
  split at h
  · simp at h
  · cases h
    rfl

theorem ofRulesOrFail_eq_ok {rules : List Rule} {g : Grammar} :
    ofRulesOrFail rules = .ok g ↔ ofRules rules = .ok g := by
  rw [ofRulesOrFail]
  cases ofRules rules <;> simp

theorem ofRulesOrFail_of_fault? {rules : List Rule} {fault : GrammarFault}
    (h : Rule.fault? rules = some fault) :
    ofRulesOrFail rules = .error (.malformedGrammar fault.message) := by
  rw [ofRulesOrFail, ofRules_error_iff.2 h]

/-- A list of rules makes a grammar exactly when it is well-formed. The grammar lists the heads and
alternatives as they were given, and the possible parents of each symbol once and in their order.
For every other list the error names something that is wrong with it. Declaring the rules one by one
with a table of symbols, and looking up nonterminals afterwards, comes to the same rules and faults,
and the table then holds the symbols of all rules. -/
theorem ofRules_exact (rules : List Rule) :
    ((∃ g, ofRulesOrFail rules = .ok g) ↔ Rule.WellFormed rules) ∧
      (∀ g, ofRulesOrFail rules = .ok g → g.Indexes rules) ∧
      (¬ Rule.WellFormed rules → ∃ fault : GrammarFault, fault.Blames rules ∧
        ofRulesOrFail rules = .error (.malformedGrammar fault.message)) ∧
      (∀ fault, Draft.ofRules rules = .error fault ↔ ofRules rules = .error fault) ∧
      (∀ g, ofRules rules = .ok g → ∃ d, Draft.ofRules rules = .ok d ∧ d.rules = g.rules ∧
        ∀ s : Symbol, d.table.contains s.text ↔ ∃ r ∈ rules, s = r.head ∨ s ∈ r.symbols) := by
  refine ⟨?_, ?_, ?_, ?_, ?_⟩
  · rw [Rule.wellFormed_iff, ← ofRules_ok_iff]
    simp only [ofRulesOrFail_eq_ok]
    constructor
    · rintro ⟨g, made⟩
      exact ⟨g, made, rules_of_ofRules made⟩
    · rintro ⟨g, made, -⟩
      exact ⟨g, made⟩
  · intro g made
    rw [← rules_of_ofRules (ofRulesOrFail_eq_ok.1 made)]
    exact indexes_rules g
  · intro malformed
    rw [Rule.wellFormed_iff, ← ne_eq, Option.ne_none_iff_exists'] at malformed
    obtain ⟨fault, found⟩ := malformed
    exact ⟨fault, Rule.blames_of_fault? found, ofRulesOrFail_of_fault? found⟩
  · intro fault
    rw [ofRules_error_iff, Draft.ofRules_eq]
    cases Rule.fault? rules <;> simp
  · intro g made
    have fine : Rule.fault? rules = none := ofRules_ok_iff.1 ⟨g, made, rules_of_ofRules made⟩
    refine ⟨Draft.extend {} rules, by rw [Draft.ofRules_eq, fine]; rfl, ?_, fun s => ?_⟩
    · rw [rules_of_ofRules made]
      rfl
    · rw [Draft.extend, SymbolTable.contains_internAll]
      simp [SymbolTable.contains, SymbolTable.empty]

end Grammar

end Scion
