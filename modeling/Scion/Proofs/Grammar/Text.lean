import Scion.Proofs.Grammar.Declaration
import Scion.Proofs.Json.Reader

/-!
Rules that are written as a JSON object and read again. The reader of objects lets a later member
take the place of an earlier one before rules are examined, so a head that is declared twice is not
noticed: the text is read as the list in which the later rule stands alone. Where no rule is lost
this way, the text says what the list of rules says.
-/

namespace Scion

open Json (Value)

namespace Rule

def alternativeToJson (a : Alternative) : Value := .array (a.map fun s => .string s.text)

/-- The member that declares a rule. -/
def toMember (r : Rule) : String × Value :=
  (r.head.text, .array (r.alternatives.map alternativeToJson))

def listToJson (rules : List Rule) : Value := .object (rules.map toMember)

/-- Puts a rule in the place of the one with its head, or behind all others. -/
def enter (r : Rule) : List Rule → List Rule
  | [] => [r]
  | q :: rest => if q.head = r.head then r :: rest else q :: enter r rest

def enterAll (before : List Rule) : List Rule → List Rule
  | [] => before
  | r :: rest => enterAll (r.enter before) rest

/-- Every head in its first place with its last rule. -/
def latest (rules : List Rule) : List Rule := enterAll [] rules

variable {rules before rest : List Rule} {r : Rule} {declared : List Symbol}

/-! ### The text of a list of rules -/

theorem textual_listToJson (rules : List Rule) : (listToJson rules).Textual := by
  refine .object fun m hm => ?_
  obtain ⟨r, -, rfl⟩ := List.mem_map.1 hm
  refine .array fun v hv => ?_
  obtain ⟨a, -, rfl⟩ := List.mem_map.1 hv
  refine .array fun v hv => ?_
  obtain ⟨s, -, rfl⟩ := List.mem_map.1 hv
  exact .string

theorem unkeyed_toMember (r : Rule) : (toMember r).2.Unkeyed := by
  refine .array fun v hv => ?_
  obtain ⟨a, -, rfl⟩ := List.mem_map.1 hv
  refine .array fun v hv => ?_
  obtain ⟨s, -, rfl⟩ := List.mem_map.1 hv
  exact .string

theorem depth_listToJson (rules : List Rule) : (listToJson rules).depth ≤ 3 := by
  refine Nat.succ_le_succ (Value.memberDepth_le.2 fun m hm => ?_)
  obtain ⟨r, -, rfl⟩ := List.mem_map.1 hm
  refine Nat.succ_le_succ (Value.itemDepth_le.2 fun v hv => ?_)
  obtain ⟨a, -, rfl⟩ := List.mem_map.1 hv
  refine Nat.succ_le_succ (Value.itemDepth_le.2 fun v hv => ?_)
  obtain ⟨s, -, rfl⟩ := List.mem_map.1 hv
  exact Nat.le_refl 0

theorem put_toMember (r : Rule) (before : List Rule) :
    Json.Reader.put r.head.text (toMember r).2 (before.map toMember) =
      (r.enter before).map toMember := by
  induction before with
  | nil => rfl
  | cons q before ih =>
    rw [List.map_cons, Json.Reader.put.eq_def, enter]
    by_cases same : q.head = r.head
    · rw [if_pos same]
      simp [toMember, same]
    · have other : q.head.text ≠ r.head.text := fun h => same (Symbol.text_inj.1 h)
      rw [if_neg same, List.map_cons, ← ih]
      simp [toMember, other]

theorem settledMembers_toMember (before rules : List Rule) :
    Value.settledMembers (before.map toMember) (rules.map toMember) =
      (enterAll before rules).map toMember := by
  induction rules generalizing before with
  | nil => rfl
  | cons r rules ih =>
    rw [List.map_cons, enterAll, ← ih, ← put_toMember]
    exact congrArg (Value.settledMembers · _)
      (congrArg (Json.Reader.put _ · _) (unkeyed_toMember r).settled)

theorem settled_listToJson (rules : List Rule) :
    (listToJson rules).settled = listToJson (latest rules) :=
  congrArg Value.object (settledMembers_toMember [] rules)

/-! ### The latest rules -/

theorem heads_enter (r : Rule) (before : List Rule) :
    (r.enter before).map head =
      if r.head ∈ before.map head then before.map head else before.map head ++ [r.head] := by
  induction before with
  | nil => rfl
  | cons q before ih =>
    rw [enter]
    by_cases same : q.head = r.head
    · simp [same]
    · have other : r.head ≠ q.head := Ne.symm same
      rw [if_neg same, List.map_cons, ih]
      by_cases known : r.head ∈ before.map head <;> simp [known, other]

theorem enter_eq_append (h : r.head ∉ before.map head) : r.enter before = before ++ [r] := by
  induction before with
  | nil => rfl
  | cons q before ih =>
    rw [List.map_cons, List.mem_cons, not_or] at h
    rw [enter, if_neg (Ne.symm h.1), ih h.2, List.cons_append]

theorem fresh_of_nodup (h : ((before ++ r :: rest).map head).Nodup) : r.head ∉ before.map head := by
  rw [List.map_append, List.nodup_append] at h
  exact fun known => h.2.2 _ known _ List.mem_cons_self rfl

theorem nodup_heads_enterAll (h : (before.map head).Nodup) :
    ((enterAll before rules).map head).Nodup := by
  induction rules generalizing before with
  | nil => exact h
  | cons r rules ih =>
    refine ih ?_
    rw [heads_enter]
    split
    · exact h
    · rename_i fresh
      exact List.nodup_append_comm.1 (List.nodup_cons.2 ⟨fresh, h⟩)

theorem nodup_heads_latest (rules : List Rule) : ((latest rules).map head).Nodup :=
  nodup_heads_enterAll List.nodup_nil

theorem mem_enter {q : Rule} (distinct : (before.map head).Nodup) :
    q ∈ r.enter before ↔ q = r ∨ q ∈ before ∧ q.head ≠ r.head := by
  induction before with
  | nil => simp [enter]
  | cons p before ih =>
    obtain ⟨alone, distinct⟩ := List.nodup_cons.1 distinct
    rw [enter]
    by_cases same : p.head = r.head
    · have others : q ∈ before → q.head ≠ r.head := fun hq h =>
        alone (same.trans h.symm ▸ List.mem_map_of_mem hq)
      rw [if_pos same, List.mem_cons, List.mem_cons]
      grind
    · rw [if_neg same, List.mem_cons, ih distinct, List.mem_cons]
      grind

theorem enterAll_append (before rules rest : List Rule) :
    enterAll before (rules ++ rest) = enterAll (enterAll before rules) rest := by
  induction rules generalizing before with
  | nil => rfl
  | cons r rules ih => exact ih (r.enter before)

theorem latest_concat (rules : List Rule) (r : Rule) :
    latest (rules ++ [r]) = r.enter (latest rules) :=
  enterAll_append [] rules [r]

/-- A rule is lost when its head comes again behind it. -/
theorem mem_latest {q : Rule} :
    q ∈ latest rules ↔ ∃ front back, rules = front ++ q :: back ∧ q.head ∉ back.map head := by
  induction rules using List.reverseRecOn with
  | nil => simp [latest, enterAll]
  | append_singleton rules r ih =>
    rw [latest_concat, mem_enter (nodup_heads_latest rules), ih]
    constructor
    · rintro (rfl | ⟨⟨front, back, rfl, unused⟩, other⟩)
      · exact ⟨rules, [], rfl, by simp⟩
      · exact ⟨front, back ++ [r], by simp, by simpa [other] using unused⟩
    · rintro ⟨front, back, same, unused⟩
      obtain rfl | ⟨back, last, rfl⟩ := List.eq_nil_or_concat' back
      · exact .inl (by simpa using (List.append_inj_right' same rfl).symm)
      · have same : rules ++ [r] = (front ++ q :: back) ++ [last] := by simpa using same
        obtain ⟨rfl, ⟨⟩⟩ := List.append_inj' same rfl
        simp only [List.map_append, List.mem_append, not_or] at unused
        exact .inr ⟨⟨front, back, rfl, unused.1⟩, by simpa using unused.2⟩

theorem prefix_heads_enterAll (before rules : List Rule) :
    before.map head <+: (enterAll before rules).map head := by
  induction rules generalizing before with
  | nil => exact List.prefix_rfl
  | cons r rules ih =>
    refine List.IsPrefix.trans ?_ (ih (r.enter before))
    rw [heads_enter]
    split
    · exact List.prefix_rfl
    · exact List.prefix_append _ _

theorem enterAll_eq_append (h : ((before ++ rules).map head).Nodup) :
    enterAll before rules = before ++ rules := by
  induction rules generalizing before with
  | nil => rw [enterAll, List.append_nil]
  | cons r rules ih =>
    rw [enterAll, enter_eq_append (fresh_of_nodup h), ih (by simpa using h), List.append_assoc,
      List.singleton_append]

theorem latest_eq_self (h : (rules.map head).Nodup) : latest rules = rules :=
  enterAll_eq_append h

/-! ### Faults -/

/-- A fault that is found among the first heads is found whatever follows. -/
theorem headFault?_extend {fault : GrammarFault} (h : headFault? declared rules = some fault)
    (same : rules.map head <+: rest.map head) : headFault? declared rest = some fault := by
  induction rules generalizing declared rest with
  | nil => simp [headFault?] at h
  | cons r rules ih =>
    cases rest with
    | nil => simp at same
    | cons q rest =>
      obtain ⟨heads, tails⟩ := List.cons_prefix_cons.1 same
      rw [headFault?] at h ⊢
      rw [← heads]
      split_ifs at h ⊢
      · exact h
      · exact h
      · exact ih h tails

theorem headFault?_eq_some {fault : GrammarFault} (h : headFault? declared rules = some fault) :
    ∃ r ∈ rules, fault = .headNotNonterminal r.head ∧ r.head.isTerminal ∨
      fault = .duplicateRule r.head := by
  induction rules generalizing declared with
  | nil => simp [headFault?] at h
  | cons r rules ih =>
    rw [headFault?] at h
    split_ifs at h with terminal repeated
    · cases h
      exact ⟨r, List.mem_cons_self, .inl ⟨rfl, terminal⟩⟩
    · cases h
      exact ⟨r, List.mem_cons_self, .inr rfl⟩
    · obtain ⟨q, hq, found⟩ := ih h
      exact ⟨q, List.mem_cons_of_mem _ hq, found⟩

/-- As long as heads are different nonterminals, every rule gets a place of its own; so the first
head that is no nonterminal stays the first. -/
theorem headFault?_enterAll {s : Symbol} (fine : headFault? [] before = none)
    (h : headFault? [] (before ++ rules) = some (.headNotNonterminal s)) :
    headFault? [] (enterAll before rules) =
      some (.headNotNonterminal s) := by
  induction rules generalizing before with
  | nil => simp [fine] at h
  | cons r rules ih =>
    have nonterminals : ∀ q ∈ before, ¬ q.head.isTerminal := fun q hq => by
      simp [Symbol.isTerminal, ((headFault?_eq_none_iff.1 fine).1 q hq).1]
    rw [← List.singleton_append, ← List.append_assoc] at h
    cases next : headFault? [] (before ++ [r]) with
    | none =>
      rw [enterAll, enter_eq_append (fresh_of_nodup (headFault?_eq_none_iff.1 next).2)]
      exact ih next h
    | some fault =>
      have found : headFault? [] (before ++ [r]) = some (.headNotNonterminal s) := by
        rw [next, ← h]
        exact (headFault?_extend next ((List.prefix_append _ _).map head)).symm
      have terminal : r.head.isTerminal := by
        obtain ⟨q, hq, ⟨-, terminal⟩ | ⟨⟨⟩⟩⟩ := headFault?_eq_some found
        obtain hq | hq := List.mem_append.1 hq
        · exact absurd terminal (nonterminals q hq)
        · rwa [List.mem_singleton.1 hq] at terminal
      have fresh : r.head ∉ before.map head := by
        intro known
        obtain ⟨q, hq, same⟩ := List.mem_map.1 known
        exact nonterminals q hq (same ▸ terminal)
      rw [enterAll, enter_eq_append fresh]
      exact headFault?_extend found (prefix_heads_enterAll _ _)

theorem headFault?_latest {s : Symbol} (h : headFault? [] rules = some (.headNotNonterminal s)) :
    headFault? [] (latest rules) = some (.headNotNonterminal s) :=
  headFault?_enterAll (show headFault? [] [] = none from rfl) h

theorem undefined?_eq_some {heads : List Symbol} {fault : GrammarFault}
    (h : undefined? heads r = some fault) : ∃ s, fault = .undefinedSymbol r.head s := by
  obtain ⟨s, -, rfl⟩ := Option.map_eq_some_iff.1 h
  exact ⟨s, rfl⟩

/-- A repeated head is reported only where heads are repeated. -/
theorem not_nodup_of_fault? {s : Symbol} (h : fault? rules = some (.duplicateRule s)) :
    ¬ (rules.map head).Nodup := by
  intro distinct
  have twice : 2 ≤ (rules.map head).count s := blames_of_fault? h
  have once := List.nodup_iff_count_le_one.1 distinct s
  omega

/-- The message tells whether a repeated head was the fault. -/
theorem eq_duplicateRule_of_message {fault : GrammarFault} {s : Symbol}
    (h : fault? rules = some fault) (same : fault.message = (GrammarFault.duplicateRule s).message) :
    ∃ t, fault = .duplicateRule t := by
  cases fault with
  | duplicateRule t => exact ⟨t, rfl⟩
  | headNotNonterminal t =>
    have spelled : ("rule head " ++ Text.quoted t.text ++ " is not a nonterminal").toList =
        ("duplicate rule for " ++ s.text).toList := congrArg String.toList same
    simp at spelled
  | undefinedSymbol t u =>
    have spelled : (t.text ++ " refers to undefined nonterminal " ++ u.text).toList =
        ("duplicate rule for " ++ s.text).toList := congrArg String.toList same
    have nonterminal : t.isNonterminal := by
      obtain h | ⟨fine, h⟩ := fault?_eq_some_iff.1 h
      · obtain ⟨r, -, ⟨⟨⟩, -⟩ | ⟨⟨⟩⟩⟩ := headFault?_eq_some h
      · obtain ⟨r, hr, h⟩ := List.exists_of_findSome?_eq_some h
        obtain ⟨v, ⟨⟩⟩ := undefined?_eq_some h
        exact ((headFault?_eq_none_iff.1 fine).1 r hr).1
    obtain ⟨rest, opening, -⟩ := (Symbol.isNonterminal_iff.1 nonterminal).exists_opening
    simp [opening] at spelled

end Rule

namespace Grammar

theorem symbolsOfJson?_map (a : Alternative) :
    symbolsOfJson? (a.map fun s => .string s.text) = some a := by
  induction a with
  | nil => rfl
  | cons s a ih =>
    rw [List.map_cons, symbolsOfJson?, ih]
    rfl

theorem ruleOfJson_toMember (r : Rule) : ruleOfJson r.toMember.1 r.toMember.2 = .ok r := by
  have alternatives : (r.alternatives.map Rule.alternativeToJson).mapM
      (alternativeOfJson r.head.text) = .ok r.alternatives := by
    have each : alternativeOfJson r.head.text ∘ Rule.alternativeToJson = fun a => pure (id a) := by
      funext a
      rw [Function.comp_apply, Rule.alternativeToJson, alternativeOfJson, symbolsOfJson?_map]
      rfl
    rw [List.mapM_map, each, List.mapM_pure, List.map_id]
    rfl
  rw [Rule.toMember, ruleOfJson, alternatives]
  rfl

theorem rulesOfJson_listToJson (rules : List Rule) :
    rulesOfJson (Rule.listToJson rules) = .ok rules := by
  have each : (fun m : String × Value => ruleOfJson m.1 m.2) ∘ Rule.toMember =
      fun r => pure (id r) := by
    funext r
    exact ruleOfJson_toMember r
  rw [Rule.listToJson, rulesOfJson, List.mapM_map, each, List.mapM_pure, List.map_id]
  rfl

/-- What the list of rules itself gives. -/
def declare (rules : List Rule) : Except Failure Grammar :=
  (ofRulesOrFail rules).mapError fun e => ⟨[], .graft e⟩

variable {rules : List Rule} {text : String}

theorem parse_of_written (written : (Rule.listToJson rules).Written text) :
    parse text = declare (Rule.latest rules) := by
  have read : Value.parse? text = some (Rule.listToJson (Rule.latest rules)) := by
    rw [written.parse?, if_pos ((Rule.depth_listToJson rules).trans (by decide)),
      Rule.settled_listToJson]
  rw [parse, read]
  simp only [rulesOfJson_listToJson, declare]
  cases ofRulesOrFail (Rule.latest rules) <;> rfl

theorem declare_of_fault? {fault : GrammarFault} (h : Rule.fault? rules = some fault) :
    declare rules = .error ⟨[], .graft (.malformedGrammar fault.message)⟩ := by
  rw [declare, ofRulesOrFail, ofRules_error_iff.2 h]
  rfl

/-- The list itself and what is read of its text differ just where a repeated head is the fault. -/
theorem declare_latest_iff :
    declare (Rule.latest rules) = declare rules ↔
      ∀ s, Rule.fault? rules ≠ some (.duplicateRule s) := by
  constructor
  · intro same s repeated
    rw [declare_of_fault? repeated] at same
    cases found : Rule.fault? (Rule.latest rules) with
    | none =>
      obtain ⟨g, built, -⟩ := ofRules_ok_iff.2 found
      rw [declare, ofRulesOrFail, built] at same
      cases same
    | some fault =>
      rw [declare_of_fault? found] at same
      have message : fault.message = (GrammarFault.duplicateRule s).message := by
        injection same with same
        injection same with _ same
        injection same with same
        injection same
      obtain ⟨t, rfl⟩ := Rule.eq_duplicateRule_of_message found message
      exact Rule.not_nodup_of_fault? found (Rule.nodup_heads_latest rules)
  · intro others
    cases heads : Rule.headFault? [] rules with
    | none => rw [Rule.latest_eq_self (Rule.headFault?_eq_none_iff.1 heads).2]
    | some fault =>
      have found : Rule.fault? rules = some fault := Rule.fault?_eq_some_iff.2 (.inl heads)
      obtain ⟨r, -, ⟨rfl, -⟩ | rfl⟩ := Rule.headFault?_eq_some heads
      · have kept := Rule.headFault?_latest heads
        rw [declare_of_fault? found, declare_of_fault? (Rule.fault?_eq_some_iff.2 (.inl kept))]
      · exact absurd found (others _)

/-- Reading the text of a list of rules, whatever its blanks and escapes. A rule is read unless a
later one has its head; so the text says what the list says, grammar or fault, unless the list is
faulty for a repeated head. -/
theorem parse_rules (written : (Rule.listToJson rules).Written text) :
    parse text = declare (Rule.latest rules) ∧
      (∀ r, r ∈ Rule.latest rules ↔
        ∃ front back, rules = front ++ r :: back ∧ r.head ∉ back.map Rule.head) ∧
      (parse text = declare rules ↔ ∀ s, Rule.fault? rules ≠ some (.duplicateRule s)) ∧
      ((rules.map Rule.head).Nodup → parse text = declare rules) := by
  have read := parse_of_written written
  refine ⟨read, fun r => Rule.mem_latest, ?_, fun distinct => ?_⟩
  · rw [read]
    exact declare_latest_iff
  · rw [read, Rule.latest_eq_self distinct]

/-- One head that is declared twice. -/
def twice : List Rule := [⟨⟨"<a>"⟩, [[⟨"x"⟩]]⟩, ⟨⟨"<a>"⟩, [[⟨"y"⟩]]⟩]

theorem parse_rules_twice :
    parse (Rule.listToJson twice).compact = declare [⟨⟨"<a>"⟩, [[⟨"y"⟩]]⟩] :=
  (parse_rules (Rule.textual_listToJson twice).written_compact).1

/-- The list is refused, its text is a grammar without the first alternative. -/
theorem parse_twice :
    (Rule.listToJson twice).compact = "\x7b\"<a>\":[[\"x\"]],\"<a>\":[[\"y\"]]\x7d" ∧
      ofRules twice = .error (.duplicateRule ⟨"<a>"⟩) ∧
      ∃ g, parse "\x7b\"<a>\":[[\"x\"]],\"<a>\":[[\"y\"]]\x7d" = .ok g ∧
        g.rules = [⟨⟨"<a>"⟩, [[⟨"y"⟩]]⟩] := by
  have text : (Rule.listToJson twice).compact =
      "\x7b\"<a>\":[[\"x\"]],\"<a>\":[[\"y\"]]\x7d" := by decide
  obtain ⟨g, built, rules⟩ := ofRules_ok_iff.2
    (show Rule.fault? [⟨⟨"<a>"⟩, [[⟨"y"⟩]]⟩] = none by decide)
  refine ⟨text, ofRules_error_iff.2 (by decide), g, ?_, rules⟩
  rw [← text, parse_of_written (Rule.textual_listToJson twice).written_compact]
  have latest : Rule.latest twice = [⟨⟨"<a>"⟩, [[⟨"y"⟩]]⟩] := by decide
  rw [latest, declare, ofRulesOrFail, built]
  rfl

end Grammar

end Scion
