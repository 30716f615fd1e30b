import Scion.Proofs.Grammar.Predecessors

/-!
Which of the shortest production paths is found. A step of a path has the rank at which the
alternatives of its first symbol name the second one for the first time, and paths of one length are
compared by the ranks of their steps, where the first difference decides. The search takes trails in
this order, and no way to a symbol comes before the trail on which the search has met it, so the path
that is found is the least one.
-/

namespace Scion

namespace Grammar

variable {g : Grammar} {s t : Symbol}

/-- Where the alternatives of a symbol, read one after the other, first name another symbol. -/
def rank (g : Grammar) (s t : Symbol) : Nat := (g.alternatives s).flatten.idxOf t

/-- The ranks of the steps of a path. -/
def ranks (g : Grammar) : List Symbol → List Nat
  | s :: t :: rest => g.rank s t :: g.ranks (t :: rest)
  | _ => []

theorem ranks_concat (front : List Symbol) :
    g.ranks (front ++ [s, t]) = g.ranks (front ++ [s]) ++ [g.rank s t] := by
  induction front with
  | nil => rfl
  | cons u front ih =>
    cases front with
    | nil => rfl
    | cons v front =>
      simp only [List.cons_append] at ih
      simp only [List.cons_append, ranks, ih]

theorem length_ranks (path : List Symbol) : (g.ranks path).length = path.length - 1 := by
  induction path with
  | nil => rfl
  | cons s path ih =>
    cases path with
    | nil => rfl
    | cons t path =>
      rw [ranks, List.length_cons, ih]
      rfl

end Grammar

namespace ProductionGraph

variable {g : Grammar} {start goal s : Symbol}

/-- The elements of a list are kept in the order of their first places in it. -/
theorem distinct_sorted (seen symbols : List Symbol) :
    (distinct seen symbols).Pairwise fun s t => symbols.idxOf s < symbols.idxOf t := by
  induction symbols generalizing seen with
  | nil => exact .nil
  | cons u rest ih =>
    have behind {seen : List Symbol} (known : u ∈ seen) : ∀ s ∈ distinct seen rest,
        (u :: rest).idxOf s = rest.idxOf s + 1 := by
      intro s hs
      have other : s ≠ u := fun same => (mem_distinct.1 hs).2 (same ▸ known)
      exact List.idxOf_cons_ne rest other.symm
    have later {seen : List Symbol} (known : u ∈ seen) : (distinct seen rest).Pairwise
        fun s t => (u :: rest).idxOf s < (u :: rest).idxOf t := by
      refine (ih seen).imp_of_mem fun hs ht before => ?_
      rw [behind known _ hs, behind known _ ht]
      exact Nat.succ_lt_succ before
    rw [distinct]
    split
    · rename_i known
      exact later (List.contains_iff_mem.1 known)
    · refine List.pairwise_cons.2 ⟨fun s hs => ?_, later List.mem_cons_self⟩
      rw [List.idxOf_cons_self, behind List.mem_cons_self s hs]
      exact Nat.succ_pos _

theorem successors_sorted (g : Grammar) (s : Symbol) :
    ((ofGrammar g).successors s).Pairwise fun t u => g.rank s t < g.rank s u := by
  rw [successors_ofGrammar]
  exact distinct_sorted [] _

/-- Enters the edge to a symbol before all others, unless it is there. -/
def link (entered : List Symbol) (s : Symbol) : List Symbol :=
  if entered.contains s then entered else s :: entered

/-- Where the edges from a symbol lead, the latest edge first. -/
def neighbors (g : Grammar) (s : Symbol) : List Symbol := (g.alternatives s).flatten.foldl link []

theorem foldl_link (symbols entered : List Symbol) :
    symbols.foldl link entered = (distinct entered symbols).reverse ++ entered := by
  induction symbols generalizing entered with
  | nil => rfl
  | cons u rest ih =>
    rw [List.foldl_cons, ih, distinct, link]
    split
    · rfl
    · rw [List.reverse_cons, List.append_assoc]
      rfl

theorem successors_eq_reverse (g : Grammar) (s : Symbol) :
    (ofGrammar g).successors s = (neighbors g s).reverse := by
  rw [successors_ofGrammar, neighbors, foldl_link, List.append_nil, List.reverse_reverse]

/-! ### The order of trails -/

/-- Shorter trails come first, and trails of one length in the order of their ranks. -/
def Precedes (g : Grammar) (t u : Trail) : Prop :=
  t.steps < u.steps ∨ t.steps = u.steps ∧ g.ranks t.path < g.ranks u.path

namespace Precedes

variable {t u v : Trail}

theorem steps_le (h : Precedes g t u) : t.steps ≤ u.steps := by
  obtain shorter | ⟨same, -⟩ := h
  · exact Nat.le_of_lt shorter
  · exact Nat.le_of_eq same

theorem trans (h : Precedes g t u) (h' : Precedes g u v) : Precedes g t v := by
  obtain shorter | ⟨same, before⟩ := h
  · exact .inl (Nat.lt_of_lt_of_le shorter h'.steps_le)
  · obtain shorter | ⟨same', before'⟩ := h'
    · exact .inl (same ▸ shorter)
    · exact .inr ⟨same.trans same', List.lt_trans before before'⟩

end Precedes

theorem ranks_extend (t : Trail) (s : Symbol) :
    g.ranks (t.extend s).path = g.ranks t.path ++ [g.rank t.last s] := by
  have split : t.path = t.before.reverse ++ [t.last] := List.reverse_cons
  rw [Trail.path_extend, split, List.append_assoc]
  exact Grammar.ranks_concat t.before.reverse

/-- Of two lists of one length the smaller stays the smaller, whatever is appended to them. -/
theorem append_lt_append {xs ys : List Nat} (h : xs < ys) (same : xs.length = ys.length)
    (us vs : List Nat) : xs ++ us < ys ++ vs := by
  induction xs generalizing ys with
  | nil =>
    rw [List.eq_nil_of_length_eq_zero same.symm] at h
    exact absurd h (List.lt_irrefl [])
  | cons x xs ih =>
    cases ys with
    | nil => simp at same
    | cons y ys =>
      rw [List.cons_append, List.cons_append, List.cons_lt_cons_iff]
      obtain first | ⟨rfl, rest⟩ := List.cons_lt_cons_iff.1 h
      · exact .inl first
      · exact .inr ⟨rfl, ih rest (Nat.succ.inj same)⟩

theorem Precedes.extend {t u : Trail} (h : Precedes g t u) (a b : Symbol) :
    Precedes g (t.extend a) (u.extend b) := by
  obtain shorter | ⟨same, before⟩ := h
  · exact .inl (Nat.succ_lt_succ shorter)
  · refine .inr ⟨congrArg Nat.succ same, ?_⟩
    rw [ranks_extend, ranks_extend]
    refine append_lt_append before ?_ _ _
    rw [Grammar.length_ranks, Grammar.length_ranks, Trail.length_path, Trail.length_path, same]

theorem precedes_siblings {t : Trail} {a b : Symbol} (h : g.rank t.last a < g.rank t.last b) :
    Precedes g (t.extend a) (t.extend b) := by
  refine .inr ⟨rfl, ?_⟩
  rw [ranks_extend, ranks_extend]
  exact List.append_left_lt (List.cons_lt_cons_iff.2 (.inl h))

/-- The trail is the other one or precedes it. -/
def NotAfter (g : Grammar) (t u : Trail) : Prop := t = u ∨ Precedes g t u

namespace NotAfter

variable {t u v : Trail}

theorem steps_le (h : NotAfter g t u) : t.steps ≤ u.steps := by
  obtain rfl | before := h
  · exact Nat.le_refl _
  · exact before.steps_le

theorem trans (h : NotAfter g t u) (h' : NotAfter g u v) : NotAfter g t v := by
  obtain rfl | before := h
  · exact h'
  · obtain rfl | before' := h'
    · exact .inr before
    · exact .inr (before.trans before')

theorem extend (h : NotAfter g t u) (s : Symbol) : NotAfter g (t.extend s) (u.extend s) := by
  obtain rfl | before := h
  · exact .inl rfl
  · exact .inr (before.extend s s)

end NotAfter

/-! ### The search in this order -/

/-- What else a search knows between two rounds. The trails met so far are in order. Each makes a
first step or continues a trail that was taken, and the end of every continuation of such a trail was
met on a trail that does not come later. -/
structure Ordered (g : Grammar) (start goal : Symbol) (done queue : List Trail)
    (met : List Symbol) : Prop extends (ofGrammar g).Explored start goal done queue met where
  ascending : (done ++ queue).Pairwise (Precedes g)
  grown : ∀ u ∈ done ++ queue, u.before = [start] ∨ ∃ t ∈ done, ∃ s, u = t.extend s
  first : ∀ s ∈ (ofGrammar g).successors start, ⟨s, [start]⟩ ∈ done ++ queue
  extended : ∀ t ∈ done, ∀ s ∈ (ofGrammar g).successors t.last,
    ∃ u ∈ done ++ queue, u.last = s ∧ NotAfter g u (t.extend s)

namespace Ordered

variable {done queue : List Trail} {trail : Trail} {met : List Symbol}

theorem initial (g : Grammar) (start goal : Symbol) :
    Ordered g start goal [] (((ofGrammar g).successors start).map fun s => ⟨s, [start]⟩)
      ((ofGrammar g).successors start) where
  toExplored := .initial (proper_ofGrammar g) start goal
  ascending := by
    rw [List.nil_append, List.pairwise_map]
    refine (successors_sorted g start).imp fun before => .inr ⟨rfl, ?_⟩
    exact List.cons_lt_cons_iff.2 (.inl before)
  grown u hu := by
    obtain ⟨s, -, rfl⟩ := List.mem_map.1 hu
    exact .inl rfl
  first s hs := List.mem_map_of_mem hs
  extended t ht := absurd ht List.not_mem_nil

theorem steps_pos (h : Ordered g start goal done queue met) {u : Trail} (hu : u ∈ done ++ queue) :
    1 ≤ u.steps := by
  obtain first | ⟨t, -, s, rfl⟩ := h.grown u hu
  · rw [Trail.steps, first]
    exact Nat.le_refl 1
  · exact Nat.succ_pos t.steps

/-- The next trail is extended behind everything that was met. -/
theorem precedes_extend (h : Ordered g start goal done (trail :: queue) met) {t : Trail}
    (ht : t ∈ done ++ trail :: queue) (s : Symbol) : Precedes g t (trail.extend s) := by
  obtain ⟨-, -, taken⟩ := List.pairwise_append.1 h.ascending
  obtain hd | hq := List.mem_append.1 ht
  · exact .inl (Nat.lt_succ_of_le (taken t hd trail List.mem_cons_self).steps_le)
  · obtain shorter | same := Nat.lt_or_eq_of_le (h.steps_le.2 t hq).2
    · exact .inl shorter
    · -- A trail that is a step longer continues one that was taken before the next trail.
      obtain first | ⟨u, hu, a, rfl⟩ := h.grown t ht
      · have := h.steps_pos (List.mem_append_right done List.mem_cons_self)
        rw [Trail.steps, first, List.length_singleton] at same
        omega
      · exact (taken u hu trail List.mem_cons_self).extend a s

theorem round (h : Ordered g start goal done (trail :: queue) met) (other : trail.last ≠ goal) :
    Ordered g start goal (done ++ [trail])
      (queue ++
        (((ofGrammar g).successors trail.last).filter fun s => !met.contains s).map trail.extend)
      (met ++ ((ofGrammar g).successors trail.last).filter fun s => !met.contains s) := by
  have explored := h.toExplored.round (proper_ofGrammar g) other
  have sorted := (successors_sorted g trail.last).filter fun s => !met.contains s
  have fresh : ∀ s, s ∈ ((ofGrammar g).successors trail.last).filter (fun s => !met.contains s) ↔
      s ∈ (ofGrammar g).successors trail.last ∧ s ∉ met := by simp
  generalize ((ofGrammar g).successors trail.last).filter (fun s => !met.contains s) = symbols
    at explored sorted fresh
  have regroup : done ++ [trail] ++ (queue ++ symbols.map trail.extend) =
      done ++ trail :: queue ++ symbols.map trail.extend := by simp
  have older {u : Trail} (hu : u ∈ done ++ trail :: queue) :
      u ∈ done ++ [trail] ++ (queue ++ symbols.map trail.extend) :=
    regroup ▸ List.mem_append_left _ hu
  refine ⟨explored, ?ascending, ?grown, ?first, ?extended⟩
  case ascending =>
    rw [regroup, List.pairwise_append, List.pairwise_map]
    refine ⟨h.ascending, sorted.imp precedes_siblings, fun t ht u hu => ?_⟩
    obtain ⟨s, -, rfl⟩ := List.mem_map.1 hu
    exact h.precedes_extend ht s
  case grown =>
    rw [regroup]
    intro u hu
    obtain hu | hu := List.mem_append.1 hu
    · refine (h.grown u hu).imp_right ?_
      rintro ⟨t, ht, s, rfl⟩
      exact ⟨t, List.mem_append_left _ ht, s, rfl⟩
    · obtain ⟨s, -, rfl⟩ := List.mem_map.1 hu
      exact .inr ⟨trail, by simp, s, rfl⟩
  case first => exact fun s hs => older (h.first s hs)
  case extended =>
    intro t ht s hs
    obtain ht | rfl : t ∈ done ∨ t = trail := by simpa using ht
    · obtain ⟨u, hu, hl⟩ := h.extended t ht s hs
      exact ⟨u, older hu, hl⟩
    · by_cases known : s ∈ met
      · obtain ⟨u, hu, hl⟩ := h.mem_met.1 known
        exact ⟨u, older hu, hl, .inr (h.precedes_extend hu s)⟩
      · have new : s ∈ symbols := (fresh s).2 ⟨hs, known⟩
        exact ⟨t.extend s, regroup ▸ List.mem_append_right _ (List.mem_map_of_mem new), rfl,
          .inl rfl⟩

/-- Wherever a trail leads, the search has met the end of it on a trail that does not come later, or
it has still to extend one that comes before. -/
theorem met_or_before (h : Ordered g start goal done queue met) {u : Trail}
    (hu : (ofGrammar g).Leads start u) :
    (∃ t ∈ done ++ queue, t.last = u.last ∧ NotAfter g t u) ∨ ∃ t ∈ queue, Precedes g t u := by
  induction hu with
  | first hs => exact .inl ⟨_, h.first _ hs, rfl, .inl rfl⟩
  | @extend u s _ hs ih =>
    obtain ⟨t, ht, hl, hle⟩ | ⟨t, ht, before⟩ := ih
    · obtain hd | hq := List.mem_append.1 ht
      · obtain ⟨v, hv, hvs, hle'⟩ := h.extended t hd s (hl ▸ hs)
        exact .inl ⟨v, hv, hvs, hle'.trans (hle.extend s)⟩
      · exact .inr ⟨t, hq, .inl (Nat.lt_succ_of_le hle.steps_le)⟩
    · exact .inr ⟨t, ht, .inl (Nat.lt_succ_of_le before.steps_le)⟩

theorem least (h : Ordered g start goal done (trail :: queue) met) {u : Trail}
    (hu : (ofGrammar g).Leads start u) (hg : u.last = goal) : NotAfter g trail u := by
  obtain ⟨-, waiting, -⟩ := List.pairwise_append.1 h.ascending
  have ahead {t : Trail} (ht : t ∈ trail :: queue) : NotAfter g trail t :=
    (List.mem_cons.1 ht).imp Eq.symm ((List.pairwise_cons.1 waiting).1 t)
  obtain ⟨t, ht, hl, hle⟩ | ⟨t, ht, before⟩ := h.met_or_before hu
  · obtain hd | hq := List.mem_append.1 ht
    · exact absurd (hl.trans hg) (h.closed t hd).1
    · exact (ahead hq).trans hle
  · exact (ahead ht).trans (.inr before)

end Ordered

/-- Successors are tried in the order in which their edges were entered, so the path that is found
is the least of all production paths of its length with the same ends. -/
theorem shortestPath?_least_ranks {path : List Symbol}
    (h : (ofGrammar g).shortestPath? start goal = some path) :
    (∀ s, (ofGrammar g).successors s = (neighbors g s).reverse) ∧
      g.ProductionPath start goal path ∧
      ∀ other, g.ProductionPath start goal other → other.length = path.length → other ≠ path →
        g.ranks path < g.ranks other := by
  rw [shortestPath?_eq_shortestTrail?] at h
  obtain ⟨done, trail, queue, met, ordered, hg, rfl⟩ :=
    searchTrails_hit (fun _ _ _ _ h => h.round) (Ordered.initial g start goal) h
  have leads : (ofGrammar g).Leads start trail := ordered.leads trail (by simp)
  refine ⟨successors_eq_reverse g, hg ▸ leads.productionPath, fun other ho same differ => ?_⟩
  obtain ⟨u, hu, hl, rfl⟩ := exists_trail ho
  obtain rfl | shorter | ⟨-, before⟩ := ordered.least hu hl
  · exact absurd rfl differ
  · rw [Trail.length_path, Trail.length_path] at same
    omega
  · exact before

end ProductionGraph

/-! ### Two ways to an expression -/

namespace Branches

def rules : List Rule :=
  [⟨⟨"<stmt>"⟩, [[⟨"<loop>"⟩, ⟨" ; "⟩, ⟨"<loop>"⟩], [⟨"<call>"⟩]]⟩,
    ⟨⟨"<call>"⟩, [[⟨"<expr>"⟩]]⟩,
    ⟨⟨"<loop>"⟩, [[⟨"while "⟩, ⟨"<expr>"⟩]]⟩,
    ⟨⟨"<expr>"⟩, [[⟨"x"⟩]]⟩]

def grammar : Grammar := ⟨rules, ParentIndex.ofRules rules, by decide, rfl⟩

/-- The way through a loop is taken, although its own step has the greater rank. -/
theorem shortestPath?_least_ranks_loop :
    (ProductionGraph.ofGrammar grammar).shortestPath? ⟨"<stmt>"⟩ ⟨"<expr>"⟩ =
        some [⟨"<stmt>"⟩, ⟨"<loop>"⟩, ⟨"<expr>"⟩] ∧
      (∀ s, (ProductionGraph.ofGrammar grammar).successors s =
        (ProductionGraph.neighbors grammar s).reverse) ∧
      grammar.ProductionPath ⟨"<stmt>"⟩ ⟨"<expr>"⟩ [⟨"<stmt>"⟩, ⟨"<loop>"⟩, ⟨"<expr>"⟩] ∧
      ∀ other, grammar.ProductionPath ⟨"<stmt>"⟩ ⟨"<expr>"⟩ other → other.length = 3 →
        other ≠ [⟨"<stmt>"⟩, ⟨"<loop>"⟩, ⟨"<expr>"⟩] →
          grammar.ranks [⟨"<stmt>"⟩, ⟨"<loop>"⟩, ⟨"<expr>"⟩] < grammar.ranks other :=
  have found : (ProductionGraph.ofGrammar grammar).shortestPath? ⟨"<stmt>"⟩ ⟨"<expr>"⟩ =
      some [⟨"<stmt>"⟩, ⟨"<loop>"⟩, ⟨"<expr>"⟩] := by decide
  ⟨found, ProductionGraph.shortestPath?_least_ranks found⟩

-- The first difference decides: the ranks through a loop are 0 and 1, those through a call 3 and 0.
example : grammar.ranks [⟨"<stmt>"⟩, ⟨"<loop>"⟩, ⟨"<expr>"⟩] = [0, 1] ∧
    grammar.ranks [⟨"<stmt>"⟩, ⟨"<call>"⟩, ⟨"<expr>"⟩] = [3, 0] := by decide

end Branches

end Scion
