import Mathlib.Data.List.Chain
import Mathlib.Data.List.Nodup
import Mathlib.Data.List.Perm.Basic
import Scion.Grammar.Reachability

/-!
Shortest trails. A search whose queue holds whole trails meets symbols in the order of their
distance from the start, so the trail on which it meets the goal is a shortest one; and when it ends
without the goal, every symbol that a trail leads to has been met. The trails of a search are the
production paths of the grammar, read backwards.
-/

namespace Scion

def Grammar.Mentions (g : Grammar) (s t : Symbol) : Prop := ∃ a ∈ g.alternatives s, t ∈ a

/-- The symbol is the head of a rule or occurs in one of its alternatives. -/
def Grammar.Knows (g : Grammar) (s : Symbol) : Prop := ∃ r ∈ g.rules, s = r.head ∨ s ∈ r.symbols

theorem Grammar.Mentions.knows {g : Grammar} {s t : Symbol} (h : g.Mentions s t) :
    g.Knows s ∧ g.Knows t := by
  obtain ⟨a, known, ht⟩ := h
  rw [Grammar.alternatives] at known
  split at known
  · rename_i r hr
    have rule : r ∈ g.rules := List.mem_of_find?_eq_some hr
    have head : r.head = s := by simpa using List.find?_some hr
    exact ⟨⟨r, rule, .inl head.symm⟩, ⟨r, rule, .inr (List.mem_flatten.2 ⟨a, known, ht⟩)⟩⟩
  · simp at known

/-- A path of one or more production steps. -/
structure Grammar.ProductionPath (g : Grammar) (start goal : Symbol) (path : List Symbol) :
    Prop where
  ends : ∃ middle, path = start :: (middle ++ [goal])
  steps : path.IsChain g.Mentions

structure Grammar.ShortestPath (g : Grammar) (start goal : Symbol) (path : List Symbol) : Prop
    extends g.ProductionPath start goal path where
  least : ∀ other, g.ProductionPath start goal other → path.length ≤ other.length

namespace Grammar.ProductionPath

variable {g : Grammar} {s t u : Symbol} {path : List Symbol}

theorem single (h : g.Mentions s t) : g.ProductionPath s t [s, t] :=
  ⟨⟨[], rfl⟩, List.isChain_pair.2 h⟩

theorem cons (h : g.Mentions s t) (rest : g.ProductionPath t u path) :
    g.ProductionPath s u (s :: path) := by
  obtain ⟨⟨middle, rfl⟩, steps⟩ := rest
  exact ⟨⟨t :: middle, rfl⟩, List.isChain_cons_cons.2 ⟨h, steps⟩⟩

theorem concat (h : g.ProductionPath s t path) (last : g.Mentions t u) :
    g.ProductionPath s u (path ++ [u]) := by
  obtain ⟨⟨middle, rfl⟩, steps⟩ := h
  have split : s :: (middle ++ [t]) ++ [u] = s :: middle ++ t :: u :: [] := by simp
  refine ⟨⟨middle ++ [t], by simp⟩, ?_⟩
  rw [split, List.isChain_append_cons_cons]
  exact ⟨steps, last, List.isChain_singleton u⟩

theorem cut {front back : List Symbol} (h : g.ProductionPath s t (front ++ u :: back))
    (behind : front ≠ []) : g.ProductionPath s u (front ++ [u]) := by
  obtain ⟨⟨middle, hm⟩, steps⟩ := h
  obtain ⟨first, front, rfl⟩ := List.exists_cons_of_ne_nil behind
  obtain rfl : first = s := (List.cons.inj hm).1
  rw [List.append_cons] at steps
  exact ⟨⟨front, rfl⟩, steps.left_of_append⟩

theorem divert {front back : List Symbol} {v : Symbol}
    (h : g.ProductionPath s t (front ++ u :: back)) (edge : g.Mentions u v) :
    g.ProductionPath s v (front ++ [u, v]) := by
  by_cases behind : front = []
  · subst behind
    obtain ⟨⟨middle, hm⟩, -⟩ := h
    obtain rfl : u = s := (List.cons.inj hm).1
    exact .single edge
  · rw [List.append_cons]
    exact (h.cut behind).concat edge

end Grammar.ProductionPath

namespace Grammar.ShortestPath

variable {g : Grammar} {s t u : Symbol} {front back : List Symbol}

/-- Only the last step could lead to the goal. -/
theorem not_mentions (h : g.ShortestPath s t (front ++ u :: (back ++ [t]))) (on : back ≠ []) :
    ¬ g.Mentions u t := by
  intro edge
  have shorter := h.least _ (h.divert edge)
  have := List.length_pos_of_ne_nil on
  simp only [List.length_append, List.length_cons, List.length_nil] at shorter
  omega

theorem ne_goal (h : g.ShortestPath s t (front ++ u :: (back ++ [t]))) (behind : front ≠ []) :
    u ≠ t := by
  rintro rfl
  have shorter := h.least _ (h.cut behind)
  simp only [List.length_append, List.length_cons, List.length_nil] at shorter
  omega

end Grammar.ShortestPath

namespace ProductionGraph

variable {g : Grammar} {graph : ProductionGraph} {start goal s t : Symbol}

theorem mem_distinct {seen symbols : List Symbol} :
    s ∈ distinct seen symbols ↔ s ∈ symbols ∧ s ∉ seen := by
  induction symbols generalizing seen with
  | nil => simp [distinct]
  | cons t rest ih =>
    rw [distinct]
    split
    · rename_i h
      rw [ih]
      simp only [List.contains_iff_mem] at h
      grind
    · rename_i h
      rw [List.mem_cons, ih]
      simp only [List.contains_iff_mem] at h
      grind

theorem nodup_distinct {seen symbols : List Symbol} : (distinct seen symbols).Nodup := by
  induction symbols generalizing seen with
  | nil => exact List.nodup_nil
  | cons t rest ih =>
    rw [distinct]
    split
    · exact ih
    · exact List.nodup_cons.2 ⟨by simp [mem_distinct], ih⟩

structure Proper (graph : ProductionGraph) : Prop where
  nodup : ∀ s, (graph.successors s).Nodup
  known : ∀ s, graph.successors s ⊆ graph.nodes

theorem successors_ofGrammar (g : Grammar) (s : Symbol) :
    (ofGrammar g).successors s = distinct [] ((g.alternatives s).flatten) := by
  have found : (ofGrammar g).adjacency.find? (fun entry => entry.1 = s) =
      (g.rule? s).map fun r => (r.head, distinct [] r.symbols) := by
    rw [ofGrammar, List.find?_map, Grammar.rule?]
    rfl
  rw [successors, found, Grammar.alternatives]
  cases g.rule? s with
  | none => rfl
  | some r => rfl

theorem mem_successors : t ∈ (ofGrammar g).successors s ↔ g.Mentions s t := by
  rw [successors_ofGrammar, mem_distinct, List.mem_flatten]
  simp [Grammar.Mentions]

theorem mem_nodes : s ∈ (ofGrammar g).nodes ↔ g.Knows s := by
  rw [ofGrammar, mem_distinct, List.mem_flatMap]
  simp [Grammar.Knows]

theorem proper_ofGrammar (g : Grammar) : (ofGrammar g).Proper where
  nodup s := successors_ofGrammar g s ▸ nodup_distinct
  known _ _ ht := mem_nodes.2 (mem_successors.1 ht).knows.2

/-! ### Trails -/

/-- A symbol that the search has met, with the symbols on the way to it, nearest first. -/
structure Trail where
  last : Symbol
  before : List Symbol

namespace Trail

def path (t : Trail) : List Symbol := (t.last :: t.before).reverse

def extend (t : Trail) (s : Symbol) : Trail := ⟨s, t.last :: t.before⟩

def steps (t : Trail) : Nat := t.before.length

@[simp] theorem last_extend (t : Trail) (s : Symbol) : (t.extend s).last = s := rfl

@[simp] theorem steps_extend (t : Trail) (s : Symbol) : (t.extend s).steps = t.steps + 1 := rfl

theorem map_last_first (start : Symbol) (symbols : List Symbol) :
    (symbols.map fun s => (⟨s, [start]⟩ : Trail)).map last = symbols := by
  rw [List.map_map]
  exact List.map_id symbols

theorem map_last_extend (t : Trail) (symbols : List Symbol) :
    (symbols.map t.extend).map last = symbols := by
  rw [List.map_map]
  exact List.map_id symbols

theorem path_extend (t : Trail) (s : Symbol) : (t.extend s).path = t.path ++ [s] := by
  simp [path, extend]

theorem length_path (t : Trail) : t.path.length = t.steps + 1 := by
  simp [path, steps]

end Trail

/-- The trail follows the edges of the graph, from the start on. -/
inductive Leads (graph : ProductionGraph) (start : Symbol) : Trail → Prop
  | first {s : Symbol} : s ∈ graph.successors start → Leads graph start ⟨s, [start]⟩
  | extend {t : Trail} {s : Symbol} : Leads graph start t → s ∈ graph.successors t.last →
      Leads graph start (t.extend s)

theorem Leads.productionPath {trail : Trail} (h : (ofGrammar g).Leads start trail) :
    g.ProductionPath start trail.last trail.path := by
  induction h with
  | first hs => exact .single (mem_successors.1 hs)
  | extend _ hs ih =>
    rw [Trail.path_extend]
    exact ih.concat (mem_successors.1 hs)

theorem exists_trail {path : List Symbol} (h : g.ProductionPath start goal path) :
    ∃ trail, (ofGrammar g).Leads start trail ∧ trail.last = goal ∧ trail.path = path := by
  obtain ⟨⟨middle, rfl⟩, steps⟩ := h
  induction middle using List.reverseRecOn generalizing goal with
  | nil => exact ⟨_, .first (mem_successors.2 (List.isChain_pair.1 steps)), rfl, rfl⟩
  | append_singleton middle s ih =>
    have split : start :: (middle ++ [s] ++ [goal]) = start :: middle ++ s :: goal :: [] := by simp
    rw [split, List.isChain_append_cons_cons] at steps
    obtain ⟨trail, leads, hl, hp⟩ := ih steps.1
    refine ⟨trail.extend goal, .extend leads (mem_successors.2 (hl ▸ steps.2.1)), rfl, ?_⟩
    rw [Trail.path_extend, hp]
    rfl

/-! ### The search -/

/-- One round takes the oldest trail and appends those that lead to symbols not met before. -/
def searchTrails (graph : ProductionGraph) (goal : Symbol) :
    Nat → List Trail → List Symbol → Option (List Symbol)
  | 0, _, _ => none
  | _ + 1, [], _ => none
  | rounds + 1, trail :: queue, met =>
    if trail.last = goal then some trail.path
    else
      let fresh := (graph.successors trail.last).filter fun s => !met.contains s
      searchTrails graph goal rounds (queue ++ fresh.map trail.extend) (met ++ fresh)

def shortestTrail? (graph : ProductionGraph) : ProductionPaths := fun start goal =>
  let first := graph.successors start
  searchTrails graph goal (graph.nodes.length + 1) (first.map fun s => ⟨s, [start]⟩) first

/-- What a search knows between two rounds. The trails in `done` have been taken from the queue, in
this order; trails get longer along the queue, and none is longer than its head by more than one
step. No trail that was taken leads to the goal, and all of them have been extended. -/
structure Explored (graph : ProductionGraph) (start goal : Symbol) (done queue : List Trail)
    (met : List Symbol) : Prop where
  met_eq : met = (done ++ queue).map Trail.last
  nodup : met.Nodup
  known : met ⊆ graph.nodes
  leads : ∀ t ∈ done ++ queue, graph.Leads start t
  sorted : (done ++ queue).Pairwise fun t u => t.steps ≤ u.steps
  spread : ∀ t ∈ queue, ∀ u ∈ queue, u.steps ≤ t.steps + 1
  seeded : ∀ s ∈ graph.successors start, ∃ u ∈ done ++ queue, u.last = s ∧ u.steps ≤ 1
  closed : ∀ t ∈ done, t.last ≠ goal ∧
    ∀ s ∈ graph.successors t.last, ∃ u ∈ done ++ queue, u.last = s ∧ u.steps ≤ t.steps + 1

namespace Explored

variable {done queue : List Trail} {trail : Trail} {met : List Symbol}

theorem initial (proper : graph.Proper) (start goal : Symbol) :
    graph.Explored start goal [] ((graph.successors start).map fun s => ⟨s, [start]⟩)
      (graph.successors start) where
  met_eq := by rw [List.nil_append, Trail.map_last_first]
  nodup := proper.nodup start
  known := proper.known start
  leads t ht := by
    obtain ⟨s, hs, rfl⟩ := List.mem_map.1 ht
    exact .first hs
  sorted := by
    rw [List.nil_append, List.pairwise_map]
    exact List.pairwise_of_forall fun _ _ => Nat.le_refl _
  spread := by simp [Trail.steps]
  seeded s hs := ⟨_, List.mem_map_of_mem hs, rfl, Nat.le_refl _⟩
  closed := by simp

theorem mem_met (h : graph.Explored start goal done queue met) :
    s ∈ met ↔ ∃ u ∈ done ++ queue, u.last = s := by
  rw [h.met_eq, List.mem_map]

theorem length_le (h : graph.Explored start goal done queue met) :
    done.length + queue.length ≤ graph.nodes.length := by
  have all := (List.subperm_of_subset h.nodup h.known).length_le
  rwa [h.met_eq, List.length_map, List.length_append] at all

/-- The next trail is at least as long as those before it and at most one step shorter than those
behind it. -/
theorem steps_le (h : graph.Explored start goal done (trail :: queue) met) :
    (∀ t ∈ done, t.steps ≤ trail.steps) ∧
      ∀ t ∈ trail :: queue, trail.steps ≤ t.steps ∧ t.steps ≤ trail.steps + 1 := by
  obtain ⟨-, behind, before⟩ := List.pairwise_append.1 h.sorted
  refine ⟨fun t ht => before t ht trail List.mem_cons_self, fun t ht => ⟨?_, ?_⟩⟩
  · obtain rfl | ht := List.mem_cons.1 ht
    · exact Nat.le_refl _
    · exact (List.pairwise_cons.1 behind).1 t ht
  · exact h.spread trail List.mem_cons_self t ht

theorem round (proper : graph.Proper) (h : graph.Explored start goal done (trail :: queue) met)
    (other : trail.last ≠ goal) :
    graph.Explored start goal (done ++ [trail])
      (queue ++ ((graph.successors trail.last).filter fun s => !met.contains s).map trail.extend)
      (met ++ (graph.successors trail.last).filter fun s => !met.contains s) := by
  obtain ⟨before, behind⟩ := h.steps_le
  have distinct := (proper.nodup trail.last).filter fun s => !met.contains s
  have fresh : ∀ s, s ∈ (graph.successors trail.last).filter (fun s => !met.contains s) ↔
      s ∈ graph.successors trail.last ∧ s ∉ met := by simp
  generalize (graph.successors trail.last).filter (fun s => !met.contains s) = symbols
    at distinct fresh
  have regroup : done ++ [trail] ++ (queue ++ symbols.map trail.extend) =
      done ++ trail :: queue ++ symbols.map trail.extend := by simp
  have older {s : Symbol} {n : Nat} (hu : ∃ u ∈ done ++ trail :: queue, u.last = s ∧ u.steps ≤ n) :
      ∃ u ∈ done ++ [trail] ++ (queue ++ symbols.map trail.extend), u.last = s ∧ u.steps ≤ n := by
    obtain ⟨u, hu, hl⟩ := hu
    exact ⟨u, regroup ▸ List.mem_append_left _ hu, hl⟩
  have near : ∀ t ∈ queue ++ symbols.map trail.extend,
      trail.steps ≤ t.steps ∧ t.steps ≤ trail.steps + 1 := by
    rw [List.forall_mem_append, List.forall_mem_map]
    exact ⟨fun t ht => behind t (List.mem_cons_of_mem _ ht), fun s _ => by simp⟩
  constructor
  case met_eq =>
    rw [regroup, List.map_append, ← h.met_eq, Trail.map_last_extend]
  case nodup =>
    exact h.nodup.append distinct fun s hs hs' => ((fresh s).1 hs').2 hs
  case known =>
    exact List.append_subset.2 ⟨h.known, fun s hs => proper.known _ ((fresh s).1 hs).1⟩
  case leads =>
    rw [regroup, List.forall_mem_append, List.forall_mem_map]
    exact ⟨h.leads, fun s hs => .extend (h.leads trail (by simp)) ((fresh s).1 hs).1⟩
  case sorted =>
    rw [regroup, List.pairwise_append, List.pairwise_map, List.forall_mem_append]
    have level : symbols.Pairwise fun a b => (trail.extend a).steps ≤ (trail.extend b).steps :=
      List.pairwise_of_forall fun _ _ => Nat.le_refl _
    refine ⟨h.sorted, level, fun t ht u hu => ?_, fun t ht u hu => ?_⟩
    · obtain ⟨s, -, rfl⟩ := List.mem_map.1 hu
      exact Nat.le_succ_of_le (before t ht)
    · obtain ⟨s, -, rfl⟩ := List.mem_map.1 hu
      exact (behind t ht).2
  case spread =>
    intro t ht u hu
    have := near t ht
    have := near u hu
    omega
  case seeded => exact fun s hs => older (h.seeded s hs)
  case closed =>
    intro t ht
    obtain ht | rfl : t ∈ done ∨ t = trail := by simpa using ht
    · exact ⟨(h.closed t ht).1, fun s hs => older ((h.closed t ht).2 s hs)⟩
    · refine ⟨other, fun s hs => ?_⟩
      by_cases known : s ∈ met
      · obtain ⟨u, hu, rfl⟩ := h.mem_met.1 known
        refine older ⟨u, hu, rfl, ?_⟩
        obtain hu | hu := List.mem_append.1 hu
        · exact Nat.le_succ_of_le (before u hu)
        · exact (behind u hu).2
      · have new : s ∈ symbols := (fresh s).2 ⟨hs, known⟩
        exact ⟨t.extend s, regroup ▸ List.mem_append_right _ (List.mem_map_of_mem new), rfl,
          Nat.le_refl _⟩

/-- Wherever a trail leads, the search has met the end of it on a trail that is no longer, or it has
still to extend a shorter one. -/
theorem met_or_waiting (h : graph.Explored start goal done queue met) {u : Trail}
    (hu : graph.Leads start u) :
    (∃ t ∈ done ++ queue, t.last = u.last ∧ t.steps ≤ u.steps) ∨
      ∃ t ∈ queue, t.steps < u.steps := by
  -- Either the trail so far has been taken and extended, or a shorter one is still queued.
  induction hu with
  | first hs => exact .inl (h.seeded _ hs)
  | @extend u s _ hs ih =>
    obtain ⟨t, ht, hl, hle⟩ | ⟨t, ht, hlt⟩ := ih
    · obtain ht | ht := List.mem_append.1 ht
      · obtain ⟨v, hv, hs, hle'⟩ := (h.closed t ht).2 s (hl ▸ hs)
        exact .inl ⟨v, hv, hs, Nat.le_trans hle' (Nat.succ_le_succ hle)⟩
      · exact .inr ⟨t, ht, Nat.lt_succ_of_le hle⟩
    · exact .inr ⟨t, ht, Nat.lt_succ_of_lt hlt⟩

theorem shortest (h : graph.Explored start goal done (trail :: queue) met) {u : Trail}
    (hu : graph.Leads start u) (hg : u.last = goal) : trail.steps ≤ u.steps := by
  obtain ⟨-, behind⟩ := h.steps_le
  obtain ⟨t, ht, hl, hle⟩ | ⟨t, ht, hlt⟩ := h.met_or_waiting hu
  · obtain ht | ht := List.mem_append.1 ht
    · exact absurd (hl.trans hg) (h.closed t ht).1
    · exact Nat.le_trans (behind t ht).1 hle
  · exact Nat.le_trans (behind t ht).1 (Nat.le_of_lt hlt)

end Explored

/-- What every round keeps still holds when the goal is found at the head of the queue. -/
theorem searchTrails_hit {kept : List Trail → List Trail → List Symbol → Prop}
    (round : ∀ done trail queue met, kept done (trail :: queue) met → trail.last ≠ goal →
      kept (done ++ [trail])
        (queue ++ ((graph.successors trail.last).filter fun s => !met.contains s).map trail.extend)
        (met ++ (graph.successors trail.last).filter fun s => !met.contains s))
    {done queue : List Trail} {met path : List Symbol} {rounds : Nat} (h : kept done queue met)
    (found : searchTrails graph goal rounds queue met = some path) :
    ∃ done trail queue met, kept done (trail :: queue) met ∧ trail.last = goal ∧
      trail.path = path := by
  induction rounds generalizing done queue met with
  | zero => simp [searchTrails] at found
  | succ rounds ih =>
    cases queue with
    | nil => simp [searchTrails] at found
    | cons trail queue =>
      rw [searchTrails] at found
      split at found
      · rename_i hg
        exact ⟨done, trail, queue, met, h, hg, Option.some.inj found⟩
      · rename_i hg
        exact ih (round done trail queue met h hg) found

theorem searchTrails_some (proper : graph.Proper) {done queue : List Trail} {met path : List Symbol}
    {rounds : Nat} (h : graph.Explored start goal done queue met)
    (found : searchTrails graph goal rounds queue met = some path) :
    ∃ t, graph.Leads start t ∧ t.last = goal ∧ t.path = path ∧
      ∀ u, graph.Leads start u → u.last = goal → t.steps ≤ u.steps := by
  obtain ⟨done, trail, queue, met, h, hg, hp⟩ :=
    searchTrails_hit (fun _ _ _ _ h => h.round proper) h found
  exact ⟨trail, h.leads trail (by simp), hg, hp, fun u hu hg => h.shortest hu hg⟩

/-- There are enough rounds to take every symbol of the graph. -/
theorem searchTrails_none (proper : graph.Proper) {done queue : List Trail} {met : List Symbol}
    {rounds : Nat} (h : graph.Explored start goal done queue met)
    (enough : graph.nodes.length < rounds + done.length)
    (missed : searchTrails graph goal rounds queue met = none) :
    ∀ u, graph.Leads start u → u.last ≠ goal := by
  induction rounds generalizing done queue met with
  | zero =>
    -- Every round took another symbol, so more symbols than there are would have been met.
    have := h.length_le
    omega
  | succ rounds ih =>
    cases queue with
    | nil =>
      intro u hu hg
      obtain ⟨t, ht, hl, -⟩ | ⟨t, ht, -⟩ := h.met_or_waiting hu
      · rw [List.append_nil] at ht
        exact (h.closed t ht).1 (hl.trans hg)
      · simp at ht
    | cons trail queue =>
      rw [searchTrails] at missed
      split at missed
      · simp at missed
      · rename_i hg
        refine ih (h.round proper hg) ?_ missed
        rw [List.length_append, List.length_singleton]
        omega

theorem shortestTrail?_some {path : List Symbol}
    (h : (ofGrammar g).shortestTrail? start goal = some path) :
    g.ShortestPath start goal path := by
  have proper := proper_ofGrammar g
  obtain ⟨t, leads, rfl, rfl, least⟩ := searchTrails_some proper (.initial proper start goal) h
  refine ⟨leads.productionPath, fun other ho => ?_⟩
  obtain ⟨u, hu, hl, rfl⟩ := exists_trail ho
  rw [Trail.length_path, Trail.length_path]
  exact Nat.succ_le_succ (least u hu hl)

theorem shortestTrail?_none (h : (ofGrammar g).shortestTrail? start goal = none)
    (path : List Symbol) : ¬ g.ProductionPath start goal path := by
  intro hp
  have proper := proper_ofGrammar g
  obtain ⟨u, hu, hl, -⟩ := exists_trail hp
  exact searchTrails_none proper (.initial proper start goal) (by simp) h u hu hl

/-! ### Production paths and steps -/

theorem Leads.transGen {trail : Trail} (h : (ofGrammar g).Leads start trail) :
    Relation.TransGen g.Mentions start trail.last := by
  induction h with
  | first hs => exact .single (mem_successors.1 hs)
  | extend _ hs ih => exact ih.tail (mem_successors.1 hs)

theorem exists_productionPath_iff :
    (∃ path, g.ProductionPath start goal path) ↔ Relation.TransGen g.Mentions start goal := by
  constructor
  · rintro ⟨path, h⟩
    obtain ⟨trail, leads, rfl, -⟩ := exists_trail h
    exact leads.transGen
  · intro h
    induction h with
    | single step => exact ⟨_, .single step⟩
    | tail _ step ih =>
      obtain ⟨path, h⟩ := ih
      exact ⟨_, h.concat step⟩

theorem productionPath_iff {path : List Symbol} :
    g.ProductionPath start goal path ↔
      path.head? = some start ∧ path.getLast? = some goal ∧ 2 ≤ path.length ∧
        path.IsChain g.Mentions := by
  constructor
  · rintro ⟨⟨middle, rfl⟩, steps⟩
    rw [← List.cons_append] at steps ⊢
    exact ⟨rfl, List.getLast?_concat, by simp, steps⟩
  · rintro ⟨head, last, long, steps⟩
    obtain ⟨rest, rfl⟩ := List.head?_eq_some_iff.1 head
    have behind : rest ≠ [] := by
      rintro rfl
      simp at long
    rw [List.getLast?_cons_of_ne_nil behind] at last
    obtain ⟨middle, rfl⟩ := List.getLast?_eq_some_iff.1 last
    exact ⟨⟨middle, rfl⟩, steps⟩

end ProductionGraph

end Scion
