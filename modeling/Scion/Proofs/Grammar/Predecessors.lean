import Mathlib.Data.List.Nodup
import Scion.Proofs.Grammar.Reachability

/-!
Shortest production paths. A search keeps for each symbol only the one from which it was met; the
way back from a symbol is then the trail on which it was met. A first meeting is never changed, so
an entry holds for the rest of the search, and no trail goes on from the start once it came back
there. Hence every way back ends, at the start.
-/

namespace Scion

namespace ProductionGraph

variable {g : Grammar} {graph : ProductionGraph} {start goal s : Symbol}

namespace Wave

variable {wave : Wave} {source : Symbol}

def met (wave : Wave) : List Symbol := wave.predecessors.map Prod.fst

theorem map_fst_entries (symbols : List Symbol) (source : Symbol) :
    (symbols.map (·, source)).map Prod.fst = symbols := by
  rw [List.map_map]
  exact List.map_id symbols

theorem isSome_lookup_iff : (wave.predecessors.lookup s).isSome ↔ s ∈ wave.met := by
  rw [List.lookup_isSome_iff, met, List.mem_map]
  simp only [beq_iff_eq, eq_comm (a := s)]

theorem meet_of_mem (h : s ∈ wave.met) : wave.meet source s = wave := by
  rw [meet, if_pos (isSome_lookup_iff.2 h)]

theorem meet_of_not_mem (h : s ∉ wave.met) :
    wave.meet source s = ⟨wave.predecessors ++ [(s, source)], wave.queue ++ [s]⟩ := by
  rw [meet, if_neg (mt isSome_lookup_iff.1 h)]

/-- The neighbours that were not met before are entered and queued, in their order. -/
theorem foldl_meet {symbols : List Symbol} (distinct : symbols.Nodup) :
    symbols.foldl (meet source) wave =
      ⟨wave.predecessors ++ (symbols.filter fun s => !wave.met.contains s).map (·, source),
        wave.queue ++ symbols.filter fun s => !wave.met.contains s⟩ := by
  induction symbols generalizing wave with
  | nil => simp
  | cons s rest ih =>
    obtain ⟨apart, distinct⟩ := List.nodup_cons.1 distinct
    rw [List.foldl_cons, ih distinct]
    by_cases known : s ∈ wave.met
    · rw [meet_of_mem known]
      simp [known]
    · have later : (wave.meet source s).met = wave.met ++ [s] := by
        rw [meet_of_not_mem known]
        simp [met]
      have same : (rest.filter fun t => !(wave.meet source s).met.contains t) =
          rest.filter fun t => !wave.met.contains t := by
        refine List.filter_congr fun t ht => ?_
        have other : t ≠ s := fun h => apart (h ▸ ht)
        simp [later, other]
      rw [same, meet_of_not_mem known]
      simp [known]

end Wave

/-! ### Ways back -/

/-- The entries spell the trail out, back to the start and no further. -/
inductive Spells (predecessors : List (Symbol × Symbol)) (start : Symbol) : Trail → Prop
  | first {s : Symbol} : predecessors.lookup s = some start → Spells predecessors start ⟨s, [start]⟩
  | extend {t : Trail} {s : Symbol} : Spells predecessors start t → t.last ≠ start →
      predecessors.lookup s = some t.last → Spells predecessors start (t.extend s)

namespace Spells

variable {predecessors : List (Symbol × Symbol)} {trail : Trail}

theorem wayBack?_eq (h : Spells predecessors start trail) {steps : Nat}
    (enough : trail.steps ≤ steps) :
    wayBack? predecessors start steps trail.last = some trail.before := by
  induction h generalizing steps with
  | first found =>
    obtain ⟨steps, rfl⟩ := Nat.exists_eq_add_of_le' enough
    simp [wayBack?, Trail.steps, found]
  | @extend t s _ other found ih =>
    rw [Trail.steps_extend] at enough
    obtain ⟨steps, rfl⟩ := Nat.exists_eq_add_of_le' enough
    rw [← Nat.add_assoc, Trail.last_extend, wayBack?, found]
    simp [other, ih (Nat.le_add_left t.steps steps), Trail.extend]

/-- Entries are only added. -/
theorem append (h : Spells predecessors start trail) (entries : List (Symbol × Symbol)) :
    Spells (predecessors ++ entries) start trail := by
  have kept {s source : Symbol} (found : predecessors.lookup s = some source) :
      (predecessors ++ entries).lookup s = some source := by
    rw [List.lookup_append, found, Option.some_or]
  induction h with
  | first found => exact .first (kept found)
  | extend _ other found ih => exact .extend ih other (kept found)

end Spells

theorem lookup_map_mk {symbols : List Symbol} {source : Symbol} (h : s ∈ symbols) :
    (symbols.map (·, source)).lookup s = some source := by
  induction symbols with
  | nil => simp at h
  | cons t rest ih =>
    rw [List.map_cons, List.lookup_cons]
    by_cases same : s = t
    · simp [same]
    · rw [beq_false_of_ne same]
      exact ih ((List.mem_cons.1 h).resolve_left same)

/-! ### The two searches -/

/-- The wave holds the ends of the queued trails and the entries that spell them out. -/
structure Wave.Carries (wave : Wave) (start : Symbol) (trails : List Trail) (met : List Symbol) :
    Prop where
  met_eq : wave.met = met
  queue_eq : wave.queue = trails.map Trail.last
  spells : ∀ t ∈ trails, Spells wave.predecessors start t
  steps_le : ∀ t ∈ trails, t.steps ≤ wave.predecessors.length

namespace Wave.Carries

variable {wave : Wave} {trail : Trail} {done queue : List Trail} {met : List Symbol}

theorem initial (proper : graph.Proper) (start : Symbol) :
    (graph.explore ⟨[], []⟩ start).Carries start
      ((graph.successors start).map fun s => ⟨s, [start]⟩) (graph.successors start) := by
  have seeded : graph.explore ⟨[], []⟩ start =
      ⟨(graph.successors start).map (·, start), graph.successors start⟩ := by
    rw [explore, foldl_meet (proper.nodup start)]
    simp [Wave.met]
  rw [seeded]
  constructor
  case met_eq => exact map_fst_entries ..
  case queue_eq => exact (Trail.map_last_first ..).symm
  case spells =>
    rw [List.forall_mem_map]
    exact fun s hs => .first (lookup_map_mk hs)
  case steps_le =>
    rw [List.forall_mem_map, List.length_map]
    exact fun s hs => List.length_pos_of_mem hs

/-- Everything next to the start was met in the beginning, so a trail that came back to the start
leads to nothing new. -/
theorem round (proper : graph.Proper)
    (explored : graph.Explored start goal done (trail :: queue) met)
    (h : wave.Carries start (trail :: queue) met) :
    (graph.explore ⟨wave.predecessors, queue.map Trail.last⟩ trail.last).Carries start
      (queue ++ ((graph.successors trail.last).filter fun s => !met.contains s).map trail.extend)
      (met ++ (graph.successors trail.last).filter fun s => !met.contains s) := by
  have same : wave.predecessors.map Prod.fst = met := h.met_eq
  have onward : ∀ s ∈ (graph.successors trail.last).filter fun s => !met.contains s,
      s ∉ met ∧ trail.last ≠ start := by
    intro s hs
    obtain ⟨edge, fresh⟩ : s ∈ graph.successors trail.last ∧ s ∉ met := by simpa using hs
    refine ⟨fresh, fun back => fresh (explored.mem_met.2 ?_)⟩
    obtain ⟨u, hu, hl, -⟩ := explored.seeded s (back ▸ edge)
    exact ⟨u, hu, hl⟩
  rw [explore, foldl_meet (proper.nodup trail.last)]
  simp only [Wave.met, same]
  generalize (graph.successors trail.last).filter (fun s => !met.contains s) = symbols at onward
  constructor
  case met_eq => rw [Wave.met, List.map_append, same, map_fst_entries]
  case queue_eq => rw [List.map_append, Trail.map_last_extend]
  case spells =>
    rw [List.forall_mem_append, List.forall_mem_map]
    refine ⟨fun t ht => (h.spells t (List.mem_cons_of_mem _ ht)).append _, fun s hs => ?_⟩
    obtain ⟨fresh, other⟩ := onward s hs
    refine .extend ((h.spells trail List.mem_cons_self).append _) other ?_
    have vacant : wave.predecessors.lookup s = none := by
      rw [← Option.not_isSome_iff_eq_none, isSome_lookup_iff, h.met_eq]
      exact fresh
    rw [List.lookup_append, vacant, Option.none_or, lookup_map_mk hs]
  case steps_le =>
    rw [List.forall_mem_append, List.forall_mem_map, List.length_append, List.length_map]
    refine ⟨fun t ht => ?_, fun s hs => ?_⟩
    · exact Nat.le_add_right_of_le (h.steps_le t (List.mem_cons_of_mem _ ht))
    · exact Nat.add_le_add (h.steps_le trail List.mem_cons_self) (List.length_pos_of_mem hs)

end Wave.Carries

/-- What a search over trails answers. -/
def Answer.ofPath? : Option (List Symbol) → Answer
  | some symbols => .path symbols
  | none => .unreachable

/-- Both searches take the same rounds, and the way back from the goal is the trail that leads to
it. -/
theorem search_eq (proper : graph.Proper) {done queue : List Trail} {met : List Symbol}
    {wave : Wave} {rounds : Nat} (explored : graph.Explored start goal done queue met)
    (carries : wave.Carries start queue met) (enough : graph.nodes.length < rounds + done.length) :
    search graph start goal rounds wave = .ofPath? (searchTrails graph goal rounds queue met) := by
  induction rounds generalizing done queue met wave with
  | zero =>
    have := explored.length_le
    omega
  | succ rounds ih =>
    obtain ⟨predecessors, waiting⟩ := wave
    cases queue with
    | nil =>
      obtain rfl : waiting = [] := carries.queue_eq
      rfl
    | cons trail queue =>
      obtain rfl : waiting = trail.last :: queue.map Trail.last := carries.queue_eq
      rw [search, searchTrails]
      by_cases hit : trail.last = goal
      · rw [if_pos hit, if_pos hit]
        have back := (carries.spells trail List.mem_cons_self).wayBack?_eq
          (carries.steps_le trail List.mem_cons_self)
        simp only [back, Answer.ofPath?, Trail.path]
      · rw [if_neg hit, if_neg hit]
        refine ih (explored.round proper hit) (carries.round proper explored) ?_
        rw [List.length_append, List.length_singleton]
        omega

/-! ### What is found -/

theorem not_productionPath_of_unknown (unknown : ¬ g.Knows start ∨ ¬ g.Knows goal)
    (path : List Symbol) : ¬ g.ProductionPath start goal path := by
  intro h
  have steps := exists_productionPath_iff.1 ⟨path, h⟩
  obtain ⟨_, first, -⟩ := Relation.TransGen.head'_iff.1 steps
  obtain ⟨_, -, final⟩ := Relation.TransGen.tail'_iff.1 steps
  exact unknown.elim (· first.knows.1) (· final.knows.2)

theorem answer_eq (g : Grammar) (start goal : Symbol) :
    (ofGrammar g).answer start goal = .ofPath? ((ofGrammar g).shortestTrail? start goal) := by
  have proper := proper_ofGrammar g
  rw [answer]
  split
  · exact search_eq proper (.initial proper start goal) (.initial proper start) (by simp)
  · rename_i unknown
    rw [mem_nodes, mem_nodes, Classical.not_and_iff_not_or_not] at unknown
    cases found : (ofGrammar g).shortestTrail? start goal with
    | none => rfl
    | some path =>
      exact absurd (shortestTrail?_some found).toProductionPath
        (not_productionPath_of_unknown unknown path)

theorem answer_ne_stuck (g : Grammar) (start goal : Symbol) :
    (ofGrammar g).answer start goal ≠ .stuck := by
  rw [answer_eq]
  cases (ofGrammar g).shortestTrail? start goal <;> exact Answer.noConfusion

theorem shortestPath?_eq_shortestTrail? (g : Grammar) :
    (ofGrammar g).shortestPath? = (ofGrammar g).shortestTrail? := by
  funext start goal
  rw [shortestPath?, answer_eq]
  cases (ofGrammar g).shortestTrail? start goal <;> rfl

theorem shortestPath?_some {path : List Symbol}
    (h : (ofGrammar g).shortestPath? start goal = some path) :
    g.ShortestPath start goal path :=
  shortestTrail?_some (shortestPath?_eq_shortestTrail? g ▸ h)

theorem shortestPath?_none (h : (ofGrammar g).shortestPath? start goal = none)
    (path : List Symbol) : ¬ g.ProductionPath start goal path :=
  shortestTrail?_none (shortestPath?_eq_shortestTrail? g ▸ h) path

theorem exists_shortestPath?_iff :
    (∃ path, (ofGrammar g).shortestPath? start goal = some path) ↔
      Relation.TransGen g.Mentions start goal := by
  rw [← exists_productionPath_iff]
  constructor
  · rintro ⟨path, h⟩
    exact ⟨path, (shortestPath?_some h).toProductionPath⟩
  · rintro ⟨path, h⟩
    cases hp : (ofGrammar g).shortestPath? start goal with
    | none => exact absurd h (shortestPath?_none hp path)
    | some other => exact ⟨other, rfl⟩

/-- The search always comes to an end, and so does every way back from a goal. A path is found
exactly when one or more production steps lead from the start to the goal, also when the two are the
same symbol. It consists of such steps, and there is no shorter one. A symbol that no rule knows has
none. -/
theorem shortestPath?_exact (g : Grammar) (start goal : Symbol) :
    (ofGrammar g).answer start goal ≠ .stuck ∧
      ((∃ path, (ofGrammar g).shortestPath? start goal = some path) ↔
        Relation.TransGen g.Mentions start goal) ∧
      (∀ path, (ofGrammar g).shortestPath? start goal = some path →
        path.head? = some start ∧ path.getLast? = some goal ∧ 2 ≤ path.length ∧
          path.IsChain g.Mentions ∧
          ∀ other : List Symbol, other.head? = some start → other.getLast? = some goal →
            2 ≤ other.length → other.IsChain g.Mentions → path.length ≤ other.length) ∧
      (¬ g.Knows start ∨ ¬ g.Knows goal → (ofGrammar g).shortestPath? start goal = none) := by
  refine ⟨answer_ne_stuck g start goal, exists_shortestPath?_iff, fun path h => ?_,
    fun unknown => ?_⟩
  · have shortest := shortestPath?_some h
    obtain ⟨head, last, long, steps⟩ := productionPath_iff.1 shortest.toProductionPath
    exact ⟨head, last, long, steps, fun other head last long steps =>
      shortest.least other (productionPath_iff.2 ⟨head, last, long, steps⟩)⟩
  · rw [Option.eq_none_iff_forall_ne_some]
    intro path h
    exact not_productionPath_of_unknown unknown path (shortestPath?_some h).toProductionPath

-- The way from a symbol back to itself is a cycle, not the symbol alone.
example :
    let list : ProductionGraph :=
      ⟨[⟨"<list>"⟩, ⟨"<rest>"⟩], [(⟨"<list>"⟩, [⟨"<rest>"⟩]), (⟨"<rest>"⟩, [⟨"<list>"⟩])]⟩
    list.shortestPath? ⟨"<list>"⟩ ⟨"<list>"⟩ = some [⟨"<list>"⟩, ⟨"<rest>"⟩, ⟨"<list>"⟩] := by
  decide

end ProductionGraph

end Scion
