import Mathlib.Data.Set.Card
import Scion.Proofs.Graft.Frontier

/-!
Every search comes to an end. A phase of seeking examines each identity of the target at most once
and queues fewer nodes at each examination than the target has; and a phase begins only with a
wrapper, of which there is at most one for each pair of a symbol and a possible parent. A measure
built from these bounds falls with every move, so neither the search for the next result nor that
for all results runs out of the steps it is allotted.
-/

namespace Scion

namespace ParentIndex

/-- Every symbol with each of its parents. -/
def pairs (index : ParentIndex) : List (Symbol × Symbol) :=
  index.flatMap fun entry => entry.2.map fun parent => (entry.1, parent)

theorem length_pairs (index : ParentIndex) :
    index.pairs.length = (index.flatMap (·.2)).length := by
  simp [pairs, List.length_flatMap]

theorem mem_pairs_of_mem_parents {index : ParentIndex} {s parent : Symbol}
    (h : parent ∈ index.parents s) : (s, parent) ∈ index.pairs := by
  induction index with
  | nil => simp [parents] at h
  | cons entry rest ih =>
    rw [parents] at h
    rw [pairs, List.flatMap_cons, List.mem_append]
    split at h
    · rename_i hs
      exact .inl (List.mem_map.2 ⟨parent, h, by rw [hs]⟩)
    · exact .inr (ih h)

end ParentIndex

namespace Site

variable {site : Site} {s s' : Search} {node : DerivationTree} {finding : Finding}

/-- The bounds that a search keeps: it examines identities of the target, none twice since the last
wrapping, and wraps for pairs of a symbol and a possible parent, none twice. -/
structure Bounded (site : Site) (s : Search) : Prop where
  frontier : site.FrontierWithin s
  visited_nodup : s.visited.Nodup
  visited_known : s.visited ⊆ site.target.ids
  tried_nodup : s.tried.Nodup
  tried_known : ∀ q ∈ s.tried, q.2 ∈ site.grammar.possibleParents q.1
  extensions : s.extensions + s.wrappers.length ≤ s.tried.length

namespace Bounded

theorem visited_length_le (h : site.Bounded s) :
    s.visited.length ≤ site.target.ids.toFinset.card := by
  rw [← List.toFinset_card_of_nodup h.visited_nodup]
  refine Finset.card_le_card fun i hi => List.mem_toFinset.2 ?_
  exact h.visited_known (List.mem_toFinset.1 hi)

theorem visited_length_le_size (h : site.Bounded s) : s.visited.length ≤ site.target.size := by
  have bound := (List.subperm_of_subset h.visited_nodup h.visited_known).length_le
  rwa [Tree.ids, List.length_map, Tree.length_preorder] at bound

theorem tried_subset (h : site.Bounded s) : s.tried ⊆ site.grammar.parentIndex.pairs :=
  fun q hq => ParentIndex.mem_pairs_of_mem_parents (h.tried_known q hq)

theorem tried_length_le (h : site.Bounded s) :
    s.tried.length ≤ site.grammar.parentIndex.pairs.length :=
  (List.subperm_of_subset h.tried_nodup h.tried_subset).length_le

theorem extensions_le (h : site.Bounded s) :
    s.extensions ≤ {q : Symbol × Symbol | q.2 ∈ site.grammar.possibleParents q.1}.ncard := by
  have finite : {q : Symbol × Symbol | q.2 ∈ site.grammar.possibleParents q.1}.Finite :=
    (List.finite_toSet site.grammar.parentIndex.pairs).subset
      fun q hq => ParentIndex.mem_pairs_of_mem_parents hq
  have tried : (s.tried.toFinset : Set (Symbol × Symbol)).ncard ≤
      {q : Symbol × Symbol | q.2 ∈ site.grammar.possibleParents q.1}.ncard :=
    Set.ncard_le_ncard (fun q hq => h.tried_known q (List.mem_toFinset.1 hq)) finite
  rw [Set.ncard_coe_finset, List.toFinset_card_of_nodup h.tried_nodup] at tried
  have := h.extensions
  omega

theorem start (site : Site) (insert : DerivationTree) (next : NodeId) :
    site.Bounded (site.start insert next) where
  frontier := site.frontierWithin_start insert next
  visited_nodup := List.nodup_nil
  visited_known := List.nil_subset _
  tried_nodup := List.nodup_nil
  tried_known := by simp [Site.start]
  extensions := by simp [Site.start]

theorem wrapping {parent : Symbol} (h : site.Bounded s)
    (known : parent ∈ site.grammar.possibleParents s.insertSymbol)
    (wrapping : site.Wrapping s parent s') : site.Bounded s' := by
  have grown (untried : (s.insertSymbol, parent) ∉ s.tried) :
      ((s.insertSymbol, parent) :: s.tried).Nodup ∧
        ∀ q ∈ (s.insertSymbol, parent) :: s.tried,
          q.2 ∈ site.grammar.possibleParents q.1 :=
    ⟨List.nodup_cons.2 ⟨untried, h.tried_nodup⟩, List.forall_mem_cons.2 ⟨known, h.tried_known⟩⟩
  have extensions := h.extensions
  cases wrapping with
  | known => exact h
  | queued untried =>
    obtain ⟨nodup, known⟩ := grown untried
    refine { h with tried_nodup := nodup, tried_known := known, extensions := ?_ }
    simp only [List.length_append, List.length_cons, List.length_nil]
    omega
  | refused untried =>
    obtain ⟨nodup, known⟩ := grown untried
    refine { h with tried_nodup := nodup, tried_known := known, extensions := ?_ }
    simp only [List.length_cons]
    omega

end Bounded

/-- Phases of seeking that may still begin: one for each queued wrapper and each untried pair. -/
def phasesLeft (site : Site) (s : Search) : Nat :=
  s.wrappers.length + (site.grammar.parentIndex.pairs.length - s.tried.length)

theorem Bounded.queueWrappers (h : site.Bounded s) :
    site.Bounded (site.queueWrappers s) ∧
      site.phasesLeft (site.queueWrappers s) ≤ site.phasesLeft s := by
  refine queueWrappers_induct
    (motive := fun u => site.Bounded u ∧ site.phasesLeft u ≤ site.phasesLeft s)
    ⟨h, Nat.le_refl _⟩ ?_
  rintro u u' parent known same wrapping ⟨hu, left⟩
  have hu' := hu.wrapping (same.2 ▸ known) wrapping
  refine ⟨hu', ?_⟩
  have bound := hu'.tried_length_le
  rw [phasesLeft] at left ⊢
  cases wrapping with
  | known => exact left
  | queued =>
    simp only [List.length_append, List.length_cons, List.length_nil] at bound ⊢
    omega
  | refused =>
    simp only [List.length_cons] at bound ⊢
    omega

theorem Bounded.move (h : site.Bounded s) (move : site.Move s finding s') : site.Bounded s' := by
  have within := h.frontier.move move
  cases move with
  | finished => exact h
  | turn => exact { h with }
  | skip => exact { h with frontier := within }
  | @examine node rest _ _ _ hf fresh trial =>
    obtain ⟨queued, next, rfl, -⟩ := trial.frame
    have known : node.id ∈ site.target.ids :=
      Tree.id_mem_ids (h.frontier node (hf ▸ List.mem_cons_self))
    exact { h with
      frontier := within
      visited_nodup := List.nodup_cons.2 ⟨fresh, h.visited_nodup⟩
      visited_known := List.cons_subset.2 ⟨known, h.visited_known⟩ }
  | @wrap wrapper rest _ _ hw =>
    obtain ⟨h', -⟩ := h.queueWrappers
    have extensions := h'.extensions
    rw [hw, List.length_cons] at extensions
    exact { h' with
      frontier := within
      visited_nodup := List.nodup_nil
      visited_known := List.nil_subset _
      extensions := by simp only; omega }
  | exhaust =>
    obtain ⟨h', -⟩ := h.queueWrappers
    exact { h' with }

/-- More than the moves that are left: an examination may queue as many nodes as the target has. -/
def stepsLeft (site : Site) (s : Search) : Nat :=
  site.phasesLeft s * (site.target.size * site.target.size + 3) +
    match s.phase with
    | .seek =>
      s.frontier.length + (site.target.size - s.visited.length) * site.target.size + 2
    | .extend => 1
    | .done => 0

theorem Bounded.stepsLeft_lt (h : site.Bounded s) (running : s.phase ≠ .done)
    (move : site.Move s finding s') : site.stepsLeft s' < site.stepsLeft s := by
  have h' := h.move move
  cases move with
  | finished hp => exact absurd hp running
  | turn hp =>
    simp only [stepsLeft, hp]
    exact Nat.add_lt_add_left (by omega) _
  | skip hp hf =>
    simp only [stepsLeft, hp, hf, List.length_cons]
    exact Nat.add_lt_add_left (by omega) _
  | @examine node rest _ _ hp hf _ trial =>
    -- One more identity is examined, which outweighs the nodes that are queued.
    obtain ⟨queued, next, rfl, -, -, few⟩ := trial.frame
    have seen := h'.visited_length_le_size
    have inside := (Tree.preorder_sublist (h.frontier node (hf ▸ List.mem_cons_self))).length_le
    rw [Tree.length_preorder, Tree.length_preorder] at inside
    simp only [List.length_cons] at seen
    simp only [stepsLeft, hp, hf, List.length_append, List.length_cons]
    refine Nat.add_lt_add_left ?_ _
    have round : site.target.size - s.visited.length =
        site.target.size - (s.visited.length + 1) + 1 := by omega
    rw [round, Nat.succ_mul]
    omega
  | @wrap wrapper rest hp _ hw =>
    -- The phase that begins is one of those that were left.
    obtain ⟨-, left⟩ := h.queueWrappers
    rw [phasesLeft, hw, List.length_cons] at left
    have fewer : site.phasesLeft s = site.phasesLeft s - 1 + 1 := by omega
    simp only [stepsLeft, hp]
    rw [fewer, Nat.succ_mul]
    have rest : rest.length + (site.grammar.parentIndex.pairs.length -
        (site.queueWrappers s).tried.length) ≤ site.phasesLeft s - 1 := by omega
    have := Nat.mul_le_mul_right (site.target.size * site.target.size + 3) rest
    simp only [phasesLeft, List.length_cons, List.length_nil, Nat.sub_zero] at this ⊢
    omega
  | exhaust hp =>
    obtain ⟨-, left⟩ := h.queueWrappers
    simp only [stepsLeft, hp]
    exact Nat.lt_succ_of_le (Nat.mul_le_mul_right _ left)

theorem stepsLeft_lt_stepBound (site : Site) (s : Search) :
    site.stepsLeft s < site.stepBound s := by
  have phases : site.phasesLeft s ≤
      s.wrappers.length + (site.grammar.parentIndex.flatMap (·.2)).length := by
    rw [phasesLeft, ParentIndex.length_pairs]
    omega
  have all := Nat.mul_le_mul_right (site.target.size * site.target.size + 3) phases
  have round := Nat.mul_le_mul_right site.target.size
    (Nat.sub_le site.target.size s.visited.length)
  simp only [stepsLeft, stepBound]
  rw [Nat.mul_comm (site.target.size * site.target.size + 3), Nat.add_mul _ 2]
  cases s.phase with
  | seek =>
    simp only
    omega
  | extend =>
    simp only
    omega
  | done =>
    simp only
    omega

end Site

def Finding.examined : Finding → Nat
  | candidate _ => 1
  | discarded => 1
  | idle => 0
  | exhausted => 0

/-- Between two wrappings every identity of the target is examined at most once. -/
theorem Site.Bounded.examined_le {site : Site} {s s' : Search} {finding : Finding}
    (h : site.Bounded s) (move : site.Move s finding s') :
    s.extensions * site.target.ids.toFinset.card + s.visited.length + finding.examined ≤
      s'.extensions * site.target.ids.toFinset.card + s'.visited.length := by
  cases move with
  | finished => simp [Finding.examined]
  | turn => simp [Finding.examined]
  | skip => simp [Finding.examined]
  | examine _ _ _ trial =>
    obtain ⟨queued, next, rfl, -⟩ := trial.frame
    have once : finding.examined ≤ 1 := by cases finding <;> simp [Finding.examined]
    simp only [List.length_cons]
    omega
  | wrap =>
    have := h.visited_length_le
    obtain ⟨_, _, _, frame⟩ := site.queueWrappers_frame s
    simp only [frame, Finding.examined, Nat.succ_mul, List.length_nil]
    omega
  | exhaust =>
    obtain ⟨_, _, _, frame⟩ := site.queueWrappers_frame s
    simp [frame, Finding.examined]

namespace GraftRun

theorem Judgement.counts {run run' : GraftRun} {t : DerivationTree} {answer : GraftStep}
    (h : run.Judgement t answer run') :
    run'.stats.extensions = run.stats.extensions ∧
      run'.stats.candidates = run.stats.candidates := by
  cases h <;> exact ⟨rfl, rfl⟩

theorem Transition.counts {run run' : GraftRun} {answer : GraftStep}
    (h : run.Transition answer run') (going : ¬ run.limitReached) :
    run'.stats.extensions = run'.search.extensions ∧
      run'.stats.candidates =
        run.stats.candidates + (run.site.step run.search).1.examined := by
  cases h with
  | stop limit => exact absurd limit going
  | exhausted _ hs => exact ⟨rfl, by rw [hs]; rfl⟩
  | idle _ hs => exact ⟨rfl, by rw [hs]; rfl⟩
  | discarded _ hs => exact ⟨rfl, by rw [hs]; rfl⟩
  | submit _ hs judgement =>
    obtain ⟨extensions, candidates⟩ := judgement.counts
    exact ⟨by rw [extensions, judgement.frame.2]; rfl, by rw [candidates, hs]; rfl⟩

/-- One call for the next result: steps are taken until one emits a tree or reports the end. -/
inductive Pulls : GraftRun → Option DerivationTree × GraftRun → Prop
  | emit {run run' : GraftRun} {t : DerivationTree} :
      run.step = (.emit t, run') → Pulls run (some t, run')
  | proceed {run run' : GraftRun} {out : Option DerivationTree × GraftRun} :
      run.step = (.continue, run') → Pulls run' out → Pulls run out
  | done {run run' : GraftRun} : run.step = (.done, run') → Pulls run (none, run')

/-- Calls for results until there is no further one. -/
inductive Collects : GraftRun → List DerivationTree × GraftRun → Prop
  | last {run run' : GraftRun} : Pulls run (none, run') → Collects run ([], run')
  | more {run run' run'' : GraftRun} {t : DerivationTree} {ts : List DerivationTree} :
      Pulls run (some t, run') → Collects run' (ts, run'') → Collects run (t :: ts, run'')

theorem Collects.proceed {run run' : GraftRun} {out : List DerivationTree × GraftRun}
    (h : run.step = (.continue, run')) (rest : Collects run' out) : Collects run out := by
  cases rest with
  | last pull => exact .last (.proceed h pull)
  | more pull rest => exact .more (.proceed h pull) rest

theorem step_of_done {run : GraftRun} (h : run.search.phase = .done) :
    run.step.1 = .done ∧ run.step.2.search.phase = .done := by
  rw [step]
  split
  · exact ⟨rfl, rfl⟩
  · simp [work, Site.step, h]

end GraftRun

namespace GraftRequest

variable {request : GraftRequest} {next : NodeId} {run : GraftRun}

theorem Reaches.bounded (h : request.Reaches next run) : request.site.Bounded run.search :=
  h.search_induct (.start request.site request.insert next)
    (fun _ _ _ move bounded => bounded.move move) fun _ bounded => { bounded with }

/-- A step of a run that is not over is a move, or it stops the search at once. -/
theorem Reaches.stepsLeft_lt (h : request.Reaches next run) (running : run.search.phase ≠ .done) :
    request.site.stepsLeft run.step.2.search < request.site.stepsLeft run.search := by
  rw [(GraftRun.step_frame run).2]
  split
  · have offset : request.site.stepsLeft { run.search with phase := .done } =
        request.site.phasesLeft run.search *
          (request.site.target.size * request.site.target.size + 3) := rfl
    rw [offset, Site.stepsLeft]
    cases hp : run.search.phase with
    | seek => exact Nat.lt_add_of_pos_right (by simp)
    | extend => exact Nat.lt_add_of_pos_right (by simp)
    | done => exact absurd hp running
  · rw [h.site_eq]
    exact h.bounded.stepsLeft_lt running (request.site.step_move _)

/-- A run is over when as many steps have been taken as were left. -/
theorem Reaches.phase_after (h : request.Reaches next run) {n : Nat}
    (enough : request.site.stepsLeft run.search < n) : (run.after n).search.phase = .done := by
  have progress : ∀ n, (run.after n).search.phase = .done ∨
      request.site.stepsLeft (run.after n).search + n ≤ request.site.stepsLeft run.search := by
    intro n
    induction n with
    | zero => exact .inr (Nat.le_refl _)
    | succ n ih =>
      by_cases hp : (run.after n).search.phase = .done
      · exact .inl (GraftRun.step_of_done hp).2
      · have fewer := (reaches_after h n).stepsLeft_lt hp
        have left := ih.resolve_left hp
        exact .inr (by rw [GraftRun.after]; omega)
  exact (progress n).resolve_right (by omega)

theorem Reaches.stepsLeft_step (h : request.Reaches next run) {answer : GraftStep}
    {run' : GraftRun} (hs : run.step = (answer, run')) (going : answer ≠ .done) :
    request.Reaches next run' ∧
      request.site.stepsLeft run'.search < request.site.stepsLeft run.search := by
  have running : run.search.phase ≠ .done := by
    intro hp
    have ended := (GraftRun.step_of_done hp).1
    rw [hs] at ended
    exact going ended
  obtain rfl : run.step.2 = run' := by rw [hs]
  exact ⟨h.step, h.stepsLeft_lt running⟩

theorem Reaches.pulls_advance (h : request.Reaches next run) {n : Nat}
    (enough : request.site.stepsLeft run.search < n) : run.Pulls (GraftRun.advance n run) := by
  induction n generalizing run with
  | zero => exact absurd enough (Nat.not_lt_zero _)
  | succ n ih =>
    rw [GraftRun.advance]
    split
    · rename_i t run' hs
      exact .emit hs
    · rename_i run' hs
      obtain ⟨h', fewer⟩ := h.stepsLeft_step hs (by simp)
      exact .proceed hs (ih h' (by omega))
    · rename_i run' hs
      exact .done hs

theorem Reaches.collects_drain (h : request.Reaches next run) {n : Nat}
    (enough : request.site.stepsLeft run.search < n) : run.Collects (GraftRun.drain n run) := by
  induction n generalizing run with
  | zero => exact absurd enough (Nat.not_lt_zero _)
  | succ n ih =>
    rw [GraftRun.drain]
    split
    · rename_i t run' hs
      obtain ⟨h', fewer⟩ := h.stepsLeft_step hs (by simp)
      exact .more (.emit hs) (ih h' (by omega))
    · rename_i run' hs
      obtain ⟨h', fewer⟩ := h.stepsLeft_step hs (by simp)
      exact .proceed hs (ih h' (by omega))
    · rename_i run' hs
      exact .last (.done hs)

theorem Reaches.counts (h : request.Reaches next run) :
    run.stats.extensions = run.search.extensions ∧
      run.stats.candidates ≤ run.search.extensions * request.target.ids.toFinset.card +
        run.search.visited.length := by
  induction h with
  | start => exact ⟨rfl, Nat.zero_le _⟩
  | @step run h ih =>
    obtain ⟨extensions, candidates⟩ := ih
    by_cases stopped : run.limitReached
    · rw [GraftRun.step, if_pos stopped]
      exact ⟨extensions, candidates⟩
    · have searched := (GraftRun.step_frame run).2
      have examined := h.bounded.examined_le (request.site.step_move run.search)
      obtain ⟨he, hc⟩ := run.step_transition.counts stopped
      rw [if_neg stopped, h.site_eq] at searched
      rw [h.site_eq] at hc
      refine ⟨he, ?_⟩
      rw [hc, searched]
      exact Nat.le_trans (Nat.add_le_add_right candidates _) examined

/-- A run is over after finitely many steps. Calls for the next result and for all results return,
and the counters stay within bounds that depend on grammar and target alone. -/
theorem run_terminates (request : GraftRequest) (next : NodeId) :
    (∃ n, ∀ m, ((request.start next).after (n + m)).search.phase = .done ∧
        ((request.start next).after (n + m)).step.1 = .done) ∧
      ∀ k, let run := (request.start next).after k
        run.Pulls run.next? ∧ run.Collects run.results ∧
          run.stats.extensions ≤
            {q : Symbol × Symbol | q.2 ∈ request.grammar.possibleParents q.1}.ncard ∧
          run.stats.candidates ≤
            (run.stats.extensions + 1) * request.target.ids.toFinset.card := by
  refine ⟨⟨request.site.stepBound (request.start next).search, fun m => ?_⟩, fun k => ?_⟩
  · have bound := request.site.stepsLeft_lt_stepBound (request.start next).search
    have ended := Reaches.phase_after .start (Nat.lt_of_lt_of_le bound (Nat.le_add_right _ m))
    exact ⟨ended, (GraftRun.step_of_done ended).1⟩
  · intro run
    have h : request.Reaches next run := reaches_after .start k
    have enough : request.site.stepsLeft run.search < run.site.stepBound run.search :=
      h.site_eq ▸ request.site.stepsLeft_lt_stepBound run.search
    obtain ⟨extensions, candidates⟩ := h.counts
    refine ⟨h.pulls_advance enough, h.collects_drain enough, ?_, ?_⟩
    · exact extensions ▸ h.bounded.extensions_le
    · have visited := h.bounded.visited_length_le
      rw [extensions, Nat.succ_mul]
      exact Nat.le_trans candidates (Nat.add_le_add_left visited _)

end GraftRequest

end Scion
