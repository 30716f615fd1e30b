import Scion.Proofs.Graft.Fillers

/-!
The switch for trivial expansions decides about fillers only. A run without expansions and a run with
them go side by side: at every step both find a candidate or neither does, so they submit equally many
trees to judgement, and the trees at one place in the two sequences are twins. Which of them are
emitted may differ, because their texts do; what has been examined, discarded and wrapped does not.
-/

namespace Scion

/-- The counts that do not depend on verdicts. -/
structure GraftStats.SameEffort (a b : GraftStats) : Prop where
  candidates : a.candidates = b.candidates
  discarded : a.discarded = b.discarded
  extensions : a.extensions = b.extensions

namespace Finding

def discards : Finding → Nat
  | discarded => 1
  | _ => 0

theorem Paired.counts {R : DerivationTree → DerivationTree → Prop} {x y : Finding}
    (h : Paired R x y) :
    x.examined = y.examined ∧ x.discards = y.discards ∧ (x = .exhausted ↔ y = .exhausted) := by
  cases h <;> simp [examined, discards]

end Finding

namespace GraftRun

variable {run run' : GraftRun} {answer : GraftStep}

theorem Transition.discards (h : run.Transition answer run') (going : ¬ run.limitReached) :
    run'.stats.discarded = run.stats.discarded + (run.site.step run.search).1.discards := by
  cases h with
  | stop limit => exact absurd limit going
  | exhausted _ hs => rw [hs]; rfl
  | idle _ hs => rw [hs]; rfl
  | discarded _ hs => rw [hs]; rfl
  | submit _ hs judgement =>
    rw [hs]
    cases judgement <;> rfl

theorem Transition.done_iff (h : run.Transition answer run') (going : ¬ run.limitReached) :
    answer = .done ↔ (run.site.step run.search).1 = .exhausted := by
  cases h with
  | stop limit => exact absurd limit going
  | exhausted _ hs => simp [hs]
  | idle _ hs => simp [hs]
  | discarded _ hs => simp [hs]
  | submit _ hs judgement =>
    rw [hs]
    cases judgement <;> simp

theorem drain_of_done (h : run.step.1 = .done) (steps : Nat) :
    (drain (steps + 1) run).2 = run.step.2 := by
  rw [drain]
  generalize run.step = out at h ⊢
  obtain ⟨answer, run'⟩ := out
  obtain rfl : answer = .done := h
  rfl

theorem drain_of_going (h : run.step.1 ≠ .done) (steps : Nat) :
    (drain (steps + 1) run).2 = (drain steps run.step.2).2 := by
  rw [drain]
  generalize run.step = out at h ⊢
  obtain ⟨answer, run'⟩ := out
  cases answer with
  | done => exact absurd rfl h
  | _ => rfl

end GraftRun

namespace GraftRequest

variable {r : GraftRequest} {next next' : NodeId} {run run' : GraftRun} {b : Bool}

/-- The same request with the switch for trivial expansions set, for all results there are. -/
def expanding (r : GraftRequest) (expandTrivial : Bool) : GraftRequest :=
  { r with settings :=
    { r.settings with maxSolutions := none, expandTrivial := expandTrivial } }

theorem Reaches.unlimited (h : (r.expanding b).Reaches next run) : ¬ run.limitReached := by
  have unbounded : run.settings.maxSolutions = none := by rw [h.terms_eq.1]; rfl
  simp [GraftRun.limitReached, unbounded]

/-- States that the run without expansions and the run with them reach side by side. -/
structure Parallel (r : GraftRequest) (next next' : NodeId) (run run' : GraftRun) : Prop where
  left : (r.expanding false).Reaches next run
  right : (r.expanding true).Reaches next' run'
  search : run.search.Counterpart (fun i => i) run'.search
  effort : run.stats.SameEffort run'.stats

/-- Two trees that the request submits to judgement under the two settings. -/
abbrev Twins (r : GraftRequest) (next : NodeId) : DerivationTree → DerivationTree → Prop :=
  TwinGrafts r.grammar r.target r.insert next

namespace Parallel

theorem start (r : GraftRequest) (next next' : NodeId) :
    Parallel r next next' ((r.expanding false).start next) ((r.expanding true).start next') where
  left := .start
  right := .start
  search := {
    phase := rfl
    insert := rfl
    insertSymbol := rfl
    frontier := (Tree.map_rename_self _).symm
    visited := rfl
    wrappers := rfl
    tried := rfl
    extensions := rfl }
  effort := ⟨rfl, rfl, rfl⟩

/-- What the searches of both states find in their next step. -/
theorem found (h : Parallel r next next' run run') :
    Finding.Paired (r.Twins next) (run.site.step run.search).1 (run'.site.step run'.search).1 ∧
      (run.site.step run.search).2.Counterpart (fun i => i) (run'.site.step run'.search).2 := by
  rw [h.left.site_eq, h.right.site_eq]
  exact @Site.step_expanding r.site _ _ _ _ h.left.frontierWithin h.left.noted
    (h.left.wrapped _ List.mem_cons_self) h.search

theorem submission (h : Parallel r next next' run run') :
    Option.Rel (r.Twins next) run.submission? run'.submission? := by
  rw [GraftRun.submission?, GraftRun.submission?, if_neg h.left.unlimited,
    if_neg h.right.unlimited]
  exact h.found.1.tree?

theorem done_iff (h : Parallel r next next' run run') :
    run.step.1 = .done ↔ run'.step.1 = .done := by
  rw [run.step_transition.done_iff h.left.unlimited, run'.step_transition.done_iff h.right.unlimited]
  exact h.found.1.counts.2.2

theorem step (h : Parallel r next next' run run') :
    Parallel r next next' run.step.2 run'.step.2 := by
  obtain ⟨paired, counterpart⟩ := h.found
  obtain ⟨examined, discards, -⟩ := paired.counts
  have search : run.step.2.search.Counterpart (fun i => i) run'.step.2.search := by
    rw [run.step_frame.2, run'.step_frame.2, if_neg h.left.unlimited, if_neg h.right.unlimited]
    exact counterpart
  obtain ⟨extensions, candidates⟩ := run.step_transition.counts h.left.unlimited
  obtain ⟨extensions', candidates'⟩ := run'.step_transition.counts h.right.unlimited
  have discarded := run.step_transition.discards h.left.unlimited
  have discarded' := run'.step_transition.discards h.right.unlimited
  exact ⟨h.left.step, h.right.step, search, {
    candidates := by rw [candidates, candidates', h.effort.candidates, examined]
    discarded := by rw [discarded, discarded', h.effort.discarded, discards]
    extensions := by rw [extensions, extensions', search.extensions] }⟩

theorem after (h : Parallel r next next' run run') (k : Nat) :
    Parallel r next next' (run.after k) (run'.after k) := by
  induction k with
  | zero => exact h
  | succ k ih => exact ih.step

/-- Carried to their ends, both submit equally many trees, which are twins. -/
theorem submits {us : List DerivationTree} (h : Parallel r next next' run run')
    (left : run.Submits us) : ∃ ts, run'.Submits ts ∧ List.Forall₂ (r.Twins next) us ts := by
  induction left generalizing run' with
  | ended hp => exact ⟨[], .ended (h.search.phase ▸ hp), .nil⟩
  | @step run us hp _ ih =>
    obtain ⟨ts, right, twins⟩ := ih h.step
    refine ⟨_, .step (h.search.phase ▸ hp) right, ?_⟩
    have submission := h.submission
    generalize run.submission? = u?, run'.submission? = t? at submission ⊢
    cases submission with
    | none => exact twins
    | some twin => exact .cons twin twins

theorem drain (h : Parallel r next next' run run') (steps : Nat) :
    Parallel r next next' (GraftRun.drain steps run).2 (GraftRun.drain steps run').2 := by
  induction steps generalizing run run' with
  | zero => exact h
  | succ steps ih =>
    by_cases ended : run.step.1 = .done
    · rw [GraftRun.drain_of_done ended, GraftRun.drain_of_done (h.done_iff.1 ended)]
      exact h.step
    · rw [GraftRun.drain_of_going ended, GraftRun.drain_of_going (mt h.done_iff.2 ended)]
      exact ih h.step

theorem results (h : Parallel r next next' run run') :
    Parallel r next next' run.results.2 run'.results.2 := by
  have bound : run'.site.stepBound run'.search = run.site.stepBound run.search := by
    rw [h.left.site_eq, h.right.site_eq]
    have same := @Site.stepBound_counterpart _ r.site _ _ h.search
    rw [Site.rename_self] at same
    exact same
  rw [GraftRun.results, GraftRun.results, bound]
  exact h.drain _

end Parallel

/-- Expanding fills open nodes and does nothing else. Without expansions and with them, a request
submits equally many trees to judgement, at the same steps and with the same counts of candidates,
discarded nodes and wrappings, and trees that are submitted at the same step are twins. -/
theorem expanding_fills (r : GraftRequest) (next next' : NodeId) :
    let run := (r.expanding false).start next
    let run' := (r.expanding true).start next'
    (∃ us ts, run.Submits us ∧ run'.Submits ts ∧ List.Forall₂ (r.Twins next) us ts) ∧
      run.results.2.stats.SameEffort run'.results.2.stats ∧
      ∀ k, Option.Rel (r.Twins next) (run.after k).submission? (run'.after k).submission? ∧
        (run.after k).stats.SameEffort (run'.after k).stats ∧
        ((run.after k).step.1 = .done ↔ (run'.after k).step.1 = .done) := by
  intro run run'
  have start := Parallel.start r next next'
  obtain ⟨us, yields⟩ := (Site.Bounded.start (r.expanding false).site r.insert next).yields
  have left : run.Submits us := GraftRun.submits_of_yields yields ⟨rfl, rfl⟩ rfl
  obtain ⟨ts, right, twins⟩ := start.submits left
  refine ⟨⟨us, ts, left, right, twins⟩, start.results.effort, fun k => ?_⟩
  have states := start.after k
  exact ⟨states.submission, states.effort, states.done_iff⟩

end GraftRequest

/-! ### Items separated by commas -/

namespace CommaList

/-- The comma between two items is a nonterminal of its own. -/
def commaRules : List Rule :=
  [⟨⟨"<start>"⟩, [[⟨"<list>"⟩]]⟩,
    ⟨⟨"<list>"⟩, [[⟨"<item>"⟩], [⟨"<item>"⟩, ⟨"<comma>"⟩, ⟨"<list>"⟩]]⟩,
    ⟨⟨"<comma>"⟩, [[⟨" , "⟩]]⟩,
    ⟨⟨"<item>"⟩, [[⟨"a"⟩], [⟨"b"⟩]]⟩]

def commaGrammar : Grammar := ⟨commaRules, ParentIndex.ofRules commaRules, by decide, rfl⟩

def commaRequest : GraftRequest where
  grammar := commaGrammar
  paths := (ProductionGraph.ofGrammar commaGrammar).shortestPath?
  target := single
  insert := .leaf ⟨5, ⟨"b"⟩⟩

-- The host is the same but for the comma, which stays open or is filled.
example :
    (((commaRequest.expanding false).start 6).after 3).submission?.map (Tree.render true) =
        some "b<comma>a" ∧
      (((commaRequest.expanding true).start 6).after 3).submission?.map (Tree.render true) =
        some "b , a" :=
  ⟨rfl, rfl⟩

end CommaList

end Scion
