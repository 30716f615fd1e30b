import Scion.Proofs.Graft.Batch
import Scion.Proofs.Graft.Legality

/-!
The books of a run. Every node that is examined is entered under one heading: it was discarded, or
its candidate was rejected, recognised as a repetition, or emitted. The last heading counts the trees
that have come out, which all have different fingerprints and so different shapes. Neither bound of
the settings is ever exceeded, and when a run reports its end the books are closed.
-/

namespace Scion

namespace GraftRun

variable {run run' last : GraftRun} {t : DerivationTree} {ts : List DerivationTree}
  {answer : GraftStep}

/-- The books of a run that has emitted the given trees, while `waiting` candidates have not been
judged yet. -/
structure Accounted (run : GraftRun) (ts : List DerivationTree) (waiting : Nat) : Prop where
  balanced : run.stats.candidates = run.stats.discarded + run.stats.rejected +
    run.stats.duplicates + run.stats.emitted + waiting
  counted : run.stats.emitted = ts.length
  remembered : run.seen = (ts.map Tree.fingerprint).reverse
  distinct : (ts.map Tree.fingerprint).Nodup
  bounded : ∀ max ∈ run.settings.maxSolutions, run.stats.emitted ≤ max

theorem accounted_start (request : GraftRequest) (next : NodeId) :
    (request.start next).Accounted [] 0 where
  balanced := rfl
  counted := rfl
  remembered := rfl
  distinct := List.nodup_nil
  bounded _ _ := Nat.zero_le _

theorem append_tree?_of_none {answer : GraftStep} (nothing : answer.tree? = none)
    (ts : List DerivationTree) : ts ++ answer.tree?.toList = ts := by
  rw [nothing]
  exact List.append_nil ts

theorem emitted_lt (going : ¬ run.limitReached) :
    ∀ max ∈ run.settings.maxSolutions, run.stats.emitted < max := by
  intro max hmax
  rw [limitReached, hmax] at going
  simpa using going

/-- A verdict enters the candidate that waits for it under one heading. -/
theorem Accounted.judgement (h : run.Accounted ts 1) (going : ¬ run.limitReached)
    (judged : run.Judgement t answer run') : run'.Accounted (ts ++ answer.tree?.toList) 0 := by
  have balanced := h.balanced
  cases judged with
  | reject =>
    rw [append_tree?_of_none rfl]
    exact { h with balanced := by simp only; omega }
  | repeated =>
    rw [append_tree?_of_none rfl]
    exact { h with balanced := by simp only; omega }
  | emit _ fresh =>
    have new : t.fingerprint ∉ ts.map Tree.fingerprint := by
      rw [h.remembered] at fresh
      simpa using fresh
    exact {
      balanced := by simp only; omega
      counted := by simp [GraftStep.tree?, h.counted]
      remembered := by simp [GraftStep.tree?, h.remembered]
      distinct := by
        rw [List.map_append, List.nodup_append_comm]
        exact List.nodup_cons.2 ⟨new, h.distinct⟩
      bounded := fun max hmax => emitted_lt going max hmax }

/-- Every step keeps the books. -/
theorem Accounted.transition (h : run.Accounted ts 0) (moved : run.Transition answer run') :
    run'.Accounted (ts ++ answer.tree?.toList) 0 := by
  have balanced := h.balanced
  cases moved with
  | stop =>
    rw [append_tree?_of_none rfl]
    exact { h with }
  | exhausted =>
    rw [append_tree?_of_none rfl]
    exact { h with }
  | idle =>
    rw [append_tree?_of_none rfl]
    exact { h with }
  | discarded =>
    rw [append_tree?_of_none rfl]
    exact { h with balanced := by simp only [searched]; omega }
  | @submit s _ _ _ going _ judged =>
    have waiting : Accounted { run.searched s with
        stats := { (run.searched s).stats with candidates := run.stats.candidates + 1 } } ts 1 :=
      { h with balanced := by simp only [searched]; omega }
    exact waiting.judgement going judged

theorem Accounted.step (h : run.Accounted ts 0) :
    run.step.2.Accounted (ts ++ run.step.1.tree?.toList) 0 :=
  h.transition run.step_transition

theorem Accounted.pulls {out : Option DerivationTree × GraftRun} (h : run.Accounted ts 0)
    (pull : run.Pulls out) : out.2.Accounted (ts ++ out.1.toList) 0 := by
  induction pull with
  | emit hs =>
    have stepped := h.step
    rwa [hs] at stepped
  | proceed hs _ ih =>
    have stepped := h.step
    rw [hs] at stepped
    exact ih (List.append_nil ts ▸ stepped)
  | done hs =>
    have stepped := h.step
    rwa [hs] at stepped

/-- Trees with different fingerprints have different shapes. -/
theorem Accounted.nodup_shapes {waiting : Nat} (h : run.Accounted ts waiting) :
    (ts.map Tree.shape).Nodup := by
  have prints : (ts.map Tree.shape).map Fingerprint.ofTree = ts.map Tree.fingerprint :=
    List.map_map
  exact .of_map Fingerprint.ofTree (prints ▸ h.distinct)

end GraftRun

/-- No more wrappings are made than the settings allow. -/
theorem Site.Move.extensions_le {site : Site} {s s' : Search} {finding : Finding}
    (move : site.Move s finding s') (h : ∀ max ∈ site.maxExtensions, s.extensions ≤ max) :
    ∀ max ∈ site.maxExtensions, s'.extensions ≤ max := by
  cases move with
  | finished => exact h
  | turn => exact h
  | skip => exact h
  | examine _ _ _ trial =>
    obtain ⟨_, _, rfl, -⟩ := trial.frame
    exact h
  | wrap _ may =>
    intro max hmax
    rw [mayExtend, hmax] at may
    simpa using may
  | exhaust =>
    obtain ⟨_, _, _, frame⟩ := site.queueWrappers_frame s
    rw [frame]
    exact h

namespace GraftRequest

variable {request : GraftRequest} {next : NodeId} {run last : GraftRun} {ts : List DerivationTree}

theorem Reaches.extensions_le (h : request.Reaches next run) :
    ∀ max ∈ request.settings.maxExtensions, run.stats.extensions ≤ max := by
  rw [h.counts.1]
  exact h.search_induct (motive := fun s => ∀ max ∈ request.site.maxExtensions, s.extensions ≤ max)
    (fun max _ => Nat.zero_le max) (fun _ _ _ move bounded => move.extensions_le bounded)
    fun _ bounded => bounded

theorem Reaches.driven (h : request.Reaches next run) (drives : run.Drives ts last) :
    request.Reaches next last := by
  induction drives with
  | rest => exact h
  | step _ ih => exact ih h.step
  | pull _ ih => exact ih (h.pulled h.pulls_next)

theorem Reaches.accounted_drives {before : List DerivationTree} (h : request.Reaches next run)
    (books : run.Accounted before 0) (drives : run.Drives ts last) :
    last.Accounted (before ++ ts) 0 := by
  induction drives generalizing before with
  | rest => rwa [List.append_nil]
  | step _ ih =>
    rw [← List.append_assoc]
    exact ih h.step books.step
  | pull _ ih =>
    rw [← List.append_assoc]
    exact ih (h.pulled h.pulls_next) (books.pulls h.pulls_next)

/-! ### After the end -/

/-- The step that reports the end of a run changes no counter. -/
theorem Reaches.stats_of_done (h : request.Reaches next run) (ended : run.step.1 = .done) :
    run.step.2.stats = run.stats := by
  have moved := run.step_transition
  have counts := h.step.counts.1
  generalize run.step.1 = answer, run.step.2 = run' at ended moved counts
  subst ended
  cases moved with
  | stop => rfl
  | @exhausted s _ hs =>
    have same : s.extensions = run.search.extensions := by
      have move := run.site.step_move run.search
      rw [hs] at move
      cases move with
      | finished => rfl
      | examine _ _ _ trial => cases trial
      | exhaust =>
        obtain ⟨_, _, _, frame⟩ := run.site.queueWrappers_frame run.search
        rw [frame]
    rw [GraftRun.searched, same, ← h.counts.1]
  | submit _ _ judged => cases judged

theorem Reaches.next?_of_done (h : request.Reaches next run) (ended : run.step.1 = .done) :
    run.next? = (none, run.step.2) := by
  generalize hout : run.next? = out
  have pull := hout ▸ h.pulls_next
  cases pull with
  | emit hs => simp [hs] at ended
  | proceed hs => simp [hs] at ended
  | done hs => rw [hs]

/-- Once a step reports the end, no call for a step or a result brings anything to light. -/
theorem Reaches.drives_of_done (h : request.Reaches next run) (ended : run.step.1 = .done)
    (drives : run.Drives ts last) :
    ts = [] ∧ last.stats = run.stats ∧ last.step.1 = .done := by
  induction drives with
  | rest => exact ⟨rfl, rfl, ended⟩
  | step _ ih =>
    have closed := (GraftRun.step_of_done (GraftRun.phase_of_done ended)).1
    obtain ⟨rfl, stats, closed⟩ := ih h.step closed
    exact ⟨by rw [ended]; rfl, stats.trans (h.stats_of_done ended), closed⟩
  | pull _ ih =>
    rw [h.next?_of_done ended] at ih ⊢
    have closed := (GraftRun.step_of_done (GraftRun.phase_of_done ended)).1
    obtain ⟨rfl, stats, closed⟩ := ih h.step closed
    exact ⟨rfl, stats.trans (h.stats_of_done ended), closed⟩

/-- However a run is driven, its counters add up and keep within the bounds of its settings, no two
of the trees that came out have the same fingerprint or the same shape, and after its end nothing
comes out and no counter changes. -/
theorem driven_accounts {request : GraftRequest} {next : NodeId} {last : GraftRun}
    {ts : List DerivationTree} (drives : (request.start next).Drives ts last) :
    last.stats.candidates = last.stats.discarded + last.stats.rejected + last.stats.duplicates +
        last.stats.emitted ∧
      last.stats.emitted = ts.length ∧
      (ts.map Tree.fingerprint).Nodup ∧ (ts.map Tree.shape).Nodup ∧
      (∀ max ∈ request.settings.maxSolutions, last.stats.emitted ≤ max) ∧
      (∀ max ∈ request.settings.maxExtensions, last.stats.extensions ≤ max) ∧
      (last.step.1 = .done → ∀ us final, last.Drives us final →
        us = [] ∧ final.stats = last.stats ∧ final.step.1 = .done ∧ final.next?.1 = none) := by
  have reached : request.Reaches next last := Reaches.start.driven drives
  have books := Reaches.start.accounted_drives (GraftRun.accounted_start request next) drives
  rw [List.nil_append] at books
  refine ⟨books.balanced, books.counted, books.distinct, books.nodup_shapes, ?_,
    reached.extensions_le, fun ended us final further => ?_⟩
  · exact reached.terms_eq.1 ▸ books.bounded
  · obtain ⟨nothing, stats, closed⟩ := reached.drives_of_done ended further
    exact ⟨nothing, stats, closed, by rw [(reached.driven further).next?_of_done closed]⟩

end GraftRequest

namespace CommaList

/-- One result is wanted, after one wrapping at most. -/
def wanted : GraftRequest := (request.onTerms (some 1) true none).capped (some 1)

theorem driven_accounts_double :
    let last := (wanted.start 6).after 4
    (wanted.start 6).Drives [double] last ∧ last.step.1 = .done ∧
      last.stats.candidates = last.stats.discarded + last.stats.rejected + last.stats.duplicates +
        last.stats.emitted ∧
      last.stats.emitted = 1 ∧
      ([double].map Tree.fingerprint).Nodup ∧ ([double].map Tree.shape).Nodup ∧
      (∀ max ∈ wanted.settings.maxSolutions, last.stats.emitted ≤ max) ∧
      (∀ max ∈ wanted.settings.maxExtensions, last.stats.extensions ≤ max) ∧
      ∀ us final, last.Drives us final →
        us = [] ∧ final.stats = last.stats ∧ final.step.1 = .done ∧ final.next?.1 = none := by
  intro last
  have drives : (wanted.start 6).Drives [double] last := .step (.step (.step (.step (.rest _))))
  have ended : last.step.1 = .done := rfl
  obtain ⟨balanced, counted, distinct, shapes, solutions, extensions, closed⟩ :=
    GraftRequest.driven_accounts drives
  exact ⟨drives, ended, balanced, counted, distinct, shapes, solutions, extensions, closed ended⟩

end CommaList

end Scion
