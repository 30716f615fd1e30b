import Scion.Graft.Run

/-!
What one unit of work can do. `Site.Trial` lists the ways in which a node of the frontier is
examined, `Site.Move` those in which a search moves on, each with the guards it passed. A run
reaches the states that its steps lead to from its start, so what every move keeps holds in all of
them.
-/

namespace Scion

namespace Site

variable {site : Site} {s s' : Search} {finding : Finding}

/-- The examination of a node, in a state that has taken it from the frontier. -/
inductive Trial (site : Site) (s : Search) (node : DerivationTree) : Finding → Search → Prop
  | fill {t : DerivationTree} : node.isOpen → node.symbol = s.insertSymbol →
      site.exchange node.id s.insert = .ok t → Trial site s node (.candidate t) s
  | unfilled {e : GraftError} : node.isOpen → node.symbol = s.insertSymbol →
      site.exchange node.id s.insert = .error e → Trial site s node .discarded s
  | unreachable : ¬ (node.isOpen ∧ node.symbol = s.insertSymbol) →
      site.paths node.symbol s.insertSymbol = none → Trial site s node .discarded s
  | astray {path : List Symbol} {e : GraftError} :
      ¬ (node.isOpen ∧ node.symbol = s.insertSymbol) →
      site.paths node.symbol s.insertSymbol = some path →
      (Walk.along node path s.insertSymbol).outcome = .error e →
      Trial site s node .discarded
        { s with frontier := s.frontier ++ (Walk.along node path s.insertSymbol).queued }
  | unsuited {path : List Symbol} {arrival : Arrival} {e : GraftError} :
      ¬ (node.isOpen ∧ node.symbol = s.insertSymbol) →
      site.paths node.symbol s.insertSymbol = some path →
      (Walk.along node path s.insertSymbol).outcome = .ok arrival →
      Alternatives.shortestMatching site.grammar arrival.parent.symbol s.insertSymbol =
        .error e →
      Trial site s node .discarded
        { s with frontier := s.frontier ++ (Walk.along node path s.insertSymbol).queued }
  | build {path : List Symbol} {arrival : Arrival} {a : Alternative} {made : DerivationTree}
      {next : NodeId} {t : DerivationTree} :
      ¬ (node.isOpen ∧ node.symbol = s.insertSymbol) →
      site.paths node.symbol s.insertSymbol = some path →
      (Walk.along node path s.insertSymbol).outcome = .ok arrival →
      Alternatives.shortestMatching site.grammar arrival.parent.symbol s.insertSymbol = .ok a →
      Host.build site.grammar site.expandTrivial a arrival.parent s.insert arrival.sibling?
        s.next = (made, next) →
      site.exchange arrival.parent.id made = .ok t →
      Trial site s node (.candidate t)
        { s with
          frontier := s.frontier ++ (Walk.along node path s.insertSymbol).queued
          next := next }
  | unplaced {path : List Symbol} {arrival : Arrival} {a : Alternative} {made : DerivationTree}
      {next : NodeId} {e : GraftError} :
      ¬ (node.isOpen ∧ node.symbol = s.insertSymbol) →
      site.paths node.symbol s.insertSymbol = some path →
      (Walk.along node path s.insertSymbol).outcome = .ok arrival →
      Alternatives.shortestMatching site.grammar arrival.parent.symbol s.insertSymbol = .ok a →
      Host.build site.grammar site.expandTrivial a arrival.parent s.insert arrival.sibling?
        s.next = (made, next) →
      site.exchange arrival.parent.id made = .error e →
      Trial site s node .discarded
        { s with
          frontier := s.frontier ++ (Walk.along node path s.insertSymbol).queued
          next := next }

inductive Move (site : Site) (s : Search) : Finding → Search → Prop
  | finished : s.phase = .done → Move site s .exhausted s
  | turn : s.phase = .seek → s.frontier = [] → Move site s .idle { s with phase := .extend }
  | skip {node : DerivationTree} {rest : List DerivationTree} :
      s.phase = .seek → s.frontier = node :: rest → node.id ∈ s.visited →
      Move site s .idle { s with frontier := rest }
  | examine {node : DerivationTree} {rest : List DerivationTree} {finding : Finding}
      {s' : Search} :
      s.phase = .seek → s.frontier = node :: rest → node.id ∉ s.visited →
      Trial site { s with frontier := rest, visited := node.id :: s.visited } node finding s' →
      Move site s finding s'
  | wrap {wrapper : DerivationTree} {rest : List DerivationTree} :
      s.phase = .extend → site.mayExtend (site.queueWrappers s) →
      (site.queueWrappers s).wrappers = wrapper :: rest →
      Move site s .idle { site.queueWrappers s with
        phase := .seek
        insert := wrapper
        insertSymbol := wrapper.symbol
        frontier := [site.target]
        visited := []
        wrappers := rest
        extensions := (site.queueWrappers s).extensions + 1 }
  | exhaust : s.phase = .extend →
      (site.mayExtend (site.queueWrappers s) → (site.queueWrappers s).wrappers = []) →
      Move site s .exhausted { site.queueWrappers s with phase := .done }

/-- What an attempt to produce a candidate brings to light. -/
def attempt : Except GraftError (Option DerivationTree) → Finding
  | .ok (some t) => .candidate t
  | .ok none => .discarded
  | .error _ => .discarded

theorem trial_attach {node : DerivationTree}
    (closed : ¬ (node.isOpen ∧ node.symbol = s.insertSymbol)) :
    site.Trial s node (attempt (site.attach s node).1) (site.attach s node).2 := by
  rw [attach]
  split
  · rename_i hpath
    exact .unreachable closed hpath
  · rename_i path hpath
    simp only
    split
    · rename_i e hout
      exact .astray closed hpath hout
    · rename_i arrival hout
      rw [hostAt]
      split
      · rename_i e halt
        exact .unsuited closed hpath hout halt
      · rename_i a halt
        cases hmade : Host.build site.grammar site.expandTrivial a arrival.parent s.insert
          arrival.sibling? s.next with
        | mk made next =>
          cases ht : site.exchange arrival.parent.id made with
          | ok t => simpa [hmade, ht] using .build closed hpath hout halt hmade ht
          | error e => simpa [hmade, ht] using .unplaced closed hpath hout halt hmade ht

theorem trial_produce (site : Site) (s : Search) (node : DerivationTree) :
    site.Trial s node (attempt (site.produce s node).1) (site.produce s node).2 := by
  rw [produce]
  split
  · rename_i hfill
    simp only [Bool.and_eq_true, beq_iff_eq] at hfill
    cases ht : site.exchange node.id s.insert with
    | ok t => exact .fill hfill.1 hfill.2 ht
    | error e => exact .unfilled hfill.1 hfill.2 ht
  · rename_i hfill
    exact trial_attach (by simpa using hfill)

theorem examine_eq (site : Site) (s : Search) (node : DerivationTree) :
    site.examine s node = if node.id ∈ s.visited then (.idle, s) else
      (attempt (site.produce { s with visited := node.id :: s.visited } node).1,
        (site.produce { s with visited := node.id :: s.visited } node).2) := by
  rw [examine]
  simp only [List.contains_iff_mem]
  split
  · rfl
  · split <;> simp [*, attempt]

theorem step_move (site : Site) (s : Search) : site.Move s (site.step s).1 (site.step s).2 := by
  rw [step]
  split
  · exact .finished ‹_›
  · rename_i hphase
    rw [extend]
    split
    · rename_i wrapper rest hmay hwrap
      exact .wrap hphase hmay hwrap
    · rename_i hstop
      refine .exhaust hphase fun hmay => ?_
      cases hwrap : (site.queueWrappers s).wrappers with
      | nil => rfl
      | cons wrapper rest => exact absurd hwrap (hstop wrapper rest hmay)
  · rename_i hphase
    split
    · rename_i hempty
      exact .turn hphase hempty
    · rename_i node rest hnode
      rw [examine_eq]
      split
      · rename_i hvisited
        exact .skip hphase hnode hvisited
      · rename_i hvisited
        exact .examine hphase hnode hvisited (trial_produce ..)

/-! ### Queueing wrappers -/

inductive Wrapping (site : Site) (s : Search) (parent : Symbol) : Search → Prop
  | known : (s.insertSymbol, parent) ∈ s.tried → Wrapping site s parent s
  | queued {wrapper : DerivationTree} {next : NodeId} : (s.insertSymbol, parent) ∉ s.tried →
      Host.wrap site.grammar parent s.insert s.next = .ok (wrapper, next) →
      Wrapping site s parent { s with
        tried := (s.insertSymbol, parent) :: s.tried
        wrappers := s.wrappers ++ [wrapper]
        next := next }
  | refused {e : GraftError} : (s.insertSymbol, parent) ∉ s.tried →
      Host.wrap site.grammar parent s.insert s.next = .error e →
      Wrapping site s parent { s with tried := (s.insertSymbol, parent) :: s.tried }

theorem queueWrapper_wrapping (site : Site) (s : Search) (parent : Symbol) :
    site.Wrapping s parent (site.queueWrapper s parent) := by
  rw [queueWrapper]
  simp only [List.contains_iff_mem]
  split
  · exact .known ‹_›
  · split
    · exact .queued ‹_› ‹_›
    · exact .refused ‹_› ‹_›

theorem Wrapping.insert_eq {parent : Symbol} (h : site.Wrapping s parent s') :
    s'.insert = s.insert ∧ s'.insertSymbol = s.insertSymbol := by
  cases h <;> exact ⟨rfl, rfl⟩

theorem queueWrappers_induct {motive : Search → Prop} (base : motive s)
    (step : ∀ (u u' : Search) (parent : Symbol),
      parent ∈ site.grammar.possibleParents s.insertSymbol →
        u.insert = s.insert ∧ u.insertSymbol = s.insertSymbol →
          site.Wrapping u parent u' → motive u → motive u') :
    motive (site.queueWrappers s) := by
  rw [queueWrappers]
  split
  · exact base
  · have run : ∀ (parents : List Symbol) (u : Search),
        parents ⊆ site.grammar.possibleParents s.insertSymbol →
          u.insert = s.insert ∧ u.insertSymbol = s.insertSymbol →
            motive u → motive (parents.foldl site.queueWrapper u) := by
      intro parents
      induction parents with
      | nil => exact fun _ _ _ hu => hu
      | cons parent parents ih =>
        intro u sub same hu
        have wrapping := site.queueWrapper_wrapping u parent
        obtain ⟨insert, symbol⟩ := wrapping.insert_eq
        exact ih _ (fun _ h => sub (List.mem_cons_of_mem _ h))
          ⟨insert.trans same.1, symbol.trans same.2⟩
          (step u _ parent (sub List.mem_cons_self) same wrapping hu)
    exact run _ s (List.Subset.refl _) ⟨rfl, rfl⟩ base

theorem queueWrappers_frame (site : Site) (s : Search) :
    ∃ wrappers tried next,
      site.queueWrappers s = { s with wrappers := wrappers, tried := tried, next := next } := by
  refine queueWrappers_induct (motive := fun u => ∃ wrappers tried next,
    u = { s with wrappers := wrappers, tried := tried, next := next }) ⟨_, _, _, rfl⟩ ?_
  rintro u u' parent - - wrapping ⟨wrappers, tried, next, rfl⟩
  cases wrapping with
  | known => exact ⟨_, _, _, rfl⟩
  | queued => exact ⟨_, _, _, rfl⟩
  | refused => exact ⟨_, _, _, rfl⟩

end Site

/-! ### Runs -/

def Finding.tree? : Finding → Option DerivationTree
  | candidate t => some t
  | _ => none

@[simp] theorem Finding.tree?_eq_some {finding : Finding} {t : DerivationTree} :
    finding.tree? = some t ↔ finding = .candidate t := by
  cases finding <;> simp [tree?]

/-- The states of a run, whichever way it is driven. -/
inductive GraftRequest.Reaches (request : GraftRequest) (next : NodeId) : GraftRun → Prop
  | start : Reaches request next (request.start next)
  | step {run : GraftRun} : Reaches request next run → Reaches request next run.step.2

namespace GraftRun

def after (run : GraftRun) : Nat → GraftRun
  | 0 => run
  | n + 1 => (run.after n).step.2

/-- The tree that the next step submits to judgement. -/
def submission? (run : GraftRun) : Option DerivationTree :=
  if run.limitReached then none else (run.site.step run.search).1.tree?

inductive Judgement (run : GraftRun) (t : DerivationTree) : GraftStep → GraftRun → Prop
  | reject {reason : Rejection} : run.judge t = .error reason →
      Judgement run t .continue
        { run with stats := { run.stats with rejected := run.stats.rejected + 1 } }
  | repeated : run.judge t = .ok () → run.seen.contains t.fingerprint →
      Judgement run t .continue
        { run with stats := { run.stats with duplicates := run.stats.duplicates + 1 } }
  | emit : run.judge t = .ok () → ¬ run.seen.contains t.fingerprint →
      Judgement run t (.emit t) { run with
        seen := t.fingerprint :: run.seen
        stats := { run.stats with emitted := run.stats.emitted + 1 } }

theorem accept_judgement (run : GraftRun) (t : DerivationTree) :
    run.Judgement t (run.accept t).1 (run.accept t).2 := by
  rw [accept]
  split
  · rename_i reason h
    exact .reject h
  · rename_i h
    split
    · rename_i known
      exact .repeated h known
    · rename_i fresh
      exact .emit h fresh

def searched (run : GraftRun) (s : Search) : GraftRun :=
  { run with search := s, stats := { run.stats with extensions := s.extensions } }

/-- One step of a run: the search moves and its candidate is judged, unless the bound on the results
stops the search. -/
inductive Transition (run : GraftRun) : GraftStep → GraftRun → Prop
  | stop : run.limitReached →
      Transition run .done { run with search := { run.search with phase := .done } }
  | exhausted {s : Search} : ¬ run.limitReached → run.site.step run.search = (.exhausted, s) →
      Transition run .done (run.searched s)
  | idle {s : Search} : ¬ run.limitReached → run.site.step run.search = (.idle, s) →
      Transition run .continue (run.searched s)
  | discarded {s : Search} : ¬ run.limitReached → run.site.step run.search = (.discarded, s) →
      Transition run .continue { run.searched s with
        stats := { (run.searched s).stats with
          candidates := run.stats.candidates + 1
          discarded := run.stats.discarded + 1 } }
  | submit {s : Search} {t : DerivationTree} {answer : GraftStep} {run' : GraftRun} :
      ¬ run.limitReached → run.site.step run.search = (.candidate t, s) →
      Judgement { run.searched s with
        stats := { (run.searched s).stats with candidates := run.stats.candidates + 1 } }
        t answer run' →
      Transition run answer run'

theorem step_transition (run : GraftRun) : run.Transition run.step.1 run.step.2 := by
  rw [step]
  split
  · exact .stop ‹_›
  · rename_i going
    rw [work]
    cases h : run.site.step run.search with
    | mk finding s =>
      cases finding with
      | candidate t => exact .submit going h (accept_judgement _ t)
      | discarded => exact .discarded going h
      | idle => exact .idle going h
      | exhausted => exact .exhausted going h

theorem Judgement.frame {run run' : GraftRun} {t : DerivationTree} {answer : GraftStep}
    (h : run.Judgement t answer run') : run'.site = run.site ∧ run'.search = run.search := by
  cases h <;> exact ⟨rfl, rfl⟩

theorem Transition.frame {run run' : GraftRun} {answer : GraftStep}
    (h : run.Transition answer run') :
    run'.site = run.site ∧
      run'.search = if run.limitReached then { run.search with phase := .done }
        else (run.site.step run.search).2 := by
  cases h with
  | stop limit => exact ⟨rfl, by rw [if_pos limit]⟩
  | exhausted going hs => exact ⟨rfl, by rw [if_neg going, hs]; rfl⟩
  | idle going hs => exact ⟨rfl, by rw [if_neg going, hs]; rfl⟩
  | discarded going hs => exact ⟨rfl, by rw [if_neg going, hs]; rfl⟩
  | submit going hs judgement =>
    obtain ⟨site, search⟩ := judgement.frame
    exact ⟨site, by rw [if_neg going, hs]; exact search⟩

theorem step_frame (run : GraftRun) :
    run.step.2.site = run.site ∧
      run.step.2.search = if run.limitReached then { run.search with phase := .done }
        else (run.site.step run.search).2 :=
  run.step_transition.frame

/-- The terms of a run never change. -/
theorem step_terms (run : GraftRun) :
    run.step.2.settings = run.settings ∧ run.step.2.validity = run.validity ∧
      run.step.2.placement? = run.placement? := by
  have moved := run.step_transition
  generalize run.step.1 = answer, run.step.2 = run' at moved ⊢
  cases moved with
  | stop => exact ⟨rfl, rfl, rfl⟩
  | exhausted => exact ⟨rfl, rfl, rfl⟩
  | idle => exact ⟨rfl, rfl, rfl⟩
  | discarded => exact ⟨rfl, rfl, rfl⟩
  | submit _ _ judgement => cases judgement <;> exact ⟨rfl, rfl, rfl⟩

/-- Only what was submitted is emitted. -/
theorem Transition.submitted {run run' : GraftRun} {t : DerivationTree}
    (h : run.Transition (.emit t) run') : run.submission? = some t := by
  cases h with
  | submit going hs judgement =>
    cases judgement
    rw [submission?, if_neg going, hs]
    rfl

theorem submission?_of_emit {run : GraftRun} {t : DerivationTree} (h : run.step.1 = .emit t) :
    run.submission? = some t :=
  (h ▸ run.step_transition).submitted

end GraftRun

namespace GraftRequest

variable {request : GraftRequest} {next : NodeId} {run : GraftRun}

theorem reaches_after (h : request.Reaches next run) (n : Nat) :
    request.Reaches next (run.after n) := by
  induction n with
  | zero => exact h
  | succ n ih => exact ih.step

theorem Reaches.site_eq (h : request.Reaches next run) : run.site = request.site := by
  induction h with
  | start => rfl
  | step _ ih => rw [(GraftRun.step_frame _).1, ih]

/-- Candidates are measured against the original trees. -/
theorem Reaches.terms_eq (h : request.Reaches next run) :
    run.settings = request.settings ∧
      run.validity = Validity.ofTrees request.target request.insert ∧
      run.placement? = request.placement? := by
  induction h with
  | start => exact ⟨rfl, rfl, rfl⟩
  | step _ ih =>
    obtain ⟨settings, validity, placement⟩ := GraftRun.step_terms _
    rw [settings, validity, placement]
    exact ih

/-- What holds at the start and is kept by every move and by stopping holds in every state. -/
theorem Reaches.search_induct {motive : Search → Prop} (h : request.Reaches next run)
    (start : motive (request.site.start request.insert next))
    (move : ∀ s finding s', request.site.Move s finding s' → motive s → motive s')
    (stop : ∀ s, motive s → motive { s with phase := .done }) : motive run.search := by
  induction h with
  | start => exact start
  | @step run h ih =>
    rw [(GraftRun.step_frame run).2]
    split
    · exact stop _ ih
    · rw [h.site_eq]
      exact move _ _ _ (request.site.step_move _) ih

/-- A step that submits a tree is a move of the search. -/
theorem Reaches.move_step_of_submission (h : request.Reaches next run) {t : DerivationTree}
    (ht : run.submission? = some t) :
    request.site.Move run.search (.candidate t) run.step.2.search := by
  have moved := request.site.step_move run.search
  rw [GraftRun.submission?, h.site_eq] at ht
  split at ht
  · simp at ht
  · rename_i going
    rw [(GraftRun.step_frame run).2, if_neg going, h.site_eq]
    exact Finding.tree?_eq_some.1 ht ▸ moved

theorem Reaches.move_of_submission (h : request.Reaches next run) {t : DerivationTree}
    (ht : run.submission? = some t) : ∃ s', request.site.Move run.search (.candidate t) s' :=
  ⟨_, h.move_step_of_submission ht⟩

end GraftRequest

end Scion
