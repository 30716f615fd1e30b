import Scion.Proofs.Graft.Identity
import Scion.Proofs.Graft.Lockstep

/-!
Results do not depend on identities. The runs of two requests that differ in the identities of their
nodes only go in lockstep: the searches do, and the view of a candidate, which is the same on both
sides, decides what becomes of it. So the results have the same shapes in the same order, and the
counts agree after every step. Only the node that a placement refers to is told by its identity, and
this one must not be issued again.
-/

namespace Scion

variable {f : NodeId → NodeId}

/-! ### Judging in lockstep -/

theorem Validity.ofTrees_congr {t t' w w' : DerivationTree} (targets : t.shape = t'.shape)
    (inserts : w.shape = w'.shape) : ofTrees t w = ofTrees t' w' := by
  rw [ofTrees, ofTrees, Tree.text_congr targets, Tree.text_congr inserts]

def Placement.rename (f : NodeId → NodeId) (p : Placement) : Placement :=
  { p with reference := f p.reference }

theorem Placement.holds_congr {p q : Placement} {t u : DerivationTree}
    (relation : p.relation = q.relation)
    (views : t.view (some p.reference) = u.view (some q.reference)) (text : String) :
    p.holds t text = q.holds u text := by
  have found : (t.get? p.reference).map (Tree.view (some p.reference)) =
      (u.get? q.reference).map (Tree.view (some q.reference)) := by
    rw [Tree.view_get?, Tree.view_get?, views]
  rw [holds, holds, Tree.text_congr (Tree.shape_eq_of_view views), relation]
  generalize t.get? p.reference = n?, u.get? q.reference = m? at found ⊢
  match n?, m?, found with
  | none, none, _ => rfl
  | some n, some m, same =>
    have text := Tree.text_congr (Tree.shape_eq_of_view (Option.some.inj same))
    simp only [text]

/-- Answers of the same kind; two emitted trees have the same shape. -/
inductive GraftStep.Alike : GraftStep → GraftStep → Prop
  | emit {t u : DerivationTree} : t.shape = u.shape → Alike (.emit t) (.emit u)
  | proceed : Alike .continue .continue
  | done : Alike .done .done

namespace GraftRun

variable {run run' : GraftRun} {t u : DerivationTree}

def reference? (run : GraftRun) : Option NodeId := run.placement?.map Placement.reference

theorem reference?_step (run : GraftRun) : run.step.2.reference? = run.reference? := by
  rw [reference?, run.step_terms.2.2, reference?]

structure Counterpart (f : NodeId → NodeId) (run run' : GraftRun) : Prop where
  site : run'.site = run.site.rename f
  settings : run'.settings = run.settings
  validity : run'.validity = run.validity
  placement : run'.placement? = run.placement?.map (Placement.rename f)
  search : run.search.Counterpart f run'.search
  seen : run'.seen = run.seen
  stats : run'.stats = run.stats

theorem Counterpart.reference_eq (h : run.Counterpart f run') :
    run'.reference? = run.reference?.map f := by
  rw [reference?, h.placement, reference?, Option.map_map, Option.map_map]
  rfl

theorem Counterpart.known (h : run.Counterpart f run')
    (separated : run.site.Separated f run.reference?) :
    ∀ i ∈ run'.reference?, i ∈ run'.site.target.ids := by
  intro i hi
  rw [h.reference_eq] at hi
  obtain ⟨j, hj, rfl⟩ := Option.mem_map.1 hi
  rw [h.site, Site.rename, Tree.ids_rename]
  exact List.mem_map_of_mem (separated.known j hj)

theorem Counterpart.judge_eq (h : run.Counterpart f run')
    (views : t.view run.reference? = u.view run'.reference?) : run'.judge u = run.judge t := by
  have text := Tree.text_congr (Tree.shape_eq_of_view views)
  rw [judge, judge, h.settings, h.validity, text, h.placement]
  rw [h.reference_eq, reference?] at views
  cases hp : run.placement? with
  | none => rfl
  | some p =>
    rw [hp] at views
    have same := Placement.holds_congr (p := p) (q := p.rename f) rfl views run.validity.insertText
    simp only [Option.map_some, same]

theorem Counterpart.accept (h : run.Counterpart f run')
    (views : t.view run.reference? = u.view run'.reference?) :
    (run.accept t).1.Alike (run'.accept u).1 ∧
      (run.accept t).2.Counterpart f (run'.accept u).2 := by
  have shapes := Tree.shape_eq_of_view views
  rw [GraftRun.accept, GraftRun.accept, h.judge_eq views, h.seen, h.stats,
    ← Tree.fingerprint_congr shapes]
  split
  · exact ⟨.proceed, { h with seen := rfl, stats := rfl }⟩
  · split
    · exact ⟨.proceed, { h with seen := rfl, stats := rfl }⟩
    · exact ⟨.emit shapes, { h with seen := rfl, stats := rfl }⟩

/-- The examination of one more node is counted. -/
def examined (run : GraftRun) : GraftRun :=
  { run with stats := { run.stats with candidates := run.stats.candidates + 1 } }

/-- What follows from a finding, once the state of the search has been taken over. -/
def answered (run : GraftRun) : Finding → GraftStep × GraftRun
  | .exhausted => (.done, run)
  | .idle => (.continue, run)
  | .discarded => (.continue, { run.examined with
      stats := { run.examined.stats with discarded := run.stats.discarded + 1 } })
  | .candidate t => run.examined.accept t

theorem work_eq_answered (run : GraftRun) :
    run.work =
      (run.searched (run.site.step run.search).2).answered (run.site.step run.search).1 := by
  rw [work]
  cases run.site.step run.search with
  | mk finding s => cases finding <;> rfl

theorem Counterpart.searched {s s' : Search} (h : run.Counterpart f run')
    (search : s.Counterpart f s') : (run.searched s).Counterpart f (run'.searched s') :=
  { h with
    search := search
    stats := by rw [GraftRun.searched, GraftRun.searched, h.stats, search.extensions] }

theorem Counterpart.examined (h : run.Counterpart f run') :
    run.examined.Counterpart f run'.examined :=
  { h with stats := by rw [GraftRun.examined, GraftRun.examined, h.stats] }

theorem Counterpart.answered {finding finding' : Finding} (h : run.Counterpart f run')
    (alike : finding.Alike run.reference? run'.reference? finding') :
    (run.answered finding).1.Alike (run'.answered finding').1 ∧
      (run.answered finding).2.Counterpart f (run'.answered finding').2 := by
  cases alike with
  | exhausted => exact ⟨.done, h⟩
  | idle => exact ⟨.proceed, h⟩
  | discarded =>
    exact ⟨.proceed, { h with
      stats := by rw [GraftRun.answered, GraftRun.answered, h.examined.stats, h.stats] }⟩
  | candidate views => exact h.examined.accept views

/-- One step answers the same on both sides, and leaves counterparts behind. -/
theorem Counterpart.step (h : run.Counterpart f run')
    (separated : run.site.Separated f run.reference?) (bounded : run.site.Bounded run.search)
    (inserts : run.search.insert.view run.reference? = run'.search.insert.view run'.reference?)
    (spared : Spared run.reference? run.search.next run.step.2.search.next)
    (spared' : Spared run'.reference? run'.search.next run'.step.2.search.next) :
    run.step.1.Alike run'.step.1 ∧ run.step.2.Counterpart f run'.step.2 := by
  have limit : run'.limitReached = run.limitReached := by
    rw [limitReached, limitReached, h.settings, h.stats]
  rw [run.step_frame.2] at spared
  rw [run'.step_frame.2, limit] at spared'
  rw [GraftRun.step, GraftRun.step, limit]
  split
  · exact ⟨.done, { h with search := { h.search with phase := rfl } }⟩
  · rename_i going
    rw [if_neg going] at spared spared'
    rw [h.site, h.reference_eq] at spared'
    rw [h.reference_eq] at inserts
    obtain ⟨alike, search⟩ :=
      Site.step_counterpart separated bounded h.search inserts spared spared'
    rw [← h.site] at alike search
    rw [← h.reference_eq] at alike
    rw [work_eq_answered, work_eq_answered]
    exact (h.searched search).answered alike

end GraftRun

/-! ### Requests in lockstep -/

/-- Both ask for the same side of the nodes at one path of the two trees. -/
def Placement.Counterpart (t u : DerivationTree) (p q : Placement) : Prop :=
  p.relation = q.relation ∧ ∃ path n m, t.subtreeAt path = .ok n ∧ u.subtreeAt path = .ok m ∧
    p.reference = n.id ∧ q.reference = m.id

theorem Placement.Counterpart.eq_rename {t : DerivationTree} {p q : Placement}
    (h : Placement.Counterpart t (t.rename f) p q) :
    p.reference ∈ t.ids ∧ q = p.rename f := by
  obtain ⟨relation, path, n, m, hn, hm, hp, hq⟩ := h
  have found := Tree.subtreeAt_eq_ok.1 hn
  have renamed : (t.rename f).subtreeAt path = .ok (n.rename f) :=
    Tree.subtreeAt_eq_ok.2 (Tree.descend_map found)
  obtain rfl := Except.ok.inj (renamed.symm.trans hm)
  refine ⟨hp ▸ Tree.id_mem_ids (Tree.mem_preorder_of_descend found), ?_⟩
  rw [Placement.rename, hp, ← @Tree.id_rename f, ← hq, relation]

namespace GraftRequest

variable {r u : GraftRequest} {next next' : NodeId} {run run' : GraftRun}

/-- Requests that differ in the identities of their nodes only. -/
structure Counterpart (r u : GraftRequest) : Prop where
  grammar : u.grammar = r.grammar
  paths : u.paths = r.paths
  settings : u.settings = r.settings
  target : r.target.shape = u.target.shape
  insert : r.insert.shape = u.insert.shape
  placement : Option.Rel (Placement.Counterpart r.target u.target) r.placement? u.placement?

/-- The supply of identities, which starts at `next`, does not come round to the one that the
placement refers to, for a fresh node could be taken for the reference then. The identities of other
nodes may be issued again. -/
def SparesReference (r : GraftRequest) (next : NodeId) : Prop :=
  ∀ p ∈ r.placement?, ∀ run, r.Reaches next run →
    p.reference < next ∨ run.search.next ≤ p.reference

/-- Nothing that was issued before is issued again. -/
theorem sparesReference_of_lt (h : ∀ p ∈ r.placement?, p.reference < next) :
    r.SparesReference next :=
  fun p hp _ _ => .inl (h p hp)

theorem SparesReference.spared (h : r.SparesReference next) (reaches : r.Reaches next run) :
    Spared run.reference? next run.search.next := by
  rw [GraftRun.reference?, reaches.terms_eq.2.2]
  intro i hi
  obtain ⟨p, hp, rfl⟩ := Option.mem_map.1 hi
  exact h p hp run reaches

theorem Reaches.next_le (h : r.Reaches next run) : next ≤ run.search.next :=
  (h.enlarged run.search.insert List.mem_cons_self).1

/-- No step issues the identity of the reference. -/
theorem SparesReference.spared_step (h : r.SparesReference next) (reaches : r.Reaches next run) :
    Spared run.reference? run.search.next run.step.2.search.next := by
  rw [← run.reference?_step]
  exact (h.spared reaches.step).mono reaches.next_le (Nat.le_refl _)

/-- Wrappers do not take over the identity of the reference, which is one of the target's. -/
theorem Reaches.reference_not_mem (distinct : (r.target.ids ++ r.insert.ids).Nodup)
    (spares : r.SparesReference next) (h : r.Reaches next run)
    (known : ∀ i ∈ run.reference?, i ∈ r.target.ids) :
    ∀ i ∈ run.reference?, i ∉ run.search.insert.ids := by
  intro i hi inside
  obtain ⟨-, enlarged⟩ := h.enlarged run.search.insert List.mem_cons_self
  obtain old | ⟨later, earlier⟩ := enlarged.mem inside
  · exact (List.nodup_append.1 distinct).2.2 i (known i hi) i old rfl
  · exact (spares.spared h i hi).elim (Nat.not_lt.2 later) (Nat.not_le.2 earlier)

/-- States that two runs reach and that differ in identities only. -/
structure Lockstep (f : NodeId → NodeId) (r u : GraftRequest) (next next' : NodeId)
    (run run' : GraftRun) : Prop where
  left : r.Reaches next run
  right : u.Reaches next' run'
  counterpart : run.Counterpart f run'
  separated : r.site.Separated f run.reference?

theorem Counterpart.lockstep (h : r.Counterpart u) (distinct : r.target.ids.Nodup)
    (distinct' : u.target.ids.Nodup) (next next' : NodeId) :
    ∃ f, Lockstep f r u next next' (r.start next) (u.start next') := by
  obtain ⟨f, target⟩ := Tree.exists_rename h.target distinct
  have injective := List.inj_on_of_nodup_map (Tree.ids_rename ▸ target ▸ distinct')
  have placement : (∀ p ∈ r.placement?, p.reference ∈ r.target.ids) ∧
      u.placement? = r.placement?.map (Placement.rename f) := by
    have related := target ▸ h.placement
    generalize r.placement? = p?, u.placement? = q? at related ⊢
    cases related with
    | none => exact ⟨by simp, rfl⟩
    | some same =>
      obtain ⟨known, rfl⟩ := same.eq_rename
      exact ⟨by simpa using known, rfl⟩
  refine ⟨f, .start, .start, ?_, ?_, ?_⟩
  · exact {
      site := by rw [start, start, site, site, Site.rename, h.grammar, h.paths, h.settings, target]
      settings := h.settings
      validity := (Validity.ofTrees_congr h.target h.insert).symm
      placement := placement.2
      search := {
        phase := rfl
        insert := h.insert.symm
        insertSymbol := Tree.symbol_congr h.insert.symm
        frontier := congrArg ([·]) target
        visited := rfl
        wrappers := rfl
        tried := rfl
        extensions := rfl }
      seen := rfl
      stats := rfl }
  · exact fun i hi j hj => injective hi hj
  · intro i hi
    obtain ⟨p, hp, rfl⟩ := Option.mem_map.1 hi
    exact placement.1 p hp

section

variable (distinct : (r.target.ids ++ r.insert.ids).Nodup)
  (distinct' : (u.target.ids ++ u.insert.ids).Nodup) (spares : r.SparesReference next)
  (spares' : u.SparesReference next')

include distinct distinct' spares spares'

theorem Lockstep.step (h : Lockstep f r u next next' run run') :
    run.step.1.Alike run'.step.1 ∧ Lockstep f r u next next' run.step.2 run'.step.2 := by
  have site := h.left.site_eq
  have separated : run.site.Separated f run.reference? := site ▸ h.separated
  have known' := h.counterpart.known separated
  rw [h.right.site_eq] at known'
  -- Neither inserted tree has a node of the reference's identity, so shapes are enough for the views.
  have inserts := Tree.view_eq_of_shape h.counterpart.search.insert.symm
    (h.left.reference_not_mem distinct spares h.separated.known)
    (h.right.reference_not_mem distinct' spares' known')
  obtain ⟨alike, counterpart⟩ := h.counterpart.step separated (site ▸ h.left.bounded) inserts
    (spares.spared_step h.left) (spares'.spared_step h.right)
  exact ⟨alike, h.left.step, h.right.step, counterpart, run.reference?_step ▸ h.separated⟩

theorem Lockstep.after (h : Lockstep f r u next next' run run') (k : Nat) :
    Lockstep f r u next next' (run.after k) (run'.after k) := by
  induction k with
  | zero => exact h
  | succ k ih => exact (ih.step distinct distinct' spares spares').2

theorem Lockstep.drain (h : Lockstep f r u next next' run run') (steps : Nat) :
    (GraftRun.drain steps run).1.map Tree.shape = (GraftRun.drain steps run').1.map Tree.shape := by
  induction steps generalizing run run' with
  | zero => rfl
  | succ steps ih =>
    obtain ⟨alike, stepped⟩ := h.step distinct distinct' spares spares'
    have rest := ih stepped
    rw [GraftRun.drain, GraftRun.drain]
    generalize run.step = out, run'.step = out' at alike rest ⊢
    obtain ⟨answer, run⟩ := out
    obtain ⟨answer', run'⟩ := out'
    cases alike with
    | emit same => exact congrArg₂ List.cons same rest
    | proceed => exact rest
    | done => rfl

end

/-- Two requests that differ in the identities of their nodes only have results of the same shapes
in the same order, answer alike at every step and count the same. It does not matter which identities
the nodes have, nor where the supplies of fresh ones start, unless they come round to the node that a
placement refers to. -/
theorem counterparts_agree (h : r.Counterpart u)
    (distinct : (r.target.ids ++ r.insert.ids).Nodup)
    (distinct' : (u.target.ids ++ u.insert.ids).Nodup) (spares : r.SparesReference next)
    (spares' : u.SparesReference next') :
    (r.start next).results.1.map Tree.shape = (u.start next').results.1.map Tree.shape ∧
      ∀ k, ((r.start next).after k).step.1.Alike ((u.start next').after k).step.1 ∧
        ((r.start next).after k).stats = ((u.start next').after k).stats := by
  obtain ⟨f, start⟩ := h.lockstep (List.nodup_append.1 distinct).1 (List.nodup_append.1 distinct').1
    next next'
  constructor
  · have bound : (u.start next').site.stepBound (u.start next').search =
        (r.start next).site.stepBound (r.start next).search := by
      rw [start.counterpart.site]
      exact Site.stepBound_counterpart start.counterpart.search
    rw [GraftRun.results, GraftRun.results, bound]
    exact start.drain distinct distinct' spares spares' _
  · intro k
    have states := start.after distinct distinct' spares spares' k
    exact ⟨(states.step distinct distinct' spares spares').1, states.counterpart.stats.symm⟩

end GraftRequest

/-! ### Items separated by commas -/

namespace CommaList

/-- The bare `b` is to come before the only item. -/
def placed : GraftRequest := { request with placement? := some ⟨.before, 2⟩ }

/-- The same request with other identities. -/
def renumbered : GraftRequest where
  grammar := grammar
  paths := (ProductionGraph.ofGrammar grammar).shortestPath?
  target := single.rename fun i => 50 - 10 * i
  insert := .leaf ⟨5, ⟨"b"⟩⟩
  placement? := some ⟨.before, 30⟩

theorem counterparts_agree_double :
    placed.Counterpart renumbered ∧ (placed.target.ids ++ placed.insert.ids).Nodup ∧
      (renumbered.target.ids ++ renumbered.insert.ids).Nodup ∧ placed.SparesReference 6 ∧
      renumbered.SparesReference 60 ∧ ((placed.start 6).after 3).step.1 = .emit double ∧
      (placed.start 6).results.1.map Tree.shape =
        (renumbered.start 60).results.1.map Tree.shape ∧
      ∀ k, ((placed.start 6).after k).step.1.Alike ((renumbered.start 60).after k).step.1 ∧
        ((placed.start 6).after k).stats = ((renumbered.start 60).after k).stats := by
  have counterpart : placed.Counterpart renumbered := {
    grammar := rfl
    paths := rfl
    settings := rfl
    target := rfl
    insert := rfl
    placement := .some ⟨rfl, ⟨[0, 0]⟩, _, _, rfl, rfl, rfl, rfl⟩ }
  have distinct : (placed.target.ids ++ placed.insert.ids).Nodup := by decide
  have distinct' : (renumbered.target.ids ++ renumbered.insert.ids).Nodup := by decide
  have spares : placed.SparesReference 6 := GraftRequest.sparesReference_of_lt (by decide)
  have spares' : renumbered.SparesReference 60 := GraftRequest.sparesReference_of_lt (by decide)
  exact ⟨counterpart, distinct, distinct', spares, spares', rfl,
    GraftRequest.counterparts_agree counterpart distinct distinct' spares spares'⟩

/-- A supply that starts at 2 gives the wrapper of `b` the identity of the item, and nothing comes
before this wrapper. So the same request has a result or none, depending on where the supply
starts. -/
theorem counterparts_differ :
    placed.Counterpart placed ∧ (placed.target.ids ++ placed.insert.ids).Nodup ∧
      ((placed.start 6).after 3).step.1 = .emit double ∧
      ((placed.start 2).after 3).step.1 = .continue ∧
      (placed.start 6).results.1.length = 1 ∧ (placed.start 2).results.1.length = 0 ∧
      ((placed.start 6).after 4).stats ≠ ((placed.start 2).after 4).stats := by
  have counterpart : placed.Counterpart placed := {
    grammar := rfl
    paths := rfl
    settings := rfl
    target := rfl
    insert := rfl
    placement := .some ⟨rfl, ⟨[0, 0]⟩, _, _, rfl, rfl, rfl, rfl⟩ }
  exact ⟨counterpart, by decide, rfl, rfl, by decide +kernel, by decide +kernel, by decide⟩

end CommaList

end Scion
