import Scion.Proofs.Graft.Termination

/-!
A run as a batch. The search brings the same candidates to light whatever becomes of them; judging
them one by one, whenever the caller asks for a step or for a result, comes to the same as taking the
whole list of candidates, keeping those that are admitted, of these the first with each fingerprint,
and of these as many as are wanted. A bound on the wrappings cuts the list of candidates short.
-/

namespace Scion

/-- The first elements of a list, if there is a bound on their number. -/
def atMost {α : Type} (bound : Option Nat) (as : List α) : List α :=
  match bound with
  | some n => as.take n
  | none => as

namespace GraftRequest

/-- The same insertion on other terms of acceptance. -/
def onTerms (r : GraftRequest) (maxSolutions : Option Nat) (checkValidity : Bool)
    (placement? : Option Placement) : GraftRequest :=
  { r with
    placement? := placement?
    settings := { r.settings with maxSolutions := maxSolutions, checkValidity := checkValidity } }

/-- The same insertion with another bound on the wrappings. -/
def capped (r : GraftRequest) (maxExtensions : Option Nat) : GraftRequest :=
  { r with settings := { r.settings with maxExtensions := maxExtensions } }

/-- The verdict on a candidate, measured against the original trees. -/
def admits (r : GraftRequest) (t : DerivationTree) : Bool :=
  (!r.settings.checkValidity || ((Validity.ofTrees r.target r.insert).judge t.text).isOk) &&
    r.placement?.all fun p => p.holds t r.insert.text

/-- The results among a list of candidates: those that are admitted, the first with each fingerprint,
and no more than are wanted. -/
def select (r : GraftRequest) (candidates : List DerivationTree) : List DerivationTree :=
  atMost r.settings.maxSolutions <|
    (candidates.filter r.admits).eraseDupsBy fun t u => t.fingerprint == u.fingerprint

end GraftRequest

/-! ### The candidates of a search -/

namespace Site

variable {site : Site} {s : Search}

/-- A search that is carried to its end, and the candidates that it brings to light on the way. -/
inductive Yields (site : Site) : Search → List DerivationTree → Prop
  | ended {s : Search} : s.phase = .done → Yields site s []
  | step {s : Search} {cs : List DerivationTree} : s.phase ≠ .done →
      Yields site (site.step s).2 cs → Yields site s ((site.step s).1.tree?.toList ++ cs)

theorem Yields.step_cases {cs : List DerivationTree} (h : site.Yields s cs) :
    ∃ rest, site.Yields (site.step s).2 rest ∧ cs = (site.step s).1.tree?.toList ++ rest := by
  cases h with
  | ended hp =>
    have stays : site.step s = (.exhausted, s) := by rw [Site.step, hp]
    rw [stays]
    exact ⟨[], .ended hp, rfl⟩
  | step _ rest => exact ⟨_, rest, rfl⟩

theorem Yields.eq_nil {cs : List DerivationTree} (h : site.Yields s cs) (ended : s.phase = .done) :
    cs = [] := by
  cases h with
  | ended => rfl
  | step running => exact absurd ended running

theorem Bounded.yields (h : site.Bounded s) : ∃ cs, site.Yields s cs := by
  induction hn : site.stepsLeft s using Nat.strong_induction_on generalizing s with
  | h n ih =>
    by_cases hp : s.phase = .done
    · exact ⟨[], .ended hp⟩
    · have move := site.step_move s
      obtain ⟨cs, rest⟩ := ih _ (hn ▸ h.stepsLeft_lt hp move) (h.move move) rfl
      exact ⟨_, .step hp rest⟩

end Site

/-! ### Bounds on the wrappings -/

/-- A wider bound lets a search go on where it was stopped, and changes nothing else. -/
theorem Site.step_widened {site : Site} {bound : Option Nat} {s : Search}
    (wider : ∀ u, site.mayExtend u → { site with maxExtensions := bound }.mayExtend u) :
    { site with maxExtensions := bound }.step s = site.step s ∨
      (site.step s).1 = .exhausted ∧ (site.step s).2.phase = .done := by
  rw [step, step]
  cases s.phase with
  | done => exact .inl rfl
  | seek => exact .inl rfl
  | extend =>
    simp only [extend]
    have same : { site with maxExtensions := bound }.queueWrappers s = site.queueWrappers s := rfl
    rw [same]
    by_cases may : site.mayExtend (site.queueWrappers s)
    · rw [may, wider _ may]
      exact .inl rfl
    · refine .inr ?_
      rw [eq_false_of_ne_true may]
      exact ⟨rfl, rfl⟩

theorem Site.mayExtend_widened (site : Site) {m : Nat} {bound : Option Nat} {s : Search}
    (hm : site.maxExtensions = some m) (wider : ∀ m' ∈ bound, m ≤ m') (may : site.mayExtend s) :
    { site with maxExtensions := bound }.mayExtend s := by
  rw [mayExtend, hm] at may
  rw [mayExtend]
  cases bound with
  | none => rfl
  | some m' =>
    have := wider m' rfl
    simp only [decide_eq_true_eq] at may ⊢
    omega

theorem Site.Yields.isPrefix_widened {site : Site} {bound : Option Nat} {s : Search}
    {cs cs' : List DerivationTree}
    (wider : ∀ u, site.mayExtend u → { site with maxExtensions := bound }.mayExtend u)
    (h : site.Yields s cs) (h' : { site with maxExtensions := bound }.Yields s cs') :
    cs <+: cs' := by
  induction h generalizing cs' with
  | ended => exact List.nil_prefix
  | @step s cs _ yields ih =>
    obtain ⟨rest, further, rfl⟩ := h'.step_cases
    obtain same | ⟨exhausted, ended⟩ := @step_widened site bound s wider
    · rw [same] at further ⊢
      exact (List.prefix_append_right_inj _).2 (ih further)
    · rw [exhausted, yields.eq_nil ended]
      exact List.nil_prefix

/-! ### Choosing among candidates -/

/-- What is chosen from a list when trees with some fingerprints have been chosen before. -/
def chosen (admits : DerivationTree → Bool) (seen : List UInt64) (bound : Option Nat)
    (candidates : List DerivationTree) : List DerivationTree :=
  atMost bound <|
    ((candidates.filter admits).filter fun t => !seen.contains t.fingerprint).eraseDupsBy
      fun t u => t.fingerprint == u.fingerprint

section

variable {admits : DerivationTree → Bool} {seen : List UInt64} {bound : Option Nat}
  {t : DerivationTree} {cs : List DerivationTree}

theorem chosen_nil : chosen admits seen bound [] = [] := by
  cases bound <;> simp [chosen, atMost]

theorem chosen_zero : chosen admits seen (some 0) cs = [] := by
  simp [chosen, atMost]

theorem chosen_cons_of_not_admits (h : admits t = false) :
    chosen admits seen bound (t :: cs) = chosen admits seen bound cs := by
  simp [chosen, h]

theorem chosen_cons_of_seen (h : seen.contains t.fingerprint) :
    chosen admits seen bound (t :: cs) = chosen admits seen bound cs := by
  rw [chosen, chosen, List.filter_cons]
  split
  · rw [List.filter_cons_of_neg (by simpa using h)]
  · rfl

/-- What is chosen behind a chosen tree has other fingerprints. -/
theorem chosen_cons (h : admits t) (fresh : ¬ seen.contains t.fingerprint)
    (wanted : bound ≠ some 0) :
    chosen admits seen bound (t :: cs) =
      t :: chosen admits (t.fingerprint :: seen) (bound.map (· - 1)) cs := by
  have later : (((cs.filter admits).filter fun u => !seen.contains u.fingerprint).filter
      fun u => decide ((u.fingerprint == t.fingerprint) = false)) =
      (cs.filter admits).filter fun u => !(t.fingerprint :: seen).contains u.fingerprint := by
    rw [List.filter_filter]
    refine List.filter_congr fun u _ => ?_
    simp
  rw [chosen, List.filter_cons_of_pos h, List.filter_cons_of_pos (by simpa using fresh),
    List.eraseDupsBy_cons, later, chosen]
  match bound with
  | none => rfl
  | some 0 => exact absurd rfl wanted
  | some (n + 1) => rfl

end

theorem GraftRequest.select_eq_chosen (r : GraftRequest) (cs : List DerivationTree) :
    r.select cs = chosen r.admits [] r.settings.maxSolutions cs := by
  simp [select, chosen]

/-! ### Driving a run -/

def GraftStep.tree? : GraftStep → Option DerivationTree
  | emit t => some t
  | .continue => none
  | done => none

namespace GraftRun

variable {run run' last : GraftRun} {cs ts : List DerivationTree}

/-- A run that is carried to its end, and the trees that it submits to judgement on the way. -/
inductive Submits : GraftRun → List DerivationTree → Prop
  | ended {run : GraftRun} : run.search.phase = .done → Submits run []
  | step {run : GraftRun} {ts : List DerivationTree} : run.search.phase ≠ .done →
      Submits run.step.2 ts → Submits run (run.submission?.toList ++ ts)

/-- A run that is driven by calls for single steps and calls for results, in any order, and the trees
that it emits on the way. -/
inductive Drives : GraftRun → List DerivationTree → GraftRun → Prop
  | rest (run : GraftRun) : Drives run [] run
  | step {run last : GraftRun} {ts : List DerivationTree} : Drives run.step.2 ts last →
      Drives run (run.step.1.tree?.toList ++ ts) last
  | pull {run last : GraftRun} {ts : List DerivationTree} : Drives run.next?.2 ts last →
      Drives run (run.next?.1.toList ++ ts) last

/-- The results that are still to come, when the search brings to light these candidates. -/
def pending (run : GraftRun) (cs : List DerivationTree) : List DerivationTree :=
  chosen (fun t => (run.judge t).isOk) run.seen
    (run.settings.maxSolutions.map (· - run.stats.emitted)) cs

@[simp] theorem pending_nil (run : GraftRun) : run.pending [] = [] := chosen_nil

theorem pending_of_limitReached (h : run.limitReached) (cs : List DerivationTree) :
    run.pending cs = [] := by
  rw [limitReached] at h
  split at h
  · rename_i max hmax
    have none_left : max - run.stats.emitted = 0 := Nat.sub_eq_zero_of_le (by simpa using h)
    rw [pending, hmax, Option.map_some, none_left, chosen_zero]
  · simp at h

theorem Judgement.pending {t : DerivationTree} {answer : GraftStep}
    (going : ¬ run.limitReached) (h : run.Judgement t answer run') (cs : List DerivationTree) :
    run.pending (t :: cs) = answer.tree?.toList ++ run'.pending cs := by
  cases h with
  | reject rejected =>
    exact chosen_cons_of_not_admits (by simp [rejected, Except.isOk, Except.toBool])
  | repeated _ known => exact chosen_cons_of_seen known
  | emit admitted fresh =>
    have wanted : run.settings.maxSolutions.map (· - run.stats.emitted) ≠ some 0 := by
      intro h
      obtain ⟨max, hmax, left⟩ := Option.map_eq_some_iff.1 h
      refine going ?_
      rw [limitReached, hmax]
      exact decide_eq_true (Nat.le_of_sub_eq_zero left)
    rw [GraftRun.pending, chosen_cons (by simp [admitted, Except.isOk, Except.toBool]) fresh wanted,
      Option.map_map]
    rfl

/-- A step emits the next of the results that are still to come, or leaves them as they are. -/
theorem pending_step (h : run.site.Yields run.search cs) :
    ∃ rest, run.step.2.site.Yields run.step.2.search rest ∧
      run.pending cs = run.step.1.tree?.toList ++ run.step.2.pending rest := by
  have transition := run.step_transition
  generalize run.step.1 = answer, run.step.2 = run' at transition ⊢
  obtain ⟨rest, yields, rfl⟩ := h.step_cases
  cases transition with
  | stop limit => exact ⟨[], .ended rfl, by simp [pending_of_limitReached limit, GraftStep.tree?]⟩
  | exhausted going hs =>
    rw [hs] at yields ⊢
    exact ⟨rest, yields, rfl⟩
  | idle going hs =>
    rw [hs] at yields ⊢
    exact ⟨rest, yields, rfl⟩
  | discarded going hs =>
    rw [hs] at yields ⊢
    exact ⟨rest, yields, rfl⟩
  | @submit s t _ _ going hs judgement =>
    rw [hs] at yields ⊢
    obtain ⟨site, search⟩ := judgement.frame
    refine ⟨rest, by rw [site, search]; exact yields, ?_⟩
    have judged := judgement.pending (by exact going) rest
    exact judged

theorem phase_of_done (h : run.step.1 = .done) : run.step.2.search.phase = .done := by
  have transition := run.step_transition
  generalize run.step.1 = answer, run.step.2 = run' at transition h ⊢
  subst h
  cases transition with
  | stop => rfl
  | exhausted _ hs =>
    have move := run.site.step_move run.search
    rw [hs] at move
    cases move with
    | finished hp => exact hp
    | exhaust => rfl
    | examine _ _ _ trial => cases trial
  | submit _ _ judgement => cases judgement

theorem Pulls.pending {out : Option DerivationTree × GraftRun} (h : run.Pulls out)
    (yields : run.site.Yields run.search cs) :
    ∃ rest, out.2.site.Yields out.2.search rest ∧
      run.pending cs = out.1.toList ++ out.2.pending rest := by
  induction h generalizing cs with
  | emit hs =>
    have step := pending_step yields
    rwa [hs] at step
  | proceed hs _ ih =>
    obtain ⟨rest, yields, step⟩ := pending_step yields
    rw [hs] at yields step
    obtain ⟨rest', yields', pulled⟩ := ih yields
    exact ⟨rest', yields', step.trans pulled⟩
  | done hs =>
    have step := pending_step yields
    rwa [hs] at step

theorem Pulls.phase_of_none {out : Option DerivationTree × GraftRun} (h : run.Pulls out)
    (none : out.1 = none) : out.2.search.phase = .done := by
  induction h with
  | emit => simp at none
  | proceed _ _ ih => exact ih none
  | @done run run' hs =>
    have ended := phase_of_done (congrArg Prod.fst hs)
    rwa [hs] at ended

theorem Collects.pending {out : List DerivationTree × GraftRun} (h : run.Collects out)
    (yields : run.site.Yields run.search cs) : out.1 = run.pending cs := by
  induction h generalizing cs with
  | last pull =>
    obtain ⟨rest, yields, pulled⟩ := pull.pending yields
    obtain rfl := yields.eq_nil (pull.phase_of_none rfl)
    rw [pulled]
    simp
  | more pull _ ih =>
    obtain ⟨rest, yields, pulled⟩ := pull.pending yields
    rw [pulled, ← ih yields]
    rfl

theorem submits_of_yields {site : Site} {s : Search} (h : site.Yields s cs)
    (same : run.site = site ∧ run.search = s) (unbounded : run.settings.maxSolutions = none) :
    run.Submits cs := by
  induction h generalizing run with
  | ended hp => exact .ended (same.2 ▸ hp)
  | @step s cs hp _ ih =>
    obtain ⟨rfl, rfl⟩ := same
    have going : ¬ run.limitReached := by simp [limitReached, unbounded]
    obtain ⟨site, search⟩ := run.step_frame
    rw [if_neg going] at search
    have submitted : run.submission? = (run.site.step run.search).1.tree? := by
      rw [submission?, if_neg going]
    rw [← submitted]
    exact .step hp (ih ⟨site, search⟩ (by rw [run.step_terms.1, unbounded]))

theorem Submits.eq {ts us : List DerivationTree} (h : run.Submits ts) (h' : run.Submits us) :
    ts = us := by
  induction h generalizing us with
  | ended hp =>
    cases h' with
    | ended => rfl
    | step running => exact absurd hp running
  | step running _ ih =>
    cases h' with
    | ended hp => exact absurd hp running
    | step _ rest => rw [ih rest]

end GraftRun

namespace GraftRequest

variable {request : GraftRequest} {next : NodeId} {run last : GraftRun} {cs ts : List DerivationTree}

theorem Reaches.pulled {out : Option DerivationTree × GraftRun} (h : request.Reaches next run)
    (pull : run.Pulls out) : request.Reaches next out.2 := by
  have stepped {run run' : GraftRun} {answer : GraftStep} (h : request.Reaches next run)
      (hs : run.step = (answer, run')) : request.Reaches next run' := by
    have reached := h.step
    rwa [hs] at reached
  induction pull with
  | emit hs => exact stepped h hs
  | proceed hs _ ih => exact ih (stepped h hs)
  | done hs => exact stepped h hs

theorem Reaches.pulls_next (h : request.Reaches next run) : run.Pulls run.next? :=
  h.pulls_advance (h.site_eq ▸ request.site.stepsLeft_lt_stepBound run.search)

theorem Reaches.collects_results (h : request.Reaches next run) : run.Collects run.results :=
  h.collects_drain (h.site_eq ▸ request.site.stepsLeft_lt_stepBound run.search)

theorem Reaches.pending_drives (h : request.Reaches next run) (drives : run.Drives ts last)
    (yields : run.site.Yields run.search cs) :
    ∃ rest, last.site.Yields last.search rest ∧ run.pending cs = ts ++ last.pending rest := by
  induction drives generalizing cs with
  | rest => exact ⟨cs, yields, rfl⟩
  | step _ ih =>
    obtain ⟨rest, yields, step⟩ := GraftRun.pending_step yields
    obtain ⟨rest', yields', driven⟩ := ih h.step yields
    exact ⟨rest', yields', by rw [step, driven, List.append_assoc]⟩
  | pull _ ih =>
    obtain ⟨rest, yields, pulled⟩ := h.pulls_next.pending yields
    obtain ⟨rest', yields', driven⟩ := ih (h.pulled h.pulls_next) yields
    exact ⟨rest', yields', by rw [pulled, driven, List.append_assoc]⟩

theorem Reaches.judge_isOk (h : request.Reaches next run) (t : DerivationTree) :
    (run.judge t).isOk = request.admits t := by
  obtain ⟨settings, validity, placement⟩ := h.terms_eq
  rw [GraftRun.judge, settings, validity, placement, admits]
  have valid : (if request.settings.checkValidity then
        (Validity.ofTrees request.target request.insert).judge t.text else .ok ()).isOk =
      (!request.settings.checkValidity ||
        ((Validity.ofTrees request.target request.insert).judge t.text).isOk) := by
    cases request.settings.checkValidity <;> simp [Except.isOk, Except.toBool]
  rw [← valid]
  split
  · rename_i reason rejected
    rw [rejected]
    rfl
  · rename_i accepted
    rw [accepted]
    cases request.placement? with
    | none => rfl
    | some p =>
      have text : (Validity.ofTrees request.target request.insert).insertText =
        request.insert.text := rfl
      rw [text]
      by_cases holds : p.holds t request.insert.text <;>
        simp [holds, Except.isOk, Except.toBool]

theorem pending_start (request : GraftRequest) (next : NodeId) (cs : List DerivationTree) :
    (request.start next).pending cs = request.select cs := by
  have admitted : (fun t => ((request.start next).judge t).isOk) = request.admits :=
    funext fun t => Reaches.judge_isOk .start t
  have bound : (request.start next).settings.maxSolutions.map
      (· - (request.start next).stats.emitted) = request.settings.maxSolutions :=
    Option.map_id' ..
  rw [GraftRun.pending, admitted, bound, select_eq_chosen]
  rfl

/-- However a run is driven and whatever its terms are, it emits what is to be selected from the
candidates that it has without any terms. -/
theorem driven_eq_batch (request : GraftRequest) (next : NodeId) :
    ∃ candidates,
      ((request.onTerms none false none).start next).Submits candidates ∧
      (∀ maxSolutions checkValidity placement? ts last,
        ((request.onTerms maxSolutions checkValidity placement?).start next).Drives ts last →
          ts <+: (request.onTerms maxSolutions checkValidity placement?).select candidates ∧
          (last.search.phase = .done →
            ts = (request.onTerms maxSolutions checkValidity placement?).select candidates)) ∧
      (∀ k checkValidity placement?,
        ((request.onTerms (some k) checkValidity placement?).start next).results.1 =
          ((request.onTerms none checkValidity placement?).start next).results.1.take k) ∧
      ∀ m bound more, request.settings.maxExtensions = some m → (∀ m' ∈ bound, m ≤ m') →
        (((request.capped bound).onTerms none false none).start next).Submits more →
          candidates <+: more := by
  have yields (r : GraftRequest) : ∃ cs, r.site.Yields (r.site.start r.insert next) cs :=
    (Site.Bounded.start r.site r.insert next).yields
  obtain ⟨cs, hcs⟩ := yields request
  have results (maxSolutions checkValidity placement?) :
      ((request.onTerms maxSolutions checkValidity placement?).start next).results.1 =
        (request.onTerms maxSolutions checkValidity placement?).select cs := by
    rw [← pending_start _ next]
    exact (Reaches.start.collects_results).pending hcs
  refine ⟨cs, GraftRun.submits_of_yields hcs ⟨rfl, rfl⟩ rfl, ?_, ?_, ?_⟩
  · intro maxSolutions checkValidity placement? ts last drives
    obtain ⟨rest, yields, split⟩ := Reaches.start.pending_drives drives hcs
    rw [pending_start] at split
    refine ⟨⟨_, split.symm⟩, fun ended => ?_⟩
    obtain rfl := yields.eq_nil ended
    rw [split]
    simp
  · intro k checkValidity placement?
    rw [results, results]
    rfl
  · intro m bound more hm wider submits
    obtain ⟨cs', hcs'⟩ := yields (request.capped bound)
    obtain rfl := submits.eq (GraftRun.submits_of_yields hcs' ⟨rfl, rfl⟩ rfl)
    refine hcs.isPrefix_widened (fun u may => ?_) hcs'
    exact request.site.mayExtend_widened hm wider may

end GraftRequest

end Scion
