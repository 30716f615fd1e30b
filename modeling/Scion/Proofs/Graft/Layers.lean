import Scion.Proofs.Grammar.Ways
import Scion.Proofs.Graft.Legality
import Scion.Proofs.Graft.Termination

/-!
The phases of a run in layers. Each phase of seeking inserts the original tree inside of some
wrappers, and the symbols of these wrappers are a way up from the symbol of the tree. Wrappers are
queued behind each other and a symbol is left for its parents only once, so the phases come in the
order of the number of wrappers, every pair of a symbol and a possible parent below the root symbol of
the target has one phase, and a symbol is first reached by a shortest way up.
-/

namespace Scion

/-- A tree inside of wrappers. The symbols are those of the wrappers from the outside to the inside,
and last that of the tree. -/
inductive Layered (g : Grammar) (origin : DerivationTree) : List Symbol → DerivationTree → Prop
  | bare : Layered g origin [origin.symbol] origin
  | wrap {symbols : List Symbol} {t w : DerivationTree} {parent : Symbol} {next next' : NodeId} :
      Layered g origin symbols t → Host.wrap g parent t next = .ok (w, next') →
      Layered g origin (parent :: symbols) w

namespace Layered

variable {g : Grammar} {origin t w : DerivationTree} {symbols symbols' : List Symbol}

theorem exists_rest (h : Layered g origin symbols t) : ∃ rest, symbols = t.symbol :: rest := by
  cases h with
  | bare => exact ⟨[], rfl⟩
  | @wrap below t w parent next next' _ hw =>
    obtain ⟨l, r, last, hmade, -⟩ := Host.wrap_ok hw
    obtain ⟨rfl, -⟩ := Prod.mk.inj hmade
    exact ⟨below, rfl⟩

theorem eq_of_singleton {s : Symbol} (h : Layered g origin [s] t) : t = origin := by
  cases h with
  | bare => rfl
  | wrap below =>
    obtain ⟨_, inside⟩ := below.exists_rest
    cases inside

theorem size_le (h : Layered g origin symbols t) : origin.size ≤ t.size := by
  induction h with
  | bare => exact Nat.le_refl _
  | wrap _ hw ih =>
    obtain ⟨l, r, last, hmade, -⟩ := Host.wrap_ok hw
    obtain ⟨rfl, -⟩ := Prod.mk.inj hmade
    rw [Tree.size, Tree.sizeAll_append, Tree.sizeAll]
    omega

/-- A wrapper has children, so a leaf is not wrapped. -/
theorem eq_origin (h : Layered g origin symbols t) (leaf : t.isLeaf) : t = origin := by
  cases h with
  | bare => rfl
  | wrap _ hw =>
    obtain ⟨l, r, last, hmade, -⟩ := Host.wrap_ok hw
    obtain ⟨rfl, -⟩ := Prod.mk.inj hmade
    simp [Tree.isLeaf] at leaf

theorem ne_origin_of_wrap {parent : Symbol} {next next' : NodeId} (h : Layered g origin symbols t)
    (hw : Host.wrap g parent t next = .ok (w, next')) : w ≠ origin := by
  rintro rfl
  obtain ⟨l, r, last, hmade, -⟩ := Host.wrap_ok hw
  obtain ⟨rfl, -⟩ := Prod.mk.inj hmade
  have larger := h.size_le
  rw [Tree.size, Tree.sizeAll_append, Tree.sizeAll] at larger
  omega

/-- The wrappers can be read off a tree. -/
theorem unique (h : Layered g origin symbols w) (h' : Layered g origin symbols' w) :
    symbols = symbols' := by
  induction h generalizing symbols' with
  | bare =>
    cases h' with
    | bare => rfl
    | wrap below hw => exact absurd rfl (below.ne_origin_of_wrap hw)
  | @wrap symbols t w parent next next' below hw ih =>
    cases h' with
    | bare => exact absurd rfl (below.ne_origin_of_wrap hw)
    | @wrap symbols' u _ parent' _ _ below' hw' =>
      obtain ⟨l, r, last, hmade, -, -, others⟩ := Host.wrap_ok hw
      obtain ⟨l', r', last', hmade', -, -, others'⟩ := Host.wrap_ok hw'
      obtain ⟨same, -⟩ := Prod.mk.inj hmade
      obtain ⟨same', -⟩ := Prod.mk.inj hmade'
      obtain ⟨label, children⟩ := Tree.node.inj (same.symm.trans same')
      obtain rfl : parent = parent' := congrArg Node.symbol label
      -- The two trees inside are the same, or each is one of the leaves beside the other.
      have inside : t = u := by
        by_contra differ
        have left : t ∈ l' ++ r' := by
          have : t ∈ l' ++ u :: r' := children ▸ by simp
          grind
        have right : u ∈ l ++ r := by
          have : u ∈ l ++ t :: r := children ▸ by simp
          grind
        exact differ ((below.eq_origin (others' t left).isLeaf).trans
          (below'.eq_origin (others u right).isLeaf).symm)
      rw [ih (inside ▸ below')]

end Layered

/-- A possible parent has an alternative for a wrapper. -/
theorem Host.exists_wrap {g : Grammar} {parent : Symbol} {t : DerivationTree}
    (h : parent ∈ g.possibleParents t.symbol) (next : NodeId) :
    ∃ made, wrap g parent t next = .ok made := by
  obtain ⟨a, known, slot⟩ := Grammar.mem_possibleParents.1 h
  obtain ⟨b, hb⟩ := Alternatives.exists_shortestContaining known slot
  rw [wrap, hb]
  exact ⟨_, rfl⟩

/-! ### One phase after the other -/

namespace Site

/-- What a search knows about its phases: the ways up of those that are past, of the present one, and
of the wrappers that wait. They get longer in this order, those that wait by one step at most; and
all that are past have been continued. -/
structure Climbing (site : Site) (origin : DerivationTree) (s : Search)
    (phases : List DerivationTree) (past : List (List Symbol)) (present : List Symbol)
    (queue : List (List Symbol)) : Prop where
  begun : List.Forall₂ (Layered site.grammar origin) (past ++ [present]) phases
  noted : s.insertSymbol = s.insert.symbol
  insert : Layered site.grammar origin present s.insert
  wrappers : List.Forall₂ (Layered site.grammar origin) queue s.wrappers
  ways : ∀ c ∈ past ++ present :: queue,
    site.grammar.WayUp site.target.symbol origin.symbol c
  tried : s.tried = ((past ++ present :: queue).filterMap Grammar.lastStep?).reverse
  extensions : s.extensions = past.length
  first : ∃ later, past ++ present :: queue = [origin.symbol] :: later ∧
    ∀ c ∈ later, (Grammar.lastStep? c).isSome
  sorted : (past ++ present :: queue).Pairwise fun c d => c.length ≤ d.length
  spread : ∀ c ∈ queue, c.length ≤ present.length + 1
  continued : ∀ c ∈ past,
    site.grammar.Continued site.target.symbol (past ++ present :: queue) c

theorem Wrapping.tried {site : Site} {s s' : Search} {parent : Symbol}
    (wrapping : site.Wrapping s parent s') :
    s.tried ⊆ s'.tried ∧ (s.insertSymbol, parent) ∈ s'.tried := by
  cases wrapping with
  | known known => exact ⟨List.Subset.refl _, known⟩
  | queued => exact ⟨List.subset_cons_self .., List.mem_cons_self⟩
  | refused => exact ⟨List.subset_cons_self .., List.mem_cons_self⟩

theorem tried_foldl_queueWrapper (site : Site) (s : Search) (parents : List Symbol) :
    s.tried ⊆ (parents.foldl site.queueWrapper s).tried ∧
      ∀ p ∈ parents, (s.insertSymbol, p) ∈ (parents.foldl site.queueWrapper s).tried := by
  induction parents generalizing s with
  | nil => exact ⟨List.Subset.refl _, by simp⟩
  | cons p parents ih =>
    have wrapping := site.queueWrapper_wrapping s p
    obtain ⟨kept, first⟩ := wrapping.tried
    obtain ⟨grown, others⟩ := ih (site.queueWrapper s p)
    rw [wrapping.insert_eq.2] at others
    exact ⟨List.Subset.trans kept grown, List.forall_mem_cons.2 ⟨grown first, others⟩⟩

/-- All possible parents have been tried when wrappers have been queued. -/
theorem mem_tried_queueWrappers {site : Site} {s : Search} {parent : Symbol}
    (low : s.insertSymbol ≠ site.target.symbol)
    (edge : parent ∈ site.grammar.possibleParents s.insertSymbol) :
    (s.insertSymbol, parent) ∈ (site.queueWrappers s).tried := by
  rw [queueWrappers, if_neg low]
  exact (site.tried_foldl_queueWrapper s _).2 parent edge

namespace Climbing

variable {site : Site} {origin : DerivationTree} {s s' : Search} {phases : List DerivationTree}
  {past queue : List (List Symbol)} {present : List Symbol}

theorem start (site : Site) (origin : DerivationTree) (next : NodeId) :
    site.Climbing origin (site.start origin next) [origin] [] [origin.symbol] [] where
  begun := .cons .bare .nil
  noted := rfl
  insert := .bare
  wrappers := .nil
  ways c hc := by
    rw [List.mem_singleton.1 hc]
    exact .start
  tried := rfl
  extensions := rfl
  first := ⟨[], rfl, by simp⟩
  sorted := List.pairwise_singleton ..
  spread := by simp
  continued := by simp

theorem length_le (h : site.Climbing origin s phases past present queue) :
    ∀ c ∈ past ++ present :: queue, c.length ≤ present.length + 1 := by
  obtain ⟨-, -, before⟩ := List.pairwise_append.1 h.sorted
  intro c hc
  rcases List.mem_append.1 hc with hc | hc
  · exact Nat.le_succ_of_le (before c hc present List.mem_cons_self)
  · obtain rfl | hc := List.mem_cons.1 hc
    · exact Nat.le_succ _
    · exact h.spread c hc

theorem mem_tried (h : site.Climbing origin s phases past present queue) {t parent : Symbol} :
    (t, parent) ∈ s.tried ↔ ∃ rest, parent :: t :: rest ∈ past ++ present :: queue := by
  rw [h.tried, List.mem_reverse, Grammar.mem_filterMap_lastStep?]

/-- Another wrapper around the inserted tree waits behind the others. -/
theorem wrapping (h : site.Climbing origin s phases past present queue) {parent : Symbol}
    (low : s.insertSymbol ≠ site.target.symbol)
    (edge : parent ∈ site.grammar.possibleParents s.insertSymbol)
    (wrapping : site.Wrapping s parent s') :
    ∃ queue', site.Climbing origin s' phases past present queue' := by
  cases wrapping with
  | known => exact ⟨queue, h⟩
  | refused _ hw =>
    obtain ⟨made, hmade⟩ := Host.exists_wrap (h.noted ▸ edge) s.next
    simp [hw] at hmade
  | @queued wrapper next untried hw =>
    obtain ⟨rest, hrest⟩ := h.insert.exists_rest
    rw [← h.noted] at hrest
    have regroup : past ++ present :: (queue ++ [parent :: present]) =
        past ++ present :: queue ++ [parent :: present] := by simp
    have outer : Grammar.lastStep? (parent :: present) = some (s.insertSymbol, parent) := by
      rw [hrest]
      rfl
    refine ⟨queue ++ [parent :: present], ?_⟩
    constructor
    case begun => exact h.begun
    case noted => exact h.noted
    case insert => exact h.insert
    case wrappers => exact List.rel_append h.wrappers (.cons (h.insert.wrap hw) .nil)
    case ways =>
      rw [regroup, List.forall_mem_append, List.forall_mem_singleton]
      refine ⟨h.ways, ?_⟩
      have way := h.ways present (by simp)
      rw [hrest] at way ⊢
      exact way.parent low edge
    case tried =>
      rw [regroup, List.filterMap_append, List.reverse_append, ← h.tried]
      simp [outer]
    case extensions => exact h.extensions
    case first =>
      obtain ⟨later, split, inner⟩ := h.first
      refine ⟨later ++ [parent :: present], by rw [regroup, split]; rfl, ?_⟩
      rw [List.forall_mem_append, List.forall_mem_singleton, outer]
      exact ⟨inner, rfl⟩
    case sorted =>
      rw [regroup, List.pairwise_append]
      refine ⟨h.sorted, List.pairwise_singleton .., fun c hc d hd => ?_⟩
      rw [List.mem_singleton.1 hd]
      exact h.length_le c hc
    case spread =>
      rw [List.forall_mem_append, List.forall_mem_singleton]
      exact ⟨h.spread, Nat.le_refl _⟩
    case continued =>
      intro c hc
      exact (h.continued c hc).mono (regroup ▸ List.subset_append_left ..)

/-- Queueing wrappers continues the way of the present phase. -/
theorem queueWrappers (h : site.Climbing origin s phases past present queue) :
    ∃ queue', site.Climbing origin (site.queueWrappers s) phases past present queue' ∧
      site.grammar.Continued site.target.symbol (past ++ present :: queue') present := by
  obtain ⟨rest, hrest⟩ := h.insert.exists_rest
  rw [← h.noted] at hrest
  by_cases low : s.insertSymbol = site.target.symbol
  · rw [Site.queueWrappers, if_pos low]
    refine ⟨queue, h, fun t rest' ht other => ?_⟩
    rw [hrest] at ht
    exact absurd ((List.cons.inj ht).1 ▸ low) other
  · obtain ⟨queue', h'⟩ : ∃ queue',
        site.Climbing origin (site.queueWrappers s) phases past present queue' := by
      refine queueWrappers_induct
        (motive := fun u => ∃ queue', site.Climbing origin u phases past present queue')
        ⟨queue, h⟩ ?_
      rintro u u' parent edge same wrapping ⟨queue', hu⟩
      rw [← same.2] at low edge
      exact hu.wrapping low edge wrapping
    refine ⟨queue', h', fun t rest' ht _ parent edge => ?_⟩
    obtain ⟨rfl, rfl⟩ := List.cons.inj (hrest.symm.trans ht)
    obtain ⟨rest', known⟩ := h'.mem_tried.1 (site.mem_tried_queueWrappers low edge)
    refine ⟨rest', known, ?_⟩
    have := h'.length_le _ known
    rw [ht] at this
    simpa using this

/-- The first wrapper that waits makes the next phase. -/
theorem turn {wrapper : DerivationTree} {rest : List DerivationTree}
    (h : site.Climbing origin s phases past present queue)
    (continued : site.grammar.Continued site.target.symbol (past ++ present :: queue) present)
    (hw : s.wrappers = wrapper :: rest) :
    ∃ c queue', site.Climbing origin
      { s with
        phase := .seek
        insert := wrapper
        insertSymbol := wrapper.symbol
        frontier := [site.target]
        visited := []
        wrappers := rest
        extensions := s.extensions + 1 }
      (phases ++ [wrapper]) (past ++ [present]) c queue' := by
  have waiting := h.wrappers
  rw [hw] at waiting
  cases waiting with
  | @cons c _ queue' _ layered waiting =>
    have regroup : past ++ [present] ++ c :: queue' = past ++ present :: c :: queue' := by simp
    obtain ⟨-, behind, -⟩ := List.pairwise_append.1 h.sorted
    refine ⟨c, queue', ?_⟩
    constructor
    case begun => exact List.rel_append h.begun (.cons layered .nil)
    case noted => rfl
    case insert => exact layered
    case wrappers => exact waiting
    case ways => exact regroup ▸ h.ways
    case tried => rw [regroup, h.tried]
    case extensions => simp [h.extensions]
    case first => exact regroup ▸ h.first
    case sorted => exact regroup ▸ h.sorted
    case spread =>
      intro d hd
      have longer := (List.pairwise_cons.1 behind).1 c List.mem_cons_self
      have := h.spread d (List.mem_cons_of_mem _ hd)
      omega
    case continued =>
      rw [regroup, List.forall_mem_append, List.forall_mem_singleton]
      exact ⟨h.continued, continued⟩

/-- What a finished search knows: no wrapper waits, and the way of the last phase is continued, too. -/
def Finished (site : Site) (s : Search) (past : List (List Symbol)) (present : List Symbol)
    (queue : List (List Symbol)) : Prop :=
  s.phase = .done → queue = [] ∧
    site.grammar.Continued site.target.symbol (past ++ present :: queue) present

theorem move {finding : Finding} (uncapped : site.maxExtensions = none)
    (h : site.Climbing origin s phases past present queue)
    (finished : Finished site s past present queue) (move : site.Move s finding s') :
    ∃ past' present' queue',
      site.Climbing origin s'
        (phases ++ if s.phase = .extend ∧ s'.phase = .seek then [s'.insert] else [])
        past' present' queue' ∧ Finished site s' past' present' queue' := by
  have may (u : Search) : site.mayExtend u = true := by rw [mayExtend, uncapped]
  cases move with
  | finished hp =>
    refine ⟨past, present, queue, ?_, finished⟩
    simpa [hp] using h
  | turn hp =>
    refine ⟨past, present, queue, ?_, by simp [Finished]⟩
    simpa [hp] using { h with }
  | skip hp =>
    refine ⟨past, present, queue, ?_, by simp [Finished, hp]⟩
    simpa [hp] using { h with }
  | examine hp _ _ trial =>
    obtain ⟨queued, bound, rfl, -⟩ := trial.frame
    refine ⟨past, present, queue, ?_, by simp [Finished, hp]⟩
    simpa [hp] using { h with }
  | @wrap wrapper rest hp _ hw =>
    obtain ⟨queue', h', continued⟩ := h.queueWrappers
    obtain ⟨c, queue'', turned⟩ := h'.turn continued hw
    refine ⟨past ++ [present], c, queue'', ?_, by simp [Finished]⟩
    simpa [hp] using turned
  | exhaust hp stop =>
    obtain ⟨queue', h', continued⟩ := h.queueWrappers
    have waiting := h'.wrappers
    rw [stop (may _)] at waiting
    cases waiting
    refine ⟨past, present, [], ?_, fun _ => ⟨rfl, continued⟩⟩
    simpa [hp] using { h' with }

end Climbing

end Site

namespace GraftRun

/-- The tree that the next phase of seeking inserts, when it begins with the next step. -/
def opening? (run : GraftRun) : Option DerivationTree :=
  if run.search.phase = .extend ∧ run.step.2.search.phase = .seek then
    some run.step.2.search.insert
  else none

/-- The trees that the phases of seeking insert, up to the one in which a run is after so many steps. -/
def phases (run : GraftRun) : Nat → List DerivationTree
  | 0 => [run.search.insert]
  | n + 1 => run.phases n ++ (run.after n).opening?.toList

end GraftRun

namespace GraftRequest

variable {request : GraftRequest} {next : NodeId}

theorem climbing_after (next : NodeId) (unbounded : request.settings.maxSolutions = none)
    (uncapped : request.settings.maxExtensions = none) (n : Nat) :
    ∃ past present queue,
      request.site.Climbing request.insert ((request.start next).after n).search
        ((request.start next).phases n) past present queue ∧
      Site.Climbing.Finished request.site ((request.start next).after n).search past present
        queue := by
  induction n with
  | zero => exact ⟨[], [request.insert.symbol], [], .start _ _ next, fun ended => by cases ended⟩
  | succ n ih =>
    obtain ⟨past, present, queue, h, finished⟩ := ih
    have reached : request.Reaches next ((request.start next).after n) := reaches_after .start n
    rw [GraftRun.phases, GraftRun.opening?, GraftRun.after]
    generalize (request.start next).after n = run at h finished reached ⊢
    have going : ¬ run.limitReached := by simp [GraftRun.limitReached, reached.terms_eq.1, unbounded]
    have searched := run.step_frame.2
    rw [if_neg going, reached.site_eq] at searched
    rw [searched, apply_ite Option.toList]
    exact h.move uncapped finished (request.site.step_move run.search)

variable {n : Nat}

/-- The phase with this number inserts the original tree inside of wrappers with these symbols. -/
def Inserts (request : GraftRequest) (next : NodeId) (n i : Nat) (symbols : List Symbol) : Prop :=
  ∃ w, ((request.start next).phases n)[i]? = some w ∧
    Layered request.grammar request.insert symbols w

theorem inserts_iff {ways : List (List Symbol)} {i : Nat} {symbols : List Symbol}
    (begun : List.Forall₂ (Layered request.grammar request.insert) ways
      ((request.start next).phases n)) :
    request.Inserts next n i symbols ↔ ways[i]? = some symbols := by
  constructor
  · rintro ⟨w, hw, layered⟩
    obtain ⟨symbols', known, layered'⟩ := getElem?_of_forall₂ begun.flip hw
    rw [known, layered.unique layered']
  · exact getElem?_of_forall₂ begun

/-- The phases of a finished run correspond to ways up. -/
theorem exists_spanned (unbounded : request.settings.maxSolutions = none)
    (uncapped : request.settings.maxExtensions = none)
    (ended : ((request.start next).after n).search.phase = .done) :
    ∃ ways, request.grammar.Spanned request.target.symbol request.insert.symbol ways ∧
      ways.length = ((request.start next).after n).stats.extensions + 1 ∧
      List.Forall₂ (Layered request.grammar request.insert) ways ((request.start next).phases n) := by
  obtain ⟨past, present, queue, h, finished⟩ := climbing_after next unbounded uncapped n
  obtain ⟨rfl, continued⟩ := finished ended
  have reached : request.Reaches next ((request.start next).after n) := reaches_after .start n
  have once := reached.bounded.tried_nodup
  rw [h.tried, List.nodup_reverse] at once
  refine ⟨past ++ [present], ?_, ?_, h.begun⟩
  · constructor
    case upward => exact h.ways
    case first => exact h.first
    case once => exact once
    case sorted => exact h.sorted
    case continued =>
      exact List.forall_mem_append.2 ⟨h.continued, List.forall_mem_singleton.2 continued⟩
  · rw [reached.counts.1, h.extensions, List.length_append, List.length_singleton]

/-- The phases of a finished run. There is one for every step up from a symbol below the root symbol
of the target, and no other one but the first; the wrappers get no fewer from phase to phase; and the
first phase that inserts a tree with some symbol has as few wrappers as can lead there. -/
theorem phases_layered (unbounded : request.settings.maxSolutions = none)
    (uncapped : request.settings.maxExtensions = none)
    (ended : ((request.start next).after n).search.phase = .done) :
    let g := request.grammar
    let top := request.target.symbol
    let start := request.insert.symbol
    let phases := (request.start next).phases n
    let inserts := request.Inserts next n
    (∀ s, g.Above top start s → s ≠ top → ∀ parent ∈ g.possibleParents s,
        ∃! i, ∃ rest, inserts i (parent :: s :: rest)) ∧
      (phases[0]? = some request.insert ∧ ∀ i w, phases[i + 1]? = some w →
        ∃ s parent rest, Layered g request.insert (parent :: s :: rest) w ∧
          g.Above top start s ∧ s ≠ top ∧ parent ∈ g.possibleParents s) ∧
      (∃ members : Finset Symbol, (∀ s, s ∈ members ↔ g.Above top start s) ∧
        ((request.start next).after n).stats.extensions =
          ∑ s ∈ members.erase top, (g.possibleParents s).length ∧
        phases.length = ((request.start next).after n).stats.extensions + 1) ∧
      (∀ i j symbols symbols', i ≤ j → inserts i symbols → inserts j symbols' →
        symbols.length ≤ symbols'.length) ∧
      ∀ s, g.Above top start s → ∃ i rest, inserts i (s :: rest) ∧
        (∀ j < i, ∀ w, phases[j]? = some w → w.symbol ≠ s) ∧
        g.WayUp top start (s :: rest) ∧
        ∀ other, g.WayUp top start (s :: other) → rest.length ≤ other.length := by
  intro g top start phases inserts
  obtain ⟨ways, spanned, length, begun⟩ := exists_spanned unbounded uncapped ended
  have of_phase {i : Nat} {w : DerivationTree} (hw : phases[i]? = some w) :
      ∃ symbols, ways[i]? = some symbols ∧ Layered g request.insert symbols w :=
    getElem?_of_forall₂ begun.flip hw
  refine ⟨?once, ⟨?insert, ?others⟩, ?count, ?sorted, ?first⟩
  case once =>
    intro s above low parent edge
    obtain ⟨rest, known⟩ := spanned.exists_step above low edge
    obtain ⟨i, hi⟩ := List.mem_iff_getElem?.1 known
    refine ⟨i, ⟨rest, (inserts_iff begun).2 hi⟩, ?_⟩
    rintro j ⟨rest', hj⟩
    exact spanned.eq_of_lastStep? ((inserts_iff begun).1 hj) hi rfl rfl
  case insert =>
    obtain ⟨w, hw, layered⟩ := (inserts_iff begun).2 spanned.zero
    rw [hw, layered.eq_of_singleton]
  case others =>
    intro i w hw
    obtain ⟨symbols, known, layered⟩ := of_phase hw
    obtain ⟨parent, s, rest, rfl⟩ := spanned.succ known
    exact ⟨s, parent, rest, layered, spanned.step_upward (List.mem_of_getElem? known)⟩
  case count =>
    obtain ⟨members, mem_members, sum⟩ := spanned.length_eq
    rw [length] at sum
    exact ⟨members, mem_members, Nat.succ.inj sum, begun.length_eq ▸ length⟩
  case sorted =>
    intro i j symbols symbols' hle hi hj
    exact spanned.length_le ((inserts_iff begun).1 hi) ((inserts_iff begun).1 hj) hle
  case first =>
    intro s above
    obtain ⟨i, rest, hi, new, least⟩ := spanned.exists_first above
    refine ⟨i, rest, (inserts_iff begun).2 hi, ?_, spanned.upward _ (List.mem_of_getElem? hi), least⟩
    rintro j hj w hw rfl
    obtain ⟨symbols, known, layered⟩ := of_phase hw
    obtain ⟨rest', rfl⟩ := layered.exists_rest
    exact new j hj rest' known

end GraftRequest

namespace CommaList

/-- The `b` is wrapped in an item, the item in a list, and the list in a list and in a start symbol,
which makes four wrappings. A list is wrapped in a list only once, although it could go on. -/
theorem phases_layered_b :
    request.settings.maxSolutions = none ∧ request.settings.maxExtensions = none ∧
      ((request.start 6).after 20).search.phase = .done ∧
      (∃! i, ∃ rest, request.Inserts 6 20 i (⟨"<list>"⟩ :: ⟨"<list>"⟩ :: rest)) ∧
      ∃ members : Finset Symbol,
        (∀ s, s ∈ members ↔ grammar.Above ⟨"<start>"⟩ ⟨"b"⟩ s) ∧
        4 = ∑ s ∈ members.erase ⟨"<start>"⟩, (grammar.possibleParents s).length := by
  have unbounded : request.settings.maxSolutions = none := rfl
  have uncapped : request.settings.maxExtensions = none := rfl
  have ended : ((request.start 6).after 20).search.phase = .done := by decide
  obtain ⟨once, -, ⟨members, mem_members, sum, -⟩, -⟩ :=
    GraftRequest.phases_layered unbounded uncapped ended
  have item : grammar.Above ⟨"<start>"⟩ ⟨"b"⟩ ⟨"<item>"⟩ := .parent .start (by decide) (by decide)
  have list : grammar.Above ⟨"<start>"⟩ ⟨"b"⟩ ⟨"<list>"⟩ := item.parent (by decide) (by decide)
  have four : ((request.start 6).after 20).stats.extensions = 4 := by decide
  exact ⟨unbounded, uncapped, ended, once _ list (by decide) _ (by decide), members, mem_members,
    four ▸ sum⟩

end CommaList

end Scion
