import Scion.Proofs.Graft.Host
import Scion.Proofs.Graft.Move
import Scion.Proofs.Graft.Walk

/-!
The frontier stays inside the target. Whatever a trial finds, it only queues nodes below the one
that is examined and takes identities from the supply; so every node that is ever examined, and
every host that is ever chosen, is a node of the target and can be exchanged there.
-/

namespace Scion

namespace Site

variable {site : Site} {s s' : Search} {node t : DerivationTree} {finding : Finding}

theorem Trial.frame (h : site.Trial s node finding s') :
    ∃ queued next, s' = { s with frontier := s.frontier ++ queued, next := next } ∧
      s.next ≤ next ∧ (∀ c ∈ queued, c ∈ node.preorder) ∧ queued.length < node.size := by
  have nothing : s = { s with frontier := s.frontier ++ [], next := s.next } := by simp
  have none_queued : ∃ queued next, s = { s with frontier := s.frontier ++ queued, next := next } ∧
      s.next ≤ next ∧ (∀ c ∈ queued, c ∈ node.preorder) ∧ queued.length < node.size := by
    refine ⟨[], s.next, nothing, Nat.le_refl _, by simp, ?_⟩
    rw [← Tree.length_preorder, Tree.preorder_eq_cons]
    simp
  have walked (path : List Symbol) := Walk.queued_along node path s.insertSymbol
  have built {a : Alternative} {arrival : Arrival} {made : DerivationTree} {next : NodeId}
      (hm : Host.build site.grammar site.expandTrivial a arrival.parent s.insert arrival.sibling?
        s.next = (made, next)) : s.next ≤ next := by
    have later := @Host.le_build_next site.grammar site.expandTrivial s.insert arrival.parent a
      arrival.sibling? s.next
    rwa [hm] at later
  cases h with
  | fill => exact none_queued
  | unfilled => exact none_queued
  | unreachable => exact none_queued
  | astray => exact ⟨_, _, rfl, Nat.le_refl _, walked _⟩
  | unsuited => exact ⟨_, _, rfl, Nat.le_refl _, walked _⟩
  | build _ _ _ _ hm => exact ⟨_, _, rfl, built hm, walked _⟩
  | unplaced _ _ _ _ hm => exact ⟨_, _, rfl, built hm, walked _⟩

def FrontierWithin (site : Site) (s : Search) : Prop :=
  ∀ c ∈ s.frontier, c ∈ site.target.preorder

theorem FrontierWithin.move (within : site.FrontierWithin s) (h : site.Move s finding s') :
    site.FrontierWithin s' := by
  cases h with
  | finished => exact within
  | turn => exact within
  | skip _ hf => exact fun c hc => within c (hf ▸ List.mem_cons_of_mem _ hc)
  | @examine node rest _ _ _ hf _ trial =>
    obtain ⟨queued, next, rfl, -, below, -⟩ := trial.frame
    intro c hc
    obtain hc | hc := List.mem_append.1 hc
    · exact within c (hf ▸ List.mem_cons_of_mem _ hc)
    · exact Tree.mem_preorder_trans (below c hc) (within node (hf ▸ List.mem_cons_self))
  | wrap =>
    intro c hc
    rw [List.mem_singleton.1 hc]
    exact Tree.self_mem_preorder _
  | exhaust =>
    obtain ⟨_, _, _, frame⟩ := site.queueWrappers_frame s
    rw [frame]
    exact within

theorem Move.noted (h : site.Move s finding s') (noted : s.insertSymbol = s.insert.symbol) :
    s'.insertSymbol = s'.insert.symbol := by
  cases h with
  | finished => exact noted
  | turn => exact noted
  | skip => exact noted
  | examine _ _ _ trial =>
    obtain ⟨_, _, rfl, -⟩ := trial.frame
    exact noted
  | wrap => rfl
  | exhaust =>
    obtain ⟨_, _, _, frame⟩ := site.queueWrappers_frame s
    rw [frame]
    exact noted

theorem frontierWithin_start (site : Site) (insert : DerivationTree) (next : NodeId) :
    site.FrontierWithin (site.start insert next) := by
  intro c hc
  rw [List.mem_singleton.1 hc]
  exact Tree.self_mem_preorder _

/-! ### Exchanging nodes of the target -/

/-- Every exchange of a node takes place at the same path. -/
theorem exists_exchange_at (h : node ∈ site.target.preorder) :
    ∃ p, site.target.find? node.id = some p ∧ ∀ x, ∃ t,
      site.exchange node.id x = .ok t ∧ site.target.replaceAt p x = .ok t := by
  obtain ⟨p, r, hp, hr, -⟩ := Tree.exists_find? h
  refine ⟨p, hp, fun x => ?_⟩
  obtain ⟨t, ht⟩ := Tree.exists_replaceAt hr x
  exact ⟨t, by rw [exchange, hp]; exact ht, ht⟩

theorem exists_exchange (h : node ∈ site.target.preorder) (x : DerivationTree) :
    ∃ t, site.exchange node.id x = .ok t := by
  obtain ⟨p, -, exchanged⟩ := exists_exchange_at h
  obtain ⟨t, ht, -⟩ := exchanged x
  exact ⟨t, ht⟩

theorem exchange_ok (distinct : site.target.ids.Nodup) (h : node ∈ site.target.preorder)
    {x : DerivationTree} (ht : site.exchange node.id x = .ok t) :
    ∃ p, site.target.subtreeAt p = .ok node ∧ site.target.replaceAt p x = .ok t := by
  obtain ⟨p, hp, hn⟩ := Tree.exists_find?_self distinct h
  rw [exchange, hp] at ht
  exact ⟨p, hn, ht⟩

/-- The target with its node `n` at `p` filled by a tree or exchanged for a host of it, where fresh
identities are issued from `next` on. -/
inductive GraftAt (site : Site) (insert : DerivationTree) (next : NodeId) (p : Path)
    (n t : DerivationTree) : Prop
  | fill : n.isOpen → n.symbol = insert.symbol → site.target.replaceAt p insert = .ok t →
      GraftAt site insert next p n t
  | host {a : Alternative} :
      Alternatives.shortestMatching site.grammar n.symbol insert.symbol = .ok a →
      site.target.replaceAt p (Host.build site.grammar site.expandTrivial a n insert
        (n.children.find? fun c => c.symbol = insert.symbol) next).1 = .ok t →
      GraftAt site insert next p n t

theorem Trial.graftAt (h : site.Trial s node (.candidate t) s')
    (noted : s.insertSymbol = s.insert.symbol) (distinct : site.target.ids.Nodup)
    (within : node ∈ site.target.preorder) :
    ∃ p n, site.target.subtreeAt p = .ok n ∧ site.GraftAt s.insert s.next p n t := by
  cases h with
  | fill hopen hsymbol ht =>
    obtain ⟨p, hp, hr⟩ := exchange_ok distinct within ht
    exact ⟨p, node, hp, .fill hopen (hsymbol.trans noted) hr⟩
  | @build path arrival a made next _ _ _ hout ha hmade ht =>
    obtain ⟨below, hsibling⟩ := Walk.arrival_along hout
    obtain ⟨p, hp, hr⟩ := exchange_ok distinct (Tree.mem_preorder_trans below within) ht
    rw [noted] at ha hsibling
    refine ⟨p, arrival.parent, hp, .host ha ?_⟩
    rw [← hsibling, hmade]
    exact hr

end Site

namespace GraftRequest

variable {request : GraftRequest} {next : NodeId} {run : GraftRun}

theorem Reaches.frontierWithin (h : request.Reaches next run) :
    request.site.FrontierWithin run.search :=
  h.search_induct (request.site.frontierWithin_start request.insert next)
    (fun _ _ _ move within => within.move move) fun _ within => within

/-- The symbol that is looked for is always that of the inserted tree. -/
theorem Reaches.noted (h : request.Reaches next run) :
    run.search.insertSymbol = run.search.insert.symbol :=
  h.search_induct (motive := fun s => s.insertSymbol = s.insert.symbol) rfl
    (fun _ _ _ move noted => move.noted noted) fun _ noted => noted

/-- What the inserted tree has at the start and hands down to its wrappers, all of them have in
every state. The property may mention the next free identity. -/
theorem Reaches.inherited {P : NodeId → DerivationTree → Prop} (h : request.Reaches next run)
    (start : P next request.insert)
    (mono : ∀ bound bound' w, bound ≤ bound' → P bound w → P bound' w)
    (wrap : ∀ parent bound bound' w w',
      Host.wrap request.grammar parent w bound = .ok (w', bound') → P bound w → P bound' w') :
    ∀ w ∈ run.search.insert :: run.search.wrappers, P run.search.next w := by
  -- Wrappers are made from the inserted tree alone, which queueing does not change.
  have queueing (s : Search) (hs : ∀ w ∈ s.insert :: s.wrappers, P s.next w) :
      ∀ w ∈ (request.site.queueWrappers s).insert :: (request.site.queueWrappers s).wrappers,
        P (request.site.queueWrappers s).next w := by
    refine Site.queueWrappers_induct
      (motive := fun u => ∀ w ∈ u.insert :: u.wrappers, P u.next w) hs ?_
    rintro u u' parent - - wrapping hu
    cases wrapping with
    | known => exact hu
    | refused => exact hu
    | @queued wrapper bound _ hw =>
      have later : u.next ≤ bound := by
        obtain ⟨l, r, last, hmade, hl, -⟩ := Host.wrap_ok hw
        obtain ⟨-, rfl⟩ := Prod.mk.inj hmade
        exact Nat.le_succ_of_le hl
      intro w hmem
      obtain hmem | rfl : w ∈ u.insert :: u.wrappers ∨ w = wrapper := by
        simpa [or_assoc] using hmem
      · exact mono _ _ w later (hu w hmem)
      · exact wrap _ _ _ _ _ hw (hu u.insert List.mem_cons_self)
  refine h.search_induct (motive := fun s => ∀ w ∈ s.insert :: s.wrappers, P s.next w) ?_ ?_ ?_
  · intro w hw
    rw [List.mem_singleton.1 hw]
    exact start
  · intro s finding s' move hs
    cases move with
    | finished => exact hs
    | turn => exact hs
    | skip => exact hs
    | examine _ _ _ trial =>
      obtain ⟨queued, bound, rfl, later, -⟩ := trial.frame
      exact fun w hw => mono _ _ w later (hs w hw)
    | wrap _ _ hq => exact fun w hw => queueing s hs w (List.mem_cons_of_mem _ (hq ▸ hw))
    | exhaust => exact queueing s hs
  · exact fun _ hs => hs

theorem Reaches.graftAt (distinct : request.target.ids.Nodup) (h : request.Reaches next run)
    {t : DerivationTree} (ht : run.submission? = some t) :
    ∃ p n, request.target.subtreeAt p = .ok n ∧
      request.site.GraftAt run.search.insert run.search.next p n t := by
  obtain ⟨s', move⟩ := h.move_of_submission ht
  cases move with
  | examine _ hf _ trial =>
    exact trial.graftAt h.noted distinct (h.frontierWithin _ (hf ▸ List.mem_cons_self))

end GraftRequest

end Scion
