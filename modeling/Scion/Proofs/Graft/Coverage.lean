import Scion.Proofs.Grammar.Predecessors
import Scion.Proofs.Grammar.WellFormed
import Scion.Proofs.Graft.Legality

/-!
A phase of seeking tries every host once. With the shortest production paths of the grammar, a node
that a walk passes on its way is no host: its symbol would mention the inserted one, and the path
would be shorter. A walk that is not begun, because no path leads on, leaves no host behind, and
what it skips are leaves. So the hosts that have been tried and those below the frontier together
are always the hosts of the target.
-/

namespace Scion

/-- The children of every node that has some spell an alternative of its symbol, and open nodes
carry nonterminals. -/
def Grammar.Spells (g : Grammar) (t : DerivationTree) : Prop :=
  ∀ n ∈ t.preorder, (n.isOpen → n.symbol.isNonterminal) ∧
    (n.children ≠ [] → n.children.map Tree.symbol ∈ g.alternatives n.symbol)

/-- An open node with the symbol is a host for it, and so is a node whose symbol has an alternative
with separate slots for both symbols. -/
def Grammar.isHost (g : Grammar) (insert : Symbol) (n : DerivationTree) : Bool :=
  n.isOpen && n.symbol == insert ||
    (g.alternatives n.symbol).any (Alternatives.hasSlots n.symbol insert)

namespace Grammar

variable {g : Grammar} {insert : Symbol} {t n : DerivationTree}

theorem Spells.of_mem (h : g.Spells t) (hn : n ∈ t.preorder) : g.Spells n :=
  fun m hm => h m (Tree.mem_preorder_trans hm hn)

theorem Spells.productionPath (h : g.Spells t) (hn : n ∈ t.preorder) :
    n = t ∨ ∃ path, g.ProductionPath t.symbol n.symbol path := by
  refine Tree.induct_above (motive := fun t : DerivationTree => g.Spells t →
    n = t ∨ ∃ path, g.ProductionPath t.symbol n.symbol path) hn (fun _ => .inl rfl)
    (fun t c hc _ ih h => .inr ?_) h
  have edge : g.Mentions t.symbol c.symbol :=
    ⟨_, (h t (Tree.self_mem_preorder t)).2 (List.ne_nil_of_mem hc), List.mem_map_of_mem hc⟩
  obtain rfl | ⟨path, hp⟩ := ih (h.of_mem (Tree.mem_preorder_of_mem_children hc))
  · exact ⟨_, .single edge⟩
  · exact ⟨_, .cons edge hp⟩

theorem isHost_iff : g.isHost insert n ↔ (n.isOpen ∧ n.symbol = insert) ∨
    ∃ a ∈ g.alternatives n.symbol, Alternatives.hasSlots n.symbol insert a := by
  simp [isHost]

theorem isHost_cases (h : g.isHost insert n) :
    (n.isOpen ∧ n.symbol = insert) ∨ g.Mentions n.symbol insert := by
  obtain fits | ⟨a, ha, slots⟩ := isHost_iff.1 h
  · exact .inl fits
  · exact .inr ⟨a, ha, (Alternatives.room_of_hasSlots slots).1⟩

theorem Spells.no_host_of_isTerminal (h : g.Spells t) (ht : t.symbol.isTerminal) :
    t.preorder.filter (g.isHost insert) = [] := by
  have bare (a : Alternative) : a ∉ g.alternatives t.symbol := by
    intro ha
    have := isNonterminal_of_mem_alternatives ha
    simp [Symbol.isTerminal, this] at ht
  obtain ⟨opened, spelled⟩ := h t (Tree.self_mem_preorder t)
  have leaf : t.children = [] := by
    by_contra hc
    exact bare _ (spelled hc)
  rw [Tree.preorder_eq_cons, leaf]
  simp only [List.flatMap_nil, List.filter_eq_nil_iff, List.mem_singleton, forall_eq]
  intro host
  obtain ⟨hopen, -⟩ | ⟨a, ha, -⟩ := isHost_iff.1 host
  · have := opened hopen
    simp [Symbol.isTerminal, this] at ht
  · exact bare a ha

theorem Spells.no_host_of_no_path (h : g.Spells t) (closed : ¬ (t.isOpen ∧ t.symbol = insert))
    (none : ∀ path, ¬ g.ProductionPath t.symbol insert path) :
    t.preorder.filter (g.isHost insert) = [] := by
  rw [List.filter_eq_nil_iff]
  intro n hn host
  obtain ⟨hopen, rfl⟩ | edge := isHost_cases host
  · obtain rfl | ⟨path, hp⟩ := h.productionPath hn
    · exact closed ⟨hopen, rfl⟩
    · exact none path hp
  · obtain rfl | ⟨path, hp⟩ := h.productionPath hn
    · exact none _ (.single edge)
    · exact none _ (hp.concat edge)

/-! ### Walks along shortest paths -/

section

variable {node : DerivationTree} {below : List DerivationTree} {rest : List Symbol}

theorem ShortestPath.not_fits
    (h : g.ShortestPath node.symbol insert
      (node.symbol :: (below.map Tree.symbol ++ rest ++ [insert])))
    (closed : ¬ (node.isOpen ∧ node.symbol = insert)) :
    ∀ n ∈ node :: below, ¬ (n.isOpen ∧ n.symbol = insert) := by
  refine List.forall_mem_cons.2 ⟨closed, fun n hn fits => ?_⟩
  obtain ⟨front, back, rfl⟩ := List.append_of_mem hn
  have split : node.symbol :: ((front ++ n :: back).map Tree.symbol ++ rest ++ [insert]) =
      (node :: front).map Tree.symbol ++
        n.symbol :: (back.map Tree.symbol ++ rest ++ [insert]) := by simp
  rw [split] at h
  exact h.ne_goal (by simp) fits.2

/-- A node is no host when the path leads on behind it. -/
theorem ShortestPath.not_isHost
    (h : g.ShortestPath node.symbol insert
      (node.symbol :: (below.map Tree.symbol ++ rest ++ [insert])))
    (closed : ¬ (node.isOpen ∧ node.symbol = insert)) {front back : List DerivationTree}
    (hn : node :: below = front ++ n :: back) (on : back.map Tree.symbol ++ rest ≠ []) :
    ¬ g.isHost insert n := by
  intro host
  obtain fits | edge := isHost_cases host
  · exact h.not_fits closed n (by simp [hn]) fits
  · have split : node.symbol :: (below.map Tree.symbol ++ rest ++ [insert]) =
        front.map Tree.symbol ++ n.symbol :: (back.map Tree.symbol ++ rest ++ [insert]) := by
      have := congrArg (List.map Tree.symbol) hn
      simp only [List.map_cons, List.map_append] at this
      rw [← List.cons_append, ← List.cons_append, this]
      simp
    rw [split] at h
    exact h.not_mentions on edge

end

end Grammar

/-- Of the nodes below its start, a walk along a shortest path leaves no host aside but its end. -/
theorem Walk.hosts_along {g : Grammar} {node : DerivationTree} {insert : Symbol}
    {path : List Symbol} (spelled : g.Spells node)
    (closed : ¬ (node.isOpen ∧ node.symbol = insert))
    (h : g.ShortestPath node.symbol insert path) :
    ∃ ends lost : List DerivationTree,
      (node :: (along node path insert).queued.flatMap Tree.preorder ++ lost).Perm
        node.preorder ∧
      (node.preorder.filter (g.isHost insert)).Perm (ends.filter (g.isHost insert) ++
        ((along node path insert).queued.flatMap Tree.preorder).filter (g.isHost insert)) ∧
      (∀ e, (along node path insert).outcome = .error e → ends = []) ∧
      ∀ arrival, (along node path insert).outcome = .ok arrival → ends = [arrival.parent] ∧
        ¬ (arrival.parent.isOpen ∧ arrival.parent.symbol = insert) := by
  -- The path has the shape that a walk needs, so the walk does not fail at once.
  obtain ⟨middle, rfl⟩ := h.ends
  rw [along_path]
  obtain ⟨chain, course⟩ := course_follow insert node middle
  obtain ⟨skipped, hskipped, perm⟩ := course.preorder_perm
  obtain ⟨below, rest, rfl, rfl, strays, arrives⟩ := course.symbols
  have parts := perm.filter (g.isHost insert)
  have leaves : (skipped.flatMap Tree.preorder).filter (g.isHost insert) = [] := by
    rw [List.filter_flatMap, List.flatMap_eq_nil_iff]
    intro s hs
    exact (spelled.of_mem (hskipped s hs).2).no_host_of_isTerminal (hskipped s hs).1
  rw [List.filter_append, List.filter_append, leaves, List.append_nil] at parts
  have kept : (node :: (follow insert node (below.map Tree.symbol ++ rest)).queued.flatMap
      Tree.preorder ++ (below ++ skipped.flatMap Tree.preorder)).Perm node.preorder := by
    rw [← List.append_assoc, List.cons_append]
    exact ((List.perm_append_comm.cons node).append_right _).trans perm.symm
  cases hout : (follow insert node (below.map Tree.symbol ++ rest)).outcome with
  | error e =>
    have passed : (node :: below).filter (g.isHost insert) = [] := by
      rw [List.filter_eq_nil_iff]
      intro n hn
      obtain ⟨front, back, split⟩ := List.append_of_mem hn
      exact h.not_isHost closed split (List.append_ne_nil_of_right_ne_nil _ (strays e hout))
    rw [passed] at parts
    exact ⟨[], _, kept, parts, fun _ _ => rfl, by simp⟩
  | ok arrival =>
    obtain ⟨rfl, front, split⟩ := arrives arrival hout
    have passed : front.filter (g.isHost insert) = [] := by
      rw [List.filter_eq_nil_iff]
      intro n hn
      obtain ⟨before, back, rfl⟩ := List.append_of_mem hn
      have further : node :: below = before ++ n :: (back ++ [arrival.parent]) := by simp [split]
      exact h.not_isHost closed further (by simp)
    have last := h.not_fits closed arrival.parent (by simp [split])
    rw [split, List.filter_append, passed, List.nil_append] at parts
    refine ⟨[arrival.parent], _, kept, parts, by simp, fun other ho => ?_⟩
    cases ho
    exact ⟨rfl, last⟩

namespace Site

variable {site : Site} {s s' : Search} {node : DerivationTree} {finding : Finding}

/-- The graft onto a host: an open node for the inserted symbol is filled; any other host gives way
to a node that is built on the shortest fitting alternative, with a copy of its first child that has
the inserted symbol. Fresh identities are issued from `next` on. -/
inductive GraftOnto (site : Site) (insert : DerivationTree) (next : NodeId)
    (n t : DerivationTree) : Prop
  | fill {p : Path} : n.isOpen → n.symbol = insert.symbol → site.target.subtreeAt p = .ok n →
      site.target.replaceAt p insert = .ok t → GraftOnto site insert next n t
  | host {p : Path} {a : Alternative} : ¬ (n.isOpen ∧ n.symbol = insert.symbol) →
      site.target.subtreeAt p = .ok n →
      Alternatives.shortestMatching site.grammar n.symbol insert.symbol = .ok a →
      site.target.replaceAt p (Host.build site.grammar site.expandTrivial a n insert
        (n.children.find? fun c => c.symbol = insert.symbol) next).1 = .ok t →
      GraftOnto site insert next n t

/-- A trial submits the grafts onto those hosts below the node that are not passed on to the
frontier. -/
theorem Trial.covers (h : site.Trial s node finding s')
    (noted : s.insertSymbol = s.insert.symbol)
    (paths : site.paths = (ProductionGraph.ofGrammar site.grammar).shortestPath?)
    (distinct : site.target.ids.Nodup) (within : node ∈ site.target.preorder)
    (spelled : site.grammar.Spells node) :
    ∃ queued next hosts lost, s' = { s with frontier := s.frontier ++ queued, next := next } ∧
      s.next ≤ next ∧ (node :: queued.flatMap Tree.preorder ++ lost).Perm node.preorder ∧
      (node.preorder.filter (site.grammar.isHost s.insertSymbol)).Perm
        (hosts ++ (queued.flatMap Tree.preorder).filter
          (site.grammar.isHost s.insertSymbol)) ∧
      List.Forall₂ (site.GraftOnto s.insert s.next) hosts finding.tree?.toList := by
  have later : s.next ≤ s'.next := by
    obtain ⟨_, _, rfl, hl, -⟩ := h.frame
    exact hl
  have stay : s = { s with frontier := s.frontier ++ [], next := s.next } := by simp
  have placed (n : DerivationTree) (hn : n ∈ site.target.preorder) (x : DerivationTree)
      (e : GraftError) : site.exchange n.id x ≠ .error e := by
    obtain ⟨t, ht⟩ := exists_exchange hn x
    simp [ht]
  have alone : (node :: ([] : List DerivationTree).flatMap Tree.preorder ++
      node.children.flatMap Tree.preorder).Perm node.preorder := by
    rw [Tree.preorder_eq_cons node]
    exact .refl _
  cases h with
  | fill hopen hsymbol ht =>
    obtain ⟨p, hp, hr⟩ := exchange_ok distinct within ht
    have host : site.grammar.isHost s.insertSymbol node :=
      Grammar.isHost_iff.2 (.inl ⟨hopen, hsymbol⟩)
    have single : node.preorder = [node] := by
      cases node with
      | hole a => rfl
      | node a cs => simp [Tree.isOpen] at hopen
    have graft : site.GraftOnto s.insert s.next node _ :=
      .fill hopen (hsymbol.trans noted) hp hr
    refine ⟨[], s.next, [node], _, stay, later, alone, ?_, .cons graft .nil⟩
    rw [single]
    simp [host]
  | unfilled _ _ ht => exact absurd ht (placed node within _ _)
  | unreachable closed hpath =>
    have none := spelled.no_host_of_no_path closed
      (ProductionGraph.shortestPath?_none (paths ▸ hpath))
    exact ⟨[], s.next, [], _, stay, later, alone, by simp [none], .nil⟩
  | @astray path e closed hpath hout =>
    have shortest := ProductionGraph.shortestPath?_some (paths ▸ hpath)
    obtain ⟨ends, lost, kept, parts, strays, -⟩ := Walk.hosts_along spelled closed shortest
    rw [strays e hout] at parts
    exact ⟨_, s.next, [], lost, rfl, later, kept, parts, .nil⟩
  | @unsuited path arrival e closed hpath hout ha =>
    have shortest := ProductionGraph.shortestPath?_some (paths ▸ hpath)
    obtain ⟨ends, lost, kept, parts, -, arrives⟩ := Walk.hosts_along spelled closed shortest
    obtain ⟨rfl, unfit⟩ := arrives arrival hout
    have host : ¬ site.grammar.isHost s.insertSymbol arrival.parent := by
      rw [Grammar.isHost_iff]
      rintro (fits | ⟨a, known, slots⟩)
      · exact unfit fits
      · simp [Alternatives.shortestMatching_error ha a known] at slots
    rw [List.filter_cons_of_neg host, List.filter_nil] at parts
    exact ⟨_, s.next, [], lost, rfl, later, kept, parts, .nil⟩
  | @build path arrival a made next t closed hpath hout ha hmade ht =>
    have shortest := ProductionGraph.shortestPath?_some (paths ▸ hpath)
    obtain ⟨ends, lost, kept, parts, -, arrives⟩ := Walk.hosts_along spelled closed shortest
    obtain ⟨rfl, unfit⟩ := arrives arrival hout
    obtain ⟨below, hsibling⟩ := Walk.arrival_along hout
    obtain ⟨p, hp, hr⟩ := exchange_ok distinct (Tree.mem_preorder_trans below within) ht
    have host : site.grammar.isHost s.insertSymbol arrival.parent :=
      Grammar.isHost_iff.2 (.inr ⟨a, Alternatives.shortestMatching_ok ha⟩)
    rw [List.filter_cons_of_pos host, List.filter_nil] at parts
    refine ⟨_, next, [arrival.parent], lost, rfl, later, kept, parts, .cons ?_ .nil⟩
    rw [noted] at unfit ha hsibling
    rw [hsibling] at hmade
    exact .host unfit hp ha (by rw [hmade]; exact hr)
  | unplaced _ _ hout _ _ ht =>
    have below := (Walk.arrival_along hout).1
    exact absurd ht (placed _ (Tree.mem_preorder_trans below within) _ _)

end Site

/-! ### Phases of seeking -/

/-- The states in which a phase of seeking begins. -/
inductive GraftRequest.Opens (request : GraftRequest) (next : NodeId) : GraftRun → Prop
  | start : Opens request next (request.start next)
  | wrap {run : GraftRun} : request.Reaches next run → run.search.phase = .extend →
      run.step.2.search.phase = .seek → Opens request next run.step.2

/-- A phase of seeking up to its last state, in which nothing waits for examination, and the trees
that it submits to judgement. -/
inductive GraftRun.Seeks : GraftRun → List DerivationTree → GraftRun → Prop
  | finished {run : GraftRun} : run.search.phase = .seek → run.search.frontier = [] →
      Seeks run [] run
  | step {run last : GraftRun} {node : DerivationTree} {rest ts : List DerivationTree} :
      run.search.phase = .seek → run.search.frontier = node :: rest → Seeks run.step.2 ts last →
      Seeks run (run.submission?.toList ++ ts) last

namespace GraftRun

variable {run last : GraftRun} {ts : List DerivationTree}

theorem Seeks.phase (h : run.Seeks ts last) : run.search.phase = .seek := by
  cases h <;> assumption

theorem step_of_seek (h : run.step.2.search.phase = .seek) :
    run.step.2.search = (run.site.step run.search).2 ∧
      run.submission? = (run.site.step run.search).1.tree? := by
  have searched := (step_frame run).2
  by_cases stopped : run.limitReached
  · rw [if_pos stopped] at searched
    rw [searched] at h
    simp at h
  · rw [if_neg stopped] at searched
    exact ⟨searched, by rw [submission?, if_neg stopped]⟩

end GraftRun

namespace GraftRequest

variable {request : GraftRequest} {next : NodeId} {run last : GraftRun} {ts : List DerivationTree}

theorem Opens.reaches (h : request.Opens next run) : request.Reaches next run := by
  cases h with
  | start => exact .start
  | wrap h => exact h.step

theorem Opens.search (h : request.Opens next run) :
    run.search.frontier = [request.target] ∧ run.search.visited = [] := by
  cases h with
  | start => exact ⟨rfl, rfl⟩
  | @wrap run h hextend hseek =>
    obtain ⟨searched, -⟩ := GraftRun.step_of_seek hseek
    have move := request.site.step_move run.search
    rw [h.site_eq] at searched
    rw [searched] at hseek ⊢
    generalize (request.site.step run.search).1 = finding,
      (request.site.step run.search).2 = s' at move hseek ⊢
    cases move with
    | wrap => exact ⟨rfl, rfl⟩
    | finished hp => simp [hp] at hextend
    | turn hp => simp [hp] at hextend
    | skip hp => simp [hp] at hextend
    | examine hp => simp [hp] at hextend
    | exhaust => simp at hseek

/-- The identities below the frontier stay apart from each other and from those that were examined.
-/
theorem nodup_ids_of_covers {visited : List NodeId} {node : DerivationTree}
    {rest queued lost : List DerivationTree}
    (kept : (node :: queued.flatMap Tree.preorder ++ lost).Perm node.preorder)
    (fresh : (visited ++ ((node :: rest).flatMap Tree.preorder).map Tree.id).Nodup) :
    (node.id :: visited ++ ((rest ++ queued).flatMap Tree.preorder).map Tree.id).Nodup := by
  have perm : (node.id :: visited ++ ((rest ++ queued).flatMap Tree.preorder).map Tree.id ++
      lost.map Tree.id).Perm (visited ++ ((node :: rest).flatMap Tree.preorder).map Tree.id) := by
    refine List.perm_iff_count.2 fun i => ?_
    have here := (kept.map Tree.id).count_eq i
    simp only [List.flatMap_cons, List.flatMap_append, List.map_append, List.map_cons,
      List.count_append, List.count_cons] at here ⊢
    omega
  exact (perm.nodup_iff.2 fresh).of_append_left

/-- One step of a phase submits the grafts onto those hosts below its node that it does not pass on
to the frontier. -/
theorem Reaches.seek_step
    (paths : request.paths = (ProductionGraph.ofGrammar request.grammar).shortestPath?)
    (distinct : request.target.ids.Nodup) (spelled : request.grammar.Spells request.target)
    (h : request.Reaches next run) (hp : run.search.phase = .seek) {node : DerivationTree}
    {rest : List DerivationTree} (hf : run.search.frontier = node :: rest)
    (fresh : node.id ∉ run.search.visited) (on : run.step.2.search.phase = .seek) :
    ∃ queued bound hosts lost,
      run.step.2.search = { run.search with
        frontier := rest ++ queued
        visited := node.id :: run.search.visited
        next := bound } ∧
      run.search.next ≤ bound ∧
      (node :: queued.flatMap Tree.preorder ++ lost).Perm node.preorder ∧
      (node.preorder.filter (request.grammar.isHost run.search.insert.symbol)).Perm
        (hosts ++ (queued.flatMap Tree.preorder).filter
          (request.grammar.isHost run.search.insert.symbol)) ∧
      List.Forall₂ (request.site.GraftOnto run.search.insert run.search.next) hosts
        run.submission?.toList := by
  obtain ⟨searched, submitted⟩ := GraftRun.step_of_seek on
  have move := request.site.step_move run.search
  have within := h.frontierWithin node (hf ▸ List.mem_cons_self)
  rw [h.site_eq] at searched submitted
  rw [searched, submitted]
  generalize (request.site.step run.search).1 = finding,
    (request.site.step run.search).2 = s' at move ⊢
  cases move with
  | finished hd => simp [hp] at hd
  | turn _ he => simp [hf] at he
  | skip _ he seen =>
    obtain ⟨rfl, rfl⟩ := List.cons.inj (hf.symm.trans he)
    exact absurd seen fresh
  | examine _ he _ trial =>
    obtain ⟨rfl, rfl⟩ := List.cons.inj (hf.symm.trans he)
    rw [← h.noted]
    exact trial.covers h.noted paths distinct within (spelled.of_mem within)
  | wrap he => simp [hp] at he
  | exhaust he => simp [hp] at he

theorem Reaches.seeks_covers
    (paths : request.paths = (ProductionGraph.ofGrammar request.grammar).shortestPath?)
    (distinct : request.target.ids.Nodup) (spelled : request.grammar.Spells request.target)
    (h : request.Reaches next run) (seeks : run.Seeks ts last)
    (fresh : (run.search.visited ++
      (run.search.frontier.flatMap Tree.preorder).map Tree.id).Nodup) :
    ∃ tried : List (DerivationTree × NodeId),
      (tried.map Prod.fst).Perm ((run.search.frontier.flatMap Tree.preorder).filter
        (request.grammar.isHost run.search.insert.symbol)) ∧
      (∀ x ∈ tried, run.search.next ≤ x.2) ∧
      List.Forall₂ (fun x t => request.site.GraftOnto run.search.insert x.2 x.1 t) tried ts := by
  -- The hosts tried so far and those below the frontier make up the hosts of the target; since all
  -- identities below the frontier are new, no node is skipped.
  induction seeks with
  | finished _ he => exact ⟨[], by simp [he], by simp, .nil⟩
  | @step run last node rest ts hp hf seeks ih =>
    rw [hf] at fresh ⊢
    have unseen : node.id ∉ run.search.visited := by
      intro seen
      refine (List.nodup_append.1 fresh).2.2 _ seen _ ?_ rfl
      exact List.mem_map_of_mem (List.mem_flatMap.2 ⟨node, by simp, Tree.self_mem_preorder node⟩)
    obtain ⟨queued, bound, hosts, lost, searched, later, kept, parts, grafts⟩ :=
      h.seek_step paths distinct spelled hp hf unseen seeks.phase
    have fresh' := nodup_ids_of_covers kept fresh
    rw [searched] at ih
    obtain ⟨tried, perm, bounds, rest_grafts⟩ := ih h.step fresh'
    refine ⟨hosts.map (·, run.search.next) ++ tried, ?_, ?_, ?_⟩
    · rw [List.flatMap_append, List.filter_append] at perm
      rw [List.map_append, List.map_map, List.flatMap_cons, List.filter_append]
      have ids : hosts.map (Prod.fst ∘ (·, run.search.next)) = hosts := List.map_id hosts
      rw [ids]
      have moved := (perm.trans List.perm_append_comm).append_left hosts
      rw [← List.append_assoc] at moved
      exact moved.trans (parts.symm.append_right _)
    · rw [List.forall_mem_append, List.forall_mem_map]
      exact ⟨fun _ _ => Nat.le_refl _, fun x hx => Nat.le_trans later (bounds x hx)⟩
    · have first : List.Forall₂
          (fun x t => request.site.GraftOnto run.search.insert x.2 x.1 t)
          (hosts.map (·, run.search.next)) run.submission?.toList :=
        List.forall₂_map_left_iff.2 grafts
      exact List.rel_append first rest_grafts

/-- A phase of seeking that examines all that it queues submits one tree for each host in the
target, its graft, and no other tree. -/
theorem seek_tries_hosts
    (paths : request.paths = (ProductionGraph.ofGrammar request.grammar).shortestPath?)
    (distinct : request.target.ids.Nodup) (spelled : request.grammar.Spells request.target)
    (opens : request.Opens next run) (seeks : run.Seeks ts last) :
    ∃ tried : List (DerivationTree × NodeId),
      (tried.map Prod.fst).Perm
        (request.target.preorder.filter (request.grammar.isHost run.search.insert.symbol)) ∧
      (∀ x ∈ tried, run.search.next ≤ x.2) ∧
      List.Forall₂ (fun x t => request.site.GraftOnto run.search.insert x.2 x.1 t) tried ts := by
  obtain ⟨frontier, visited⟩ := opens.search
  have fresh : (run.search.visited ++
      (run.search.frontier.flatMap Tree.preorder).map Tree.id).Nodup := by
    rw [frontier, visited, List.flatMap_singleton]
    exact distinct
  have covered := opens.reaches.seeks_covers paths distinct spelled seeks fresh
  rwa [frontier, List.flatMap_singleton] at covered

end GraftRequest

namespace CommaList

/-- Once the `b` is an item, the list is the only host for it. -/
theorem seek_tries_list :
    request.paths = (ProductionGraph.ofGrammar grammar).shortestPath? ∧ single.ids.Nodup ∧
      grammar.Spells single ∧ request.Opens 6 ((request.start 6).after 3) ∧
      ((request.start 6).after 3).Seeks [double] ((request.start 6).after 5) ∧
      ∃ tried : List (DerivationTree × NodeId),
        (tried.map Prod.fst).Perm (single.preorder.filter (grammar.isHost ⟨"<item>"⟩)) ∧
        (∀ x ∈ tried, 7 ≤ x.2) ∧
        List.Forall₂ (fun x t => request.site.GraftOnto
          (.node ⟨6, ⟨"<item>"⟩⟩ [.leaf ⟨5, ⟨"b"⟩⟩]) x.2 x.1 t) tried [double] := by
  have distinct : request.target.ids.Nodup := by decide
  have spelled : grammar.Spells single := by unfold Grammar.Spells; decide
  have opens : request.Opens 6 ((request.start 6).after 3) :=
    .wrap (GraftRequest.reaches_after .start 2) rfl rfl
  have seeks : ((request.start 6).after 3).Seeks [double] ((request.start 6).after 5) :=
    .step rfl rfl (.step rfl rfl (.finished rfl rfl))
  exact ⟨rfl, distinct, spelled, opens, seeks,
    GraftRequest.seek_tries_hosts rfl distinct spelled opens seeks⟩

end CommaList

end Scion
