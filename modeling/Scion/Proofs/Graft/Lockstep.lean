import Scion.Proofs.Graft.Relabelling
import Scion.Proofs.Graft.Termination

/-!
Two searches in lockstep. The nodes of the one target are those of the other under a renaming, and
the trees that are to be inserted have equal shapes. Every unit of work then finds the same on both
sides: the nodes that are queued and visited correspond, and a candidate is made at the same place in
both targets. Candidates are compared by their views, which keep of all identities the reference's
alone.
-/

namespace Scion

variable {f : NodeId → NodeId}

/-- States of two searches that differ in identities only, where those of the target are renamed. -/
structure Search.Counterpart (f : NodeId → NodeId) (s s' : Search) : Prop where
  phase : s'.phase = s.phase
  insert : s'.insert.shape = s.insert.shape
  insertSymbol : s'.insertSymbol = s.insertSymbol
  frontier : s'.frontier = s.frontier.map (Tree.rename f)
  visited : s'.visited = s.visited.map f
  wrappers : s'.wrappers.map Tree.shape = s.wrappers.map Tree.shape
  tried : s'.tried = s.tried
  extensions : s'.extensions = s.extensions

/-- Findings of the same kind; two candidates have the same view. -/
inductive Finding.Alike (reference? reference?' : Option NodeId) : Finding → Finding → Prop
  | candidate {t u : DerivationTree} : t.view reference? = u.view reference?' →
      Alike reference? reference?' (.candidate t) (.candidate u)
  | discarded : Alike reference? reference?' .discarded .discarded
  | idle : Alike reference? reference?' .idle .idle
  | exhausted : Alike reference? reference?' .exhausted .exhausted

namespace Site

variable {site : Site} {s s' : Search} {node : DerivationTree} {reference? : Option NodeId}

theorem hostAt_counterpart {arrival : Arrival} (separated : site.Separated f reference?)
    (symbol : s'.insertSymbol = s.insertSymbol)
    (inserts : s.insert.view reference? = s'.insert.view (reference?.map f))
    (inside : arrival.parent ∈ site.target.preorder)
    (spared : Spared reference? s.next (site.hostAt s arrival).2)
    (spared' : Spared (reference?.map f) s'.next
      ((site.rename f).hostAt s' (arrival.rename f)).2) :
    (site.hostAt s arrival).1.map (Tree.view reference?) =
      ((site.rename f).hostAt s' (arrival.rename f)).1.map (Tree.view (reference?.map f)) := by
  rw [hostAt] at spared ⊢
  rw [hostAt] at spared' ⊢
  have alternatives : Alternatives.shortestMatching (site.rename f).grammar
      (arrival.rename f).parent.symbol s'.insertSymbol =
        Alternatives.shortestMatching site.grammar arrival.parent.symbol s.insertSymbol := by
    rw [symbol, Arrival.rename, Tree.symbol_rename]
    rfl
  rw [alternatives] at spared' ⊢
  cases halt : Alternatives.shortestMatching site.grammar arrival.parent.symbol s.insertSymbol with
  | error e => rfl
  | ok a =>
    rw [halt] at spared spared'
    have siblings : arrival.sibling?.map Tree.shape =
        (arrival.rename f).sibling?.map Tree.shape := by
      simp [Arrival.rename, Function.comp_def]
    have parents := (separated.view_rename inside).symm
    have built := Host.view_build a inserts parents siblings spared spared'
    have exchanged := separated.exchange inside built
    rw [← @Tree.id_rename f] at exchanged
    exact exchanged

private theorem map_some_congr {α β γ : Type} {g : α → γ} {h : β → γ} {x : Except GraftError α}
    {y : Except GraftError β} (same : x.map g = y.map h) :
    (x.map some).map (Option.map g) = (y.map some).map (Option.map h) := by
  have lift {α : Type} (g : α → γ) (x : Except GraftError α) :
      (x.map some).map (Option.map g) = (x.map g).map some := by cases x <;> rfl
  rw [lift, lift, same]

/-- Attaching a node and its counterpart has the same outcome. -/
theorem attach_counterpart (separated : site.Separated f reference?) (h : s.Counterpart f s')
    (inserts : s.insert.view reference? = s'.insert.view (reference?.map f))
    (inside : node ∈ site.target.preorder)
    (spared : Spared reference? s.next (site.attach s node).2.next)
    (spared' : Spared (reference?.map f) s'.next
      ((site.rename f).attach s' (node.rename f)).2.next) :
    (site.attach s node).1.map (Option.map (Tree.view reference?)) =
        ((site.rename f).attach s' (node.rename f)).1.map
          (Option.map (Tree.view (reference?.map f))) ∧
      (site.attach s node).2.Counterpart f ((site.rename f).attach s' (node.rename f)).2 := by
  have path : (site.rename f).paths (node.rename f).symbol s'.insertSymbol =
      site.paths node.symbol s.insertSymbol := by
    rw [h.insertSymbol, Tree.symbol_rename]
    rfl
  rw [attach] at spared ⊢
  rw [attach] at spared' ⊢
  rw [path] at spared' ⊢
  cases hpath : site.paths node.symbol s.insertSymbol with
  | none => exact ⟨rfl, h⟩
  | some path =>
    rw [hpath] at spared spared'
    have walks : Walk.along (node.rename f) path s'.insertSymbol =
        (Walk.along node path s.insertSymbol).rename f := by
      rw [h.insertSymbol, Walk.along_rename]
    simp only [walks, Walk.rename] at spared spared' ⊢
    have queued (ts : List DerivationTree) :
        s'.frontier ++ ts.map (Tree.rename f) = (s.frontier ++ ts).map (Tree.rename f) := by
      rw [h.frontier, List.map_append]
    cases hout : (Walk.along node path s.insertSymbol).outcome with
    | error e => exact ⟨rfl, { h with frontier := queued _ }⟩
    | ok arrival =>
      rw [hout] at spared spared'
      -- What the walk has queued does not matter for the host at its end.
      have within := Tree.mem_preorder_trans (Walk.arrival_along hout).1 inside
      have hosted := hostAt_counterpart separated h.insertSymbol inserts within spared spared'
      exact ⟨map_some_congr hosted, { h with frontier := queued _ }⟩

theorem produce_counterpart (separated : site.Separated f reference?) (h : s.Counterpart f s')
    (inserts : s.insert.view reference? = s'.insert.view (reference?.map f))
    (inside : node ∈ site.target.preorder)
    (spared : Spared reference? s.next (site.produce s node).2.next)
    (spared' : Spared (reference?.map f) s'.next
      ((site.rename f).produce s' (node.rename f)).2.next) :
    (site.produce s node).1.map (Option.map (Tree.view reference?)) =
        ((site.rename f).produce s' (node.rename f)).1.map
          (Option.map (Tree.view (reference?.map f))) ∧
      (site.produce s node).2.Counterpart f ((site.rename f).produce s' (node.rename f)).2 := by
  rw [produce] at spared ⊢
  rw [produce] at spared' ⊢
  rw [Tree.isOpen_rename, Tree.symbol_rename, h.insertSymbol, Tree.id_rename] at spared' ⊢
  split
  · exact ⟨map_some_congr (separated.exchange inside inserts), h⟩
  · rename_i closed
    rw [if_neg closed] at spared spared'
    exact attach_counterpart separated h inserts inside spared spared'

theorem attempt_alike {reference?' : Option NodeId}
    {x y : Except GraftError (Option DerivationTree)}
    (h : x.map (Option.map (Tree.view reference?)) = y.map (Option.map (Tree.view reference?'))) :
    Finding.Alike reference? reference?' (attempt x) (attempt y) := by
  match x, y, h with
  | .ok (some t), .ok (some u), same => exact .candidate (Option.some.inj (Except.ok.inj same))
  | .ok none, .ok none, _ => exact .discarded
  | .error e, .error _, _ => exact .discarded

theorem examine_counterpart (separated : site.Separated f reference?)
    (known : s.visited ⊆ site.target.ids) (h : s.Counterpart f s')
    (inserts : s.insert.view reference? = s'.insert.view (reference?.map f))
    (inside : node ∈ site.target.preorder)
    (spared : Spared reference? s.next (site.examine s node).2.next)
    (spared' : Spared (reference?.map f) s'.next
      ((site.rename f).examine s' (node.rename f)).2.next) :
    Finding.Alike reference? (reference?.map f) (site.examine s node).1
        ((site.rename f).examine s' (node.rename f)).1 ∧
      (site.examine s node).2.Counterpart f ((site.rename f).examine s' (node.rename f)).2 := by
  have seen : (node.rename f).id ∈ s'.visited ↔ node.id ∈ s.visited := by
    rw [h.visited, Tree.id_rename, List.mem_map]
    refine ⟨?_, fun hi => ⟨node.id, hi, rfl⟩⟩
    rintro ⟨i, hi, same⟩
    exact separated.injective i (known hi) node.id (Tree.id_mem_ids inside) same ▸ hi
  rw [examine_eq] at spared ⊢
  rw [examine_eq] at spared' ⊢
  simp only [seen] at spared' ⊢
  split
  · exact ⟨.idle, h⟩
  · rename_i fresh
    rw [if_neg fresh] at spared spared'
    have visited : Search.Counterpart f { s with visited := node.id :: s.visited }
        { s' with visited := (node.rename f).id :: s'.visited } :=
      { h with visited := by rw [h.visited, Tree.id_rename, List.map_cons] }
    obtain ⟨same, counterpart⟩ :=
      produce_counterpart separated visited inserts inside spared spared'
    exact ⟨attempt_alike same, counterpart⟩

/-! ### Wrapping in lockstep -/

theorem queueWrapper_counterpart (h : s.Counterpart f s') (parent : Symbol) :
    (site.queueWrapper s parent).Counterpart f ((site.rename f).queueWrapper s' parent) := by
  have grammar : (site.rename f).grammar = site.grammar := rfl
  have wrapped := Host.shape_wrap (g := site.grammar) parent h.insert s'.next s.next
  rw [queueWrapper, queueWrapper, h.insertSymbol, h.tried, grammar]
  split
  · exact h
  · dsimp only
    generalize Host.wrap site.grammar parent s'.insert s'.next = made' at wrapped ⊢
    generalize Host.wrap site.grammar parent s.insert s.next = made at wrapped ⊢
    cases made with
    | error =>
      cases made' with
      | error => exact { h with insertSymbol := rfl, tried := rfl }
      | ok => cases wrapped
    | ok made =>
      cases made' with
      | error => cases wrapped
      | ok made' =>
        have shapes : made'.1.shape = made.1.shape := Except.ok.inj wrapped
        exact { h with
          insertSymbol := rfl
          tried := rfl
          wrappers := by rw [List.map_append, List.map_append, h.wrappers, List.map_singleton,
            shapes, List.map_singleton] }

theorem queueWrappers_counterpart (h : s.Counterpart f s') :
    (site.queueWrappers s).Counterpart f ((site.rename f).queueWrappers s') := by
  have parents (parents : List Symbol) {u u' : Search} (hu : u.Counterpart f u') :
      (parents.foldl site.queueWrapper u).Counterpart f
        (parents.foldl (site.rename f).queueWrapper u') := by
    induction parents generalizing u u' with
    | nil => exact hu
    | cons parent parents ih => exact ih (queueWrapper_counterpart hu parent)
  have root : (site.rename f).target.symbol = site.target.symbol := Tree.symbol_rename
  rw [queueWrappers, queueWrappers, root, h.insertSymbol]
  split
  · exact h
  · exact parents _ h

theorem extend_counterpart {reference?' : Option NodeId} (h : s.Counterpart f s') :
    Finding.Alike reference? reference?' (site.extend s).1 ((site.rename f).extend s').1 ∧
      (site.extend s).2.Counterpart f ((site.rename f).extend s').2 := by
  have queued := @queueWrappers_counterpart f site s s' h
  have may : (site.rename f).mayExtend ((site.rename f).queueWrappers s') =
      site.mayExtend (site.queueWrappers s) := by
    rw [mayExtend, mayExtend, queued.extensions]
    rfl
  rw [extend, extend, may]
  generalize site.queueWrappers s = u, (site.rename f).queueWrappers s' = u' at queued ⊢
  have wrappers := queued.wrappers
  cases site.mayExtend u with
  | false => exact ⟨.exhausted, { queued with phase := rfl }⟩
  | true =>
    cases hu : u.wrappers with
    | nil =>
      rw [hu, List.map_nil, List.map_eq_nil_iff] at wrappers
      rw [wrappers]
      exact ⟨.exhausted, { queued with phase := rfl, wrappers := rfl }⟩
    | cons wrapper rest =>
      rw [hu, List.map_cons, List.map_eq_cons_iff] at wrappers
      obtain ⟨wrapper', rest', hu', shape, shapes⟩ := wrappers
      rw [hu']
      exact ⟨.idle, {
        queued with
        phase := rfl
        insert := shape
        insertSymbol := Tree.symbol_congr shape
        frontier := rfl
        visited := rfl
        wrappers := shapes
        extensions := congrArg (· + 1) queued.extensions }⟩

/-- One unit of work finds the same on both sides, and leaves counterparts behind. -/
theorem step_counterpart (separated : site.Separated f reference?) (bounded : site.Bounded s)
    (h : s.Counterpart f s')
    (inserts : s.insert.view reference? = s'.insert.view (reference?.map f))
    (spared : Spared reference? s.next (site.step s).2.next)
    (spared' : Spared (reference?.map f) s'.next ((site.rename f).step s').2.next) :
    Finding.Alike reference? (reference?.map f) (site.step s).1 ((site.rename f).step s').1 ∧
      (site.step s).2.Counterpart f ((site.rename f).step s').2 := by
  rw [step] at spared ⊢
  rw [step, h.phase] at spared' ⊢
  cases hphase : s.phase with
  | done => exact ⟨.exhausted, h⟩
  | extend => exact extend_counterpart h
  | seek =>
    rw [hphase] at spared spared'
    rw [h.frontier] at spared' ⊢
    cases hf : s.frontier with
    | nil => exact ⟨.idle, { h with phase := rfl, frontier := rfl }⟩
    | cons node rest =>
      rw [hf] at spared spared'
      have inside := bounded.frontier node (hf ▸ List.mem_cons_self)
      have taken : Search.Counterpart f { s with phase := .seek, frontier := rest }
          { s' with phase := .seek, frontier := rest.map (Tree.rename f) } :=
        { h with phase := rfl, frontier := rfl }
      exact examine_counterpart separated bounded.visited_known taken inserts inside spared spared'

theorem stepBound_counterpart (h : s.Counterpart f s') :
    (site.rename f).stepBound s' = site.stepBound s := by
  have frontier : s'.frontier.length = s.frontier.length := by rw [h.frontier, List.length_map]
  have wrappers : s'.wrappers.length = s.wrappers.length := by
    simpa using congrArg List.length h.wrappers
  have size : (site.rename f).target.size = site.target.size := Tree.size_map ..
  rw [stepBound, stepBound, frontier, wrappers, size]
  rfl

end Site

end Scion
