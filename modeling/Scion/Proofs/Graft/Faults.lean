import Scion.Proofs.Graft.Layers

/-!
No fault of a caller arises inside a search. Every node that waits is a node of the target, even
where identities are repeated or the production paths are foreign to the tree, so every exchange
finds its place. What can go wrong is that a walk strays or that no alternative has room for both
trees, and then the node is passed over. Wrapping in a possible parent never fails.
-/

namespace Scion

theorem Walk.along_error {start : DerivationTree} {path : List Symbol} {insert : Symbol}
    {e : GraftError} (h : (along start path insert).outcome = .error e) :
    ∃ symbol expected, e = .structuralMismatch symbol expected := by
  have follow (t : DerivationTree) (path : List Symbol)
      (h : (follow insert t path).outcome = .error e) :
      ∃ symbol expected, e = .structuralMismatch symbol expected := by
    obtain ⟨chain, course⟩ := course_follow insert t path
    generalize Walk.follow insert t path = walk at course h
    induction course with
    | arrive => simp at h
    | stray => exact ⟨_, _, (Except.error.inj h).symm⟩
    | pass _ _ _ ih => exact ih h
  match path with
  | [] => exact ⟨_, _, (Except.error.inj h).symm⟩
  | [first] => exact ⟨_, _, (Except.error.inj h).symm⟩
  | first :: second :: rest =>
    rw [along] at h
    split at h
    · exact follow _ _ h
    · exact ⟨_, _, (Except.error.inj h).symm⟩

theorem Alternatives.eq_noProduction {g : Grammar} {parent insert : Symbol} {e : GraftError}
    (h : shortestMatching g parent insert = .error e) : e = .noProduction parent insert := by
  rw [shortestMatching] at h
  split at h
  · simp at h
  · exact (Except.error.inj h).symm

namespace Site

variable {site : Site} {s : Search} {node : DerivationTree} {e : GraftError}

/-- A host is put in the place of a node of the target, so only the choice of its alternative can
fail. -/
theorem hostAt_error {arrival : Arrival} (within : arrival.parent ∈ site.target.preorder)
    (h : (site.hostAt s arrival).1 = .error e) :
    e = .noProduction arrival.parent.symbol s.insertSymbol := by
  rw [hostAt] at h
  split at h
  · rename_i e' he
    obtain rfl : e' = e := Except.error.inj h
    exact Alternatives.eq_noProduction he
  · rename_i a ha
    cases hmade : Host.build site.grammar site.expandTrivial a arrival.parent s.insert
      arrival.sibling? s.next with
    | mk made next =>
      obtain ⟨t, ht⟩ := exists_exchange within made
      simp [hmade, ht] at h

theorem attach_error (within : node ∈ site.target.preorder)
    (h : (site.attach s node).1 = .error e) :
    (∃ symbol expected, e = .structuralMismatch symbol expected) ∨
      ∃ parent, e = .noProduction parent s.insertSymbol := by
  rw [attach] at h
  split at h
  · simp at h
  · rename_i path hpath
    simp only at h
    split at h
    · rename_i e' he
      obtain rfl : e' = e := Except.error.inj h
      exact .inl (Walk.along_error he)
    · rename_i arrival harrival
      have below := (Walk.arrival_along harrival).1
      cases hhost : (site.hostAt { s with
          frontier := s.frontier ++ (Walk.along node path s.insertSymbol).queued } arrival).1 with
      | ok t => simp [hhost, Except.map] at h
      | error e' =>
        obtain rfl : e' = e := by simpa [hhost, Except.map] using h
        exact .inr ⟨_, hostAt_error (Tree.mem_preorder_trans below within) hhost⟩

/-- A node of the target is tried without any fault of the caller. -/
theorem produce_error (within : node ∈ site.target.preorder)
    (h : (site.produce s node).1 = .error e) :
    (∃ symbol expected, e = .structuralMismatch symbol expected) ∨
      ∃ parent, e = .noProduction parent s.insertSymbol := by
  rw [produce] at h
  split at h
  · obtain ⟨t, ht⟩ := exists_exchange within s.insert
    simp [ht, Except.map] at h
  · exact attach_error within h

end Site

namespace GraftRequest

variable {request : GraftRequest} {next : NodeId} {run : GraftRun}

/-- In every state of a run the waiting nodes are nodes of the target, the node to be examined next
meets no other error than the two recoverable ones, the symbol that is looked for is that of the
inserted tree, and this tree can be wrapped in every possible parent of the symbol. -/
theorem run_faultless (h : request.Reaches next run) :
    (∀ c ∈ run.search.frontier, c ∈ request.target.preorder) ∧
      (∀ node rest e, run.search.phase = .seek → run.search.frontier = node :: rest →
        node.id ∉ run.search.visited →
        (request.site.produce { run.search with
          frontier := rest, visited := node.id :: run.search.visited } node).1 = .error e →
        e.isRecoverable ∧ ((∃ symbol expected, e = .structuralMismatch symbol expected) ∨
          ∃ parent child, e = .noProduction parent child)) ∧
      run.search.insertSymbol = run.search.insert.symbol ∧
      ∀ parent ∈ request.grammar.possibleParents run.search.insertSymbol, ∀ bound, ∃ made,
        Host.wrap request.grammar parent run.search.insert bound = .ok made := by
  refine ⟨h.frontierWithin, fun node rest e _ hf _ failed => ?_, h.noted, fun parent known => ?_⟩
  · have within := h.frontierWithin node (hf ▸ List.mem_cons_self)
    obtain ⟨symbol, expected, rfl⟩ | ⟨parent, rfl⟩ := Site.produce_error within failed
    · exact ⟨rfl, .inl ⟨symbol, expected, rfl⟩⟩
    · exact ⟨rfl, .inr ⟨parent, _, rfl⟩⟩
  · exact Host.exists_wrap (h.noted ▸ known)

end GraftRequest

namespace CommaList

/-- The walk from the root ends at the item, which has no alternative with an item and a `b`. -/
theorem run_faultless_start :
    let run := request.start 6
    let error : GraftError := .noProduction ⟨"<item>"⟩ ⟨"b"⟩
    request.Reaches 6 run ∧ (∀ c ∈ run.search.frontier, c ∈ single.preorder) ∧
      (request.site.produce { run.search with
        frontier := [], visited := single.id :: run.search.visited } single).1 = .error error ∧
      error.isRecoverable ∧ ((∃ symbol expected, error = .structuralMismatch symbol expected) ∨
        ∃ parent child, error = .noProduction parent child) ∧
      run.search.insertSymbol = run.search.insert.symbol ∧
      ∀ parent ∈ grammar.possibleParents run.search.insertSymbol, ∀ bound, ∃ made,
        Host.wrap grammar parent run.search.insert bound = .ok made := by
  intro run error
  have reached : request.Reaches 6 run := .start
  have failed : (request.site.produce { run.search with
      frontier := [], visited := single.id :: run.search.visited } single).1 = .error error := rfl
  obtain ⟨within, errors, noted, wraps⟩ := GraftRequest.run_faultless reached
  obtain ⟨recoverable, causes⟩ := errors single [] error rfl rfl List.not_mem_nil failed
  exact ⟨reached, within, failed, recoverable, causes, noted, wraps⟩

end CommaList

end Scion
