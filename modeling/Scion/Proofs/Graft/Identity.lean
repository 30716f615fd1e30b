import Scion.Proofs.Graft.Legality

/-!
Identities stay unique. A new node takes over the identities of the trees that it holds, each of them
once, and otherwise uses the next free ones. So a candidate carries identities of the target, of the
original inserted tree, and such as were issued during the run, and none of them twice.
-/

namespace Scion

namespace Role

/-- The identities that a slot takes over. -/
def kept (insert host : DerivationTree) : Role → List NodeId
  | .insert => insert.ids
  | .host => host.ids
  | copy _ => []
  | filler _ => []

/-- Each of the two trees gets one slot when there is room for it. -/
theorem kept_assign_perm {insert host : DerivationTree} {w : Waiting} {a : Alternative}
    (slot : w.insert → insert.symbol ∈ a)
    (room : w.host →
      (if w.insert ∧ insert.symbol = host.symbol then 1 else 0) < a.count host.symbol) :
    ((assign insert.symbol host.symbol w a).flatMap (kept insert host)).Perm
      ((if w.insert then insert.ids else []) ++ if w.host then host.ids else []) := by
  induction a generalizing w with
  | nil =>
    have noInsert : ¬ w.insert := fun hw => by simpa using slot hw
    have noHost : ¬ w.host := fun hw => by simpa using room hw
    simp [assign, noInsert, noHost]
  | cons s rest ih =>
    simp only [List.count_cons] at room
    rw [assign]
    split
    · rename_i hs
      simp only [Bool.and_eq_true, beq_iff_eq] at hs
      have below := @ih { w with insert := false } (by simp) (by grind)
      rw [List.flatMap_cons, if_pos hs.1]
      simpa [kept] using below.append_left insert.ids
    · split
      · rename_i taken hs
        simp only [Bool.and_eq_true, beq_iff_eq] at taken hs
        have below := @ih { w with host := false } (by grind) (by simp)
        rw [List.flatMap_cons, if_pos hs.1]
        exact (below.append_left host.ids).trans (by simpa [kept] using List.perm_append_comm)
      · rename_i inserted hosted
        simp only [Bool.and_eq_true, beq_iff_eq] at inserted hosted
        have stay : ∀ w' : Waiting, w'.insert = w.insert → w'.host = w.host →
            ((assign insert.symbol host.symbol w' rest).flatMap (kept insert host)).Perm
              ((if w.insert then insert.ids else []) ++ if w.host then host.ids else []) := by
          intro w' hi hh
          rw [← hi, ← hh]
          exact @ih w' (by grind) (by grind)
        split
        · split
          · exact stay _ rfl rfl
          · exact stay _ rfl rfl
        · exact stay _ rfl rfl

end Role

namespace Host

open Scion.Tree (ids)

variable {g : Grammar} {expandTrivial : Bool} {insert host : DerivationTree}

theorem ids_fill_perm (roles : List Role) (next : NodeId) :
    ∃ k, (fill g expandTrivial insert host roles next).2 = next + k ∧
      ((fill g expandTrivial insert host roles next).1.flatMap ids).Perm
        (roles.flatMap (Role.kept insert host) ++ List.range' next k) := by
  induction roles generalizing next with
  | nil => exact ⟨0, rfl, .refl _⟩
  | cons role rest ih =>
    have old {t : DerivationTree} : ∃ k,
        (fill g expandTrivial insert host rest next).2 = next + k ∧
        ((t :: (fill g expandTrivial insert host rest next).1).flatMap ids).Perm
          (t.ids ++ rest.flatMap (Role.kept insert host) ++ List.range' next k) := by
      obtain ⟨k, hk, perm⟩ := ih next
      refine ⟨k, hk, ?_⟩
      rw [List.flatMap_cons, List.append_assoc]
      exact perm.append_left t.ids
    have made (q : ParseTree) : ∃ k,
        (fill g expandTrivial insert host rest (q.instantiate next).2).2 = next + k ∧
        (((q.instantiate next).1 ::
            (fill g expandTrivial insert host rest (q.instantiate next).2).1).flatMap ids).Perm
          (rest.flatMap (Role.kept insert host) ++ List.range' next k) := by
      obtain ⟨k, hk, perm⟩ := ih (next + q.size)
      rw [Tree.instantiate_next]
      refine ⟨q.size + k, by rw [hk, Nat.add_assoc], ?_⟩
      rw [List.flatMap_cons, ← List.range'_append_1]
      have moved := (Tree.ids_instantiate_perm q next).append perm
      rw [← List.append_assoc] at moved
      exact moved.trans ((List.perm_append_comm.append_right _).trans (by simp))
    cases role with
    | insert => exact old
    | host => exact old
    | copy sibling => exact made sibling.shape
    | filler s => exact made (fillerShape g expandTrivial s)

theorem ids_filled_perm (s : Symbol) (roles : List Role) (next : NodeId) :
    ∃ k, (fill g expandTrivial insert host roles next).2 + 1 = next + k ∧
      (Tree.node ⟨(fill g expandTrivial insert host roles next).2, s⟩
          (fill g expandTrivial insert host roles next).1).ids.Perm
        (roles.flatMap (Role.kept insert host) ++ List.range' next k) := by
  obtain ⟨k, hk, perm⟩ := @ids_fill_perm g expandTrivial insert host roles next
  refine ⟨k + 1, by rw [hk, Nat.add_assoc], ?_⟩
  rw [Tree.ids_eq_cons, List.range'_concat, ← List.append_assoc, hk, Nat.one_mul]
  exact (perm.cons _).trans (List.perm_append_singleton _ _).symm

/-- A host has the identities of the inserted tree and of the old subtree, and fresh ones. -/
theorem ids_build_perm {a : Alternative} (slots : Alternatives.hasSlots host.symbol insert.symbol a)
    (sibling? : Option DerivationTree) (next : NodeId) :
    ∃ k, (build g expandTrivial a host insert sibling? next).2 = next + k ∧
      (build g expandTrivial a host insert sibling? next).1.ids.Perm
        (insert.ids ++ host.ids ++ List.range' next k) := by
  obtain ⟨slot, room⟩ := Alternatives.room_of_hasSlots slots
  obtain ⟨k, hk, perm⟩ := @ids_filled_perm g expandTrivial insert host host.symbol
    (Role.assign insert.symbol host.symbol ⟨true, true, sibling?⟩ a) next
  have kept := @Role.kept_assign_perm insert host ⟨true, true, sibling?⟩ a (fun _ => slot)
    fun _ => by simpa using room
  exact ⟨k, hk, perm.trans (kept.append_right _)⟩

/-- A wrapper has the identities of the tree inside of it, and fresh ones. -/
theorem ids_wrap_perm {parent : Symbol} {next next' : NodeId} {w : DerivationTree}
    (h : wrap g parent insert next = .ok (w, next')) :
    ∃ k, next' = next + k ∧ w.ids.Perm (insert.ids ++ List.range' next k) := by
  rw [wrap] at h
  split at h
  · simp at h
  · rename_i a ha
    obtain ⟨-, slot⟩ := Alternatives.shortestContaining_ok ha
    obtain ⟨rfl, rfl⟩ := Prod.mk.inj (Except.ok.inj h)
    obtain ⟨l, r, -, -, roles⟩ := @Role.assign_insert insert.symbol parent a slot
    obtain ⟨k, hk, perm⟩ := @ids_filled_perm g false insert insert parent
      (Role.assign insert.symbol parent ⟨true, false, none⟩ a) next
    have others (b : Alternative) : (b.map Role.filler).flatMap (Role.kept insert insert) = [] := by
      simp [Role.kept]
    refine ⟨k, hk, ?_⟩
    rw [roles] at perm
    rw [List.flatMap_append, List.flatMap_cons, others, others] at perm
    rw [roles]
    simpa [Role.kept] using perm

end Host

/-- The identities in `all` are those in `old` and others, each issued once from `first` on and
before `last`. -/
def Enlarged (first last : NodeId) (old all : List NodeId) : Prop :=
  ∃ new, all.Perm (old ++ new) ∧ new.Nodup ∧ ∀ i ∈ new, first ≤ i ∧ i < last

namespace Enlarged

variable {first last : NodeId} {old all : List NodeId}

theorem refl (first last : NodeId) (old : List NodeId) : Enlarged first last old old :=
  ⟨[], by simp, List.nodup_nil, by simp⟩

theorem mono {last' : NodeId} (h : Enlarged first last old all) (hl : last ≤ last') :
    Enlarged first last' old all := by
  obtain ⟨new, perm, distinct, issued⟩ := h
  exact ⟨new, perm, distinct, fun i hi => ⟨(issued i hi).1, Nat.lt_of_lt_of_le (issued i hi).2 hl⟩⟩

theorem perm {all' : List NodeId} (h : Enlarged first last old all) (hp : all'.Perm all) :
    Enlarged first last old all' := by
  obtain ⟨new, perm, rest⟩ := h
  exact ⟨new, hp.trans perm, rest⟩

theorem append_left (more : List NodeId) (h : Enlarged first last old all) :
    Enlarged first last (more ++ old) (more ++ all) := by
  obtain ⟨new, perm, rest⟩ := h
  exact ⟨new, (perm.append_left more).trans (by simp), rest⟩

/-- The next free identities are new. -/
theorem append_range' (h : Enlarged first last old all) (later : first ≤ last) (k : Nat) :
    Enlarged first (last + k) old (all ++ List.range' last k) := by
  obtain ⟨new, perm, distinct, issued⟩ := h
  refine ⟨new ++ List.range' last k, ?_, ?_, ?_⟩
  · rw [← List.append_assoc]
    exact perm.append_right _
  · refine List.nodup_append.2 ⟨distinct, List.nodup_range', fun i hi j hj same => ?_⟩
    exact Nat.not_le.2 (issued i hi).2 (same ▸ (List.mem_range'_1.1 hj).1)
  · intro i hi
    obtain hi | hi := List.mem_append.1 hi
    · exact ⟨(issued i hi).1, Nat.lt_add_right k (issued i hi).2⟩
    · have bounds := List.mem_range'_1.1 hi
      exact ⟨Nat.le_trans later bounds.1, bounds.2⟩

theorem nodup (h : Enlarged first last old all) (distinct : old.Nodup) (issued : ∀ i ∈ old, i < first) :
    all.Nodup := by
  obtain ⟨new, perm, fresh, bounds⟩ := h
  refine perm.nodup_iff.2 (List.nodup_append.2 ⟨distinct, fresh, fun i hi j hj same => ?_⟩)
  exact Nat.not_le.2 (issued i hi) (same ▸ (bounds j hj).1)

theorem mem (h : Enlarged first last old all) {i : NodeId} (hi : i ∈ all) :
    i ∈ old ∨ first ≤ i ∧ i < last := by
  obtain ⟨new, perm, -, bounds⟩ := h
  exact (List.mem_append.1 (perm.subset hi)).imp_right (bounds i)

end Enlarged

/-- A candidate has the identities of the target, except for those of a node that was filled, those
of the inserted tree, and fresh ones. -/
theorem Site.Trial.ids_perm {site : Site} {s s' : Search} {node t : DerivationTree}
    (h : site.Trial s node (.candidate t) s') (noted : s.insertSymbol = s.insert.symbol)
    (distinct : site.target.ids.Nodup) (within : node ∈ site.target.preorder) :
    ∃ lost k, s'.next = s.next + k ∧ (t.ids ++ lost).Perm
      (site.target.ids ++ (s.insert.ids ++ List.range' s.next k)) := by
  cases h with
  | fill _ _ ht =>
    obtain ⟨p, hp, hr⟩ := exchange_ok distinct within ht
    exact ⟨node.ids, 0, rfl, by simpa using Tree.ids_perm_of_replaceAt hp hr⟩
  | @build path arrival a made bound _ _ _ hout ha hmade ht =>
    obtain ⟨below, -⟩ := Walk.arrival_along hout
    obtain ⟨p, hp, hr⟩ := exchange_ok distinct (Tree.mem_preorder_trans below within) ht
    obtain ⟨k, hk, built⟩ := @Host.ids_build_perm _ site.expandTrivial _ _ _
      (Alternatives.shortestMatching_ok (noted ▸ ha)).2 arrival.sibling? s.next
    rw [hmade] at hk built
    refine ⟨[], k, hk, ?_⟩
    -- The old subtree is taken away from the target and comes back inside of the host.
    have exchanged := (Tree.ids_perm_of_replaceAt hp hr).trans (built.append_left _)
    refine List.perm_iff_count.2 fun i => ?_
    have counts := exchanged.count_eq i
    simp only [List.count_append, List.count_nil] at counts ⊢
    omega

namespace GraftRequest

variable {request : GraftRequest} {next : NodeId} {run : GraftRun} {t : DerivationTree}

/-- The inserted tree and all queued wrappers have the identities of the original one, and fresh
ones. -/
theorem Reaches.enlarged (h : request.Reaches next run) :
    ∀ w ∈ run.search.insert :: run.search.wrappers,
      next ≤ run.search.next ∧ Enlarged next run.search.next request.insert.ids w.ids := by
  refine h.inherited
    (P := fun bound w => next ≤ bound ∧ Enlarged next bound request.insert.ids w.ids)
    ⟨Nat.le_refl _, .refl ..⟩ ?_ ?_
  · rintro bound bound' w hle ⟨later, enlarged⟩
    exact ⟨Nat.le_trans later hle, enlarged.mono hle⟩
  · rintro parent bound bound' w w' hw ⟨later, enlarged⟩
    obtain ⟨k, rfl, perm⟩ := Host.ids_wrap_perm hw
    exact ⟨Nat.le_add_right_of_le later, (enlarged.append_range' later k).perm perm⟩

/-- No identity occurs twice in an emitted tree, and each is one of the target, one of the inserted
tree, or one that was issued during the run. -/
theorem emitted_ids (distinct : (request.target.ids ++ request.insert.ids).Nodup)
    (issued : ∀ i ∈ request.target.ids ++ request.insert.ids, i < next)
    (h : request.Reaches next run) (emitted : run.step.1 = .emit t) :
    t.ids.Nodup ∧ ∀ i ∈ t.ids,
      i ∈ request.target.ids ∨ i ∈ request.insert.ids ∨
        next ≤ i ∧ i < run.step.2.search.next := by
  have apart := List.nodup_append.1 distinct
  have submitted := GraftRun.submission?_of_emit emitted
  obtain ⟨later, enlarged⟩ := h.enlarged run.search.insert List.mem_cons_self
  obtain ⟨lost, k, hk, perm⟩ : ∃ lost k, run.step.2.search.next = run.search.next + k ∧
      (t.ids ++ lost).Perm (request.target.ids ++
        (run.search.insert.ids ++ List.range' run.search.next k)) := by
    have move := h.move_step_of_submission submitted
    generalize run.step.2.search = s' at move ⊢
    cases move with
    | examine _ hf _ trial =>
      exact trial.ids_perm h.noted apart.1 (h.frontierWithin _ (hf ▸ List.mem_cons_self))
  have whole := ((enlarged.append_range' later k).append_left request.target.ids).perm perm
  rw [hk]
  refine ⟨(whole.nodup distinct issued).of_append_left, fun i hi => ?_⟩
  obtain old | fresh := whole.mem (List.mem_append_left lost hi)
  · exact (List.mem_append.1 old).imp_right .inl
  · exact .inr (.inr fresh)

end GraftRequest

namespace CommaList

/-- The identities from 6 on were issued during the run. -/
theorem emitted_ids_double :
    (single.ids ++ request.insert.ids).Nodup ∧
      (∀ i ∈ single.ids ++ request.insert.ids, i < 6) ∧
      ((request.start 6).after 3).step.1 = .emit double ∧
      double.ids.Nodup ∧ ∀ i ∈ double.ids, i ∈ single.ids ∨ i ∈ request.insert.ids ∨
        6 ≤ i ∧ i < ((request.start 6).after 3).step.2.search.next := by
  have distinct : (request.target.ids ++ request.insert.ids).Nodup := by decide
  have issued : ∀ i ∈ request.target.ids ++ request.insert.ids, i < 6 := by decide
  have reached : request.Reaches 6 ((request.start 6).after 3) :=
    GraftRequest.reaches_after .start 3
  exact ⟨distinct, issued, rfl, GraftRequest.emitted_ids distinct issued reached rfl⟩

end CommaList

end Scion
