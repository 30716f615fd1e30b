import Mathlib.Data.List.TakeDrop
import Mathlib.Data.List.TakeWhile
import Scion.Graft.Walk
import Scion.Proofs.Tree.Identity

/-!
The course of a walk. A walk tramples a chain of nodes from its start down to the last node it
reaches; the branches beside this chain are queued when their symbols are nonterminals and skipped
otherwise. So the nodes below the start fall into those on the chain, those below queued nodes and
those below skipped ones, whether or not the walk gets to its end.
-/

namespace Scion.Walk

open Scion.Tree (preorder)

/-- A walk by cases: it arrives, it finds no child for the next symbol, or it passes on to a child.
The third argument is the chain of nodes from the first one to the last one reached. -/
inductive Course (insert : Symbol) :
    DerivationTree → List Symbol → List DerivationTree → Walk → Prop
  | arrive (t : DerivationTree) :
      Course insert t [] [t]
        ⟨sideBranches t.children, .ok ⟨t, t.children.find? fun c => c.symbol = insert⟩⟩
  | stray (t : DerivationTree) (expected : Symbol) (rest : List Symbol) :
      (∀ c ∈ t.children, c.symbol ≠ expected) →
      Course insert t (expected :: rest) [t]
        ⟨sideBranches t.children, .error (.structuralMismatch t.symbol expected)⟩
  | pass {t next : DerivationTree} {left right : List DerivationTree} {rest : List Symbol}
      {chain : List DerivationTree} {walk : Walk} :
      t.children = left ++ next :: right → (∀ c ∈ left, c.symbol ≠ next.symbol) →
      Course insert next rest chain walk →
      Course insert t (next.symbol :: rest) (t :: chain)
        ⟨sideBranches (left ++ right) ++ walk.queued, walk.outcome⟩

theorem course_follow (insert : Symbol) (t : DerivationTree) (path : List Symbol) :
    ∃ chain, Course insert t path chain (follow insert t path) := by
  induction path generalizing t with
  | nil => exact ⟨[t], .arrive t⟩
  | cons expected rest ih =>
    rw [follow]
    split
    · rename_i left h
      have all : t.children.dropWhile (fun c => decide (c.symbol ≠ expected)) = [] := by
        simpa [List.span_eq_takeWhile_dropWhile] using congrArg Prod.snd h
      refine ⟨[t], .stray t expected rest fun c hc => ?_⟩
      simpa using List.dropWhile_eq_nil_iff.1 all c hc
    · rename_i left next right h
      rw [List.span_eq_takeWhile_dropWhile, Prod.mk.injEq] at h
      obtain ⟨hl, hr⟩ := h
      have split : t.children = left ++ next :: right := by
        rw [← hl, ← hr, List.takeWhile_append_dropWhile]
      have fits : next.symbol = expected := by
        have first := List.head?_dropWhile_not
          (fun c : DerivationTree => decide (c.symbol ≠ expected)) t.children
        rw [hr] at first
        simpa using first
      have before : ∀ c ∈ left, c.symbol ≠ next.symbol := by
        intro c hc
        rw [fits]
        have passed := List.mem_takeWhile_imp (hl ▸ hc)
        exact of_decide_eq_true passed
      obtain ⟨chain, hchain⟩ := ih next
      exact ⟨t :: chain, fits ▸ .pass split before hchain⟩

/-- Unless it fails at once, a walk follows its path up to the last symbol but one. -/
theorem along_cases (start : DerivationTree) (path : List Symbol) (insert : Symbol) :
    (∃ e, along start path insert = ⟨[], .error e⟩) ∨
      ∃ middle last, path = start.symbol :: (middle ++ [last]) ∧
        along start path insert = follow insert start middle := by
  match path with
  | [] => exact .inl ⟨_, rfl⟩
  | [first] => exact .inl ⟨_, rfl⟩
  | first :: second :: rest =>
    rw [along]
    split
    · rename_i hf
      exact .inr ⟨(second :: rest).dropLast, (second :: rest).getLast (by simp),
        by rw [List.dropLast_append_getLast, hf], rfl⟩
    · exact .inl ⟨_, rfl⟩

theorem along_path (start : DerivationTree) (middle : List Symbol) (last insert : Symbol) :
    along start (start.symbol :: (middle ++ [last])) insert = follow insert start middle := by
  obtain ⟨second, rest, h⟩ := List.exists_cons_of_ne_nil (List.append_ne_nil_of_right_ne_nil middle
    (List.cons_ne_nil last []))
  rw [h, along, if_pos rfl, ← h, List.dropLast_concat]

namespace Course

variable {insert : Symbol} {t : DerivationTree} {path : List Symbol} {chain : List DerivationTree}
  {walk : Walk}

theorem chain_subset (h : Course insert t path chain walk) : ∀ s ∈ chain, s ∈ t.preorder := by
  induction h with
  | arrive t => simp [Tree.self_mem_preorder]
  | stray t expected rest => simp [Tree.self_mem_preorder]
  | @pass t next left right rest chain walk split _ _ ih =>
    refine List.forall_mem_cons.2 ⟨Tree.self_mem_preorder t, fun s hs => ?_⟩
    exact Tree.mem_preorder_iff.2 (.inr ⟨next, by simp [split], ih s hs⟩)

theorem arrival_mem (h : Course insert t path chain walk) {arrival : Arrival}
    (ha : walk.outcome = .ok arrival) :
    arrival.parent ∈ chain ∧
      arrival.sibling? = arrival.parent.children.find? fun c => c.symbol = insert := by
  induction h with
  | arrive t =>
    cases ha
    exact ⟨List.mem_singleton_self t, rfl⟩
  | stray t expected rest => simp at ha
  | pass _ _ _ ih =>
    obtain ⟨hp, hs⟩ := ih ha
    exact ⟨List.mem_cons_of_mem _ hp, hs⟩

/-- The symbols below the start are those of the path, up to the point where a walk strays. -/
theorem symbols (h : Course insert t path chain walk) :
    ∃ below rest, chain = t :: below ∧ path = below.map Tree.symbol ++ rest ∧
      (∀ e, walk.outcome = .error e → rest ≠ []) ∧
      ∀ arrival, walk.outcome = .ok arrival →
        rest = [] ∧ ∃ front, chain = front ++ [arrival.parent] := by
  induction h with
  | arrive t =>
    refine ⟨[], [], rfl, rfl, by simp, fun arrival ha => ⟨rfl, [], ?_⟩⟩
    cases ha
    rfl
  | stray t expected rest => exact ⟨[], expected :: rest, rfl, rfl, by simp, by simp⟩
  | @pass t next left right path chain walk _ _ _ ih =>
    obtain ⟨below, rest, rfl, rfl, strays, arrives⟩ := ih
    refine ⟨next :: below, rest, rfl, rfl, strays, fun arrival ha => ?_⟩
    obtain ⟨nothing, front, hf⟩ := arrives arrival ha
    exact ⟨nothing, t :: front, by rw [hf]; rfl⟩

theorem sideBranches_perm (ts : List DerivationTree) :
    ((sideBranches ts).flatMap preorder ++
      (ts.filter fun c => c.symbol.isTerminal).flatMap preorder).Perm (ts.flatMap preorder) := by
  have parts := List.filter_append_perm (fun c : DerivationTree => c.symbol.isNonterminal) ts
  rw [← List.flatMap_append]
  exact parts.flatMap_right preorder

private theorem regroup {α : Type} (side terminal chain queued skipped : List α) :
    (side ++ terminal ++ (chain ++ queued ++ skipped)).Perm
      (chain ++ (side ++ queued) ++ (terminal ++ skipped)) := by
  classical
  refine List.perm_iff_count.2 fun a => ?_
  simp only [List.count_append]
  omega

/-- Where a walk leaves the nodes below its start. -/
theorem preorder_perm (h : Course insert t path chain walk) :
    ∃ skipped : List DerivationTree, (∀ s ∈ skipped, s.symbol.isTerminal ∧ s ∈ t.preorder) ∧
      t.preorder.Perm (chain ++ walk.queued.flatMap preorder ++ skipped.flatMap preorder) := by
  have terminal {t : DerivationTree} {ts : List DerivationTree} (below : ts ⊆ t.children) :
      ∀ s ∈ ts.filter fun c => c.symbol.isTerminal, s.symbol.isTerminal ∧ s ∈ t.preorder := by
    intro s hs
    obtain ⟨hm, ht⟩ := List.mem_filter.1 hs
    exact ⟨ht, Tree.mem_preorder_of_mem_children (below hm)⟩
  induction h with
  | arrive t =>
    refine ⟨_, terminal (List.Subset.refl _), ?_⟩
    rw [Tree.preorder_eq_cons]
    exact (sideBranches_perm t.children).symm.cons t
  | stray t expected rest =>
    refine ⟨_, terminal (List.Subset.refl _), ?_⟩
    rw [Tree.preorder_eq_cons]
    exact (sideBranches_perm t.children).symm.cons t
  | @pass t next left right rest chain walk split _ _ ih =>
    obtain ⟨skipped, hs, hp⟩ := ih
    refine ⟨(left ++ right).filter (fun c => c.symbol.isTerminal) ++ skipped, ?_, ?_⟩
    · rw [List.forall_mem_append]
      refine ⟨terminal (by simp [split]), fun s hm => ⟨(hs s hm).1, ?_⟩⟩
      exact Tree.mem_preorder_iff.2 (.inr ⟨next, by simp [split], (hs s hm).2⟩)
    · rw [Tree.preorder_eq_cons, split]
      -- The nodes below the child that the walk passes on to come from the induction hypothesis.
      have parted : ((left ++ next :: right).flatMap preorder).Perm
          ((left ++ right).flatMap preorder ++ next.preorder) :=
        (List.perm_middle.flatMap_right preorder).trans List.perm_append_comm
      have beside := (sideBranches_perm (left ++ right)).symm.append hp
      have sorted := parted.trans (beside.trans (regroup _ _ _ _ _))
      simp only [← List.flatMap_append] at sorted
      exact sorted.cons t

end Course

/-- The nodes that a walk queues share out some of the nodes below its start. -/
theorem kept_along (node : DerivationTree) (path : List Symbol) (insert : Symbol) :
    ∃ lost, ((along node path insert).queued.flatMap preorder ++ lost).Perm
      (node.children.flatMap preorder) := by
  obtain ⟨e, he⟩ | ⟨middle, last, -, hw⟩ := along_cases node path insert
  · rw [he]
    exact ⟨_, .refl _⟩
  · obtain ⟨chain, course⟩ := course_follow insert node middle
    obtain ⟨skipped, -, perm⟩ := course.preorder_perm
    obtain ⟨below, -, rfl, -⟩ := course.symbols
    rw [Tree.preorder_eq_cons, List.append_assoc, List.cons_append] at perm
    rw [hw]
    refine ⟨below ++ skipped.flatMap preorder, ?_⟩
    refine List.Perm.trans ?_ perm.cons_inv.symm
    rw [← List.append_assoc, ← List.append_assoc]
    exact List.perm_append_comm.append_right _

theorem exists_child_of_queued {node n : DerivationTree} {path : List Symbol} {insert : Symbol}
    (h : n ∈ (along node path insert).queued) : ∃ c ∈ node.children, n ∈ c.preorder := by
  obtain ⟨lost, kept⟩ := kept_along node path insert
  refine List.mem_flatMap.1 (kept.subset (List.mem_append_left _ ?_))
  exact List.mem_flatMap.2 ⟨n, h, Tree.self_mem_preorder n⟩

theorem queued_along (start : DerivationTree) (path : List Symbol) (insert : Symbol) :
    (∀ t ∈ (along start path insert).queued, t ∈ start.preorder) ∧
      (along start path insert).queued.length < start.size := by
  refine ⟨fun t ht => Tree.mem_preorder_iff.2 (.inr (exists_child_of_queued ht)), ?_⟩
  obtain ⟨lost, kept⟩ := kept_along start path insert
  have total := kept.length_eq
  have := Tree.length_le_flatMap_preorder (along start path insert).queued
  rw [← Tree.length_preorder, Tree.preorder_eq_cons]
  simp only [List.length_append, List.length_cons] at total ⊢
  omega

theorem arrival_along {start : DerivationTree} {path : List Symbol} {insert : Symbol}
    {arrival : Arrival} (h : (along start path insert).outcome = .ok arrival) :
    arrival.parent ∈ start.preorder ∧
      arrival.sibling? = arrival.parent.children.find? fun c => c.symbol = insert := by
  obtain ⟨e, he⟩ | ⟨middle, last, -, hw⟩ := along_cases start path insert
  · simp [he] at h
  · obtain ⟨chain, course⟩ := course_follow insert start middle
    obtain ⟨hp, hs⟩ := course.arrival_mem (hw ▸ h)
    exact ⟨course.chain_subset _ hp, hs⟩

/-- A walk of one step queues children of its start. -/
theorem queued_of_length_le {node n : DerivationTree} {path : List Symbol} {insert : Symbol}
    (short : path.length ≤ 2) (h : n ∈ (along node path insert).queued) : n ∈ node.children := by
  obtain ⟨e, he⟩ | ⟨middle, last, rfl, hw⟩ := along_cases node path insert
  · simp [he] at h
  · obtain rfl : middle = [] := List.length_eq_zero_iff.1 (by simpa using short)
    rw [hw] at h
    exact List.mem_of_mem_filter h

end Scion.Walk
