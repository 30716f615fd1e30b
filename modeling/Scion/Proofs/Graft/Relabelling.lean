import Scion.Proofs.Graft.Frontier
import Scion.Proofs.Tree.Relabelling

/-!
Grafting under other identities. A walk takes the same course in a renamed tree. Hosts made of trees
with the same views have the same view, whichever identities are fresh for the one and for the
other, as long as none of them is the reference's. A node of a renamed target is exchanged at its old
place, when the renaming keeps the nodes of the target apart.
-/

namespace Scion

variable {f : NodeId → NodeId}

/-! ### Walks -/

def Arrival.rename (f : NodeId → NodeId) (a : Arrival) : Arrival :=
  ⟨a.parent.rename f, a.sibling?.map (Tree.rename f)⟩

namespace Walk

def rename (f : NodeId → NodeId) (w : Walk) : Walk :=
  ⟨w.queued.map (Tree.rename f), w.outcome.map (Arrival.rename f)⟩

theorem sideBranches_rename (ts : List DerivationTree) :
    sideBranches (ts.map (Tree.rename f)) = (sideBranches ts).map (Tree.rename f) := by
  have same : (fun t : DerivationTree => t.symbol.isNonterminal) ∘ Tree.rename f =
      fun t => t.symbol.isNonterminal := funext fun _ => by simp
  rw [sideBranches, List.filter_map, same, sideBranches]

theorem follow_rename (insert : Symbol) (t : DerivationTree) (path : List Symbol) :
    follow insert (t.rename f) path = (follow insert t path).rename f := by
  induction path generalizing t with
  | nil =>
    have same : (fun c : DerivationTree => decide (c.symbol = insert)) ∘ Tree.rename f =
        fun c => decide (c.symbol = insert) := funext fun _ => by simp
    rw [follow, follow, rename, Tree.children_rename, sideBranches_rename, List.find?_map, same]
    rfl
  | cons expected rest ih =>
    have same : (fun c : DerivationTree => decide (c.symbol ≠ expected)) ∘ Tree.rename f =
        fun c => decide (c.symbol ≠ expected) := funext fun _ => by simp
    rw [follow, follow, Tree.children_rename, List.span_eq_takeWhile_dropWhile,
      List.span_eq_takeWhile_dropWhile, List.takeWhile_map, List.dropWhile_map, same]
    cases t.children.dropWhile fun c => decide (c.symbol ≠ expected) with
    | nil => simp [rename, sideBranches_rename, Except.map]
    | cons next right =>
      simp only [List.map_cons, ← List.map_append, sideBranches_rename, ih, rename]

theorem along_rename (start : DerivationTree) (path : List Symbol) (insert : Symbol) :
    along (start.rename f) path insert = (along start path insert).rename f := by
  match path with
  | [] => simp [along, rename, Except.map]
  | [first] => simp [along, rename, Except.map]
  | first :: second :: rest =>
    rw [along, along, Tree.symbol_rename]
    split
    · exact follow_rename ..
    · simp [rename, Except.map]

end Walk

/-! ### Fresh identities beside the reference -/

/-- No identity from `first` on and before `last` is the reference's. -/
def Spared (reference? : Option NodeId) (first last : NodeId) : Prop :=
  ∀ r ∈ reference?, r < first ∨ last ≤ r

variable {reference? reference?' : Option NodeId} {first last first' last' : NodeId}

theorem Spared.mono (h : Spared reference? first last) (hf : first ≤ first') (hl : last' ≤ last) :
    Spared reference? first' last' :=
  fun r hr => (h r hr).imp (Nat.lt_of_lt_of_le · hf) (Nat.le_trans hl)

theorem Tree.Issued.not_mem {t : DerivationTree} (h : t.Issued first last)
    (spared : Spared reference? first last) : ∀ r ∈ reference?, r ∉ t.ids := by
  intro r hr inside
  obtain ⟨later, earlier⟩ := h r inside
  exact (spared r hr).elim (Nat.not_lt.2 later) (Nat.not_le.2 earlier)

/-! ### Hosts and wrappers -/

namespace Role

/-- Roles that differ in identities only. -/
inductive Alike : Role → Role → Prop
  | insert : Alike .insert .insert
  | host : Alike .host .host
  | copy {t u : DerivationTree} : t.shape = u.shape → Alike (.copy t) (.copy u)
  | filler (s : Symbol) : Alike (.filler s) (.filler s)

theorem assign_alike {insert host : Symbol} {inserting hosting : Bool}
    {sibling? sibling?' : Option DerivationTree}
    (siblings : sibling?.map Tree.shape = sibling?'.map Tree.shape) (a : Alternative) :
    List.Forall₂ Alike (assign insert host ⟨inserting, hosting, sibling?⟩ a)
      (assign insert host ⟨inserting, hosting, sibling?'⟩ a) := by
  induction a generalizing inserting hosting sibling? sibling?' with
  | nil => exact .nil
  | cons s rest ih =>
    rw [assign, assign]
    split
    · exact .cons .insert (ih siblings)
    · split
      · exact .cons .host (ih siblings)
      · cases sibling? with
        | none =>
          obtain rfl : sibling?' = none := Option.map_eq_none_iff.1 siblings.symm
          exact .cons (.filler s) (ih rfl)
        | some t =>
          obtain ⟨u, rfl, same⟩ := Option.map_eq_some_iff.1 siblings.symm
          dsimp only
          split
          · exact .cons (.copy same.symm) (ih rfl)
          · exact .cons (.filler s) (ih siblings)

end Role

section

variable {g : Grammar} {expandTrivial : Bool} {insert host insert' host' t u : DerivationTree}
  {role role' : Role} {next next' : NodeId}

theorem Role.Holds.view_eq (alike : Alike role role')
    (left : Holds g expandTrivial insert host first last role t)
    (right : Holds g expandTrivial insert' host' first' last' role' u)
    (inserts : insert.view reference? = insert'.view reference?')
    (hosts : host.view reference? = host'.view reference?')
    (spared : Spared reference? first last) (spared' : Spared reference?' first' last') :
    t.view reference? = u.view reference?' := by
  cases alike with
  | insert =>
    cases left
    cases right
    exact inserts
  | host =>
    cases left
    cases right
    exact hosts
  | copy shapes =>
    cases left with
    | copy shape issued =>
      cases right with
      | copy shape' issued' =>
        exact Tree.view_eq_of_shape (by rw [shape, shape', shapes]) (issued.not_mem spared)
          (issued'.not_mem spared')
  | filler =>
    cases left with
    | filler shape issued =>
      cases right with
      | filler shape' issued' =>
        exact Tree.view_eq_of_shape (by rw [shape, shape']) (issued.not_mem spared)
          (issued'.not_mem spared')

namespace Host

open Role (Alike Holds)

theorem map_view_of_holds {roles roles' : List Role} {cs ds : List DerivationTree}
    (alike : List.Forall₂ Alike roles roles')
    (left : List.Forall₂ (Holds g expandTrivial insert host first last) roles cs)
    (right : List.Forall₂ (Holds g expandTrivial insert' host' first' last') roles' ds)
    (inserts : insert.view reference? = insert'.view reference?')
    (hosts : host.view reference? = host'.view reference?')
    (spared : Spared reference? first last) (spared' : Spared reference?' first' last') :
    cs.map (Tree.view reference?) = ds.map (Tree.view reference?') := by
  induction alike generalizing cs ds with
  | nil =>
    cases left
    cases right
    rfl
  | cons same _ ih =>
    cases left with
    | cons hc hcs =>
      cases right with
      | cons hd hds =>
        rw [List.map_cons, List.map_cons, hc.view_eq same hd inserts hosts spared spared',
          ih hcs hds]

/-- A node with filled slots, whose own identity is issued last. -/
theorem view_filled {roles roles' : List Role} {s s' : Symbol} (symbols : s = s')
    (alike : List.Forall₂ Alike roles roles')
    (inserts : insert.view reference? = insert'.view reference?')
    (hosts : host.view reference? = host'.view reference?')
    (spared : Spared reference? next ((fill g expandTrivial insert host roles next).2 + 1))
    (spared' : Spared reference?' next' ((fill g expandTrivial insert' host' roles' next').2 + 1)) :
    (Tree.node ⟨(fill g expandTrivial insert host roles next).2, s⟩
        (fill g expandTrivial insert host roles next).1).view reference? =
      (Tree.node ⟨(fill g expandTrivial insert' host' roles' next').2, s'⟩
        (fill g expandTrivial insert' host' roles' next').1).view reference?' := by
  obtain ⟨later, left⟩ := @fill_holds g expandTrivial insert host roles next
  obtain ⟨later', right⟩ := @fill_holds g expandTrivial insert' host' roles' next'
  have children := map_view_of_holds alike left right inserts hosts
    (spared.mono (Nat.le_refl _) (Nat.le_succ _)) (spared'.mono (Nat.le_refl _) (Nat.le_succ _))
  have unmarked {r? : Option NodeId} {first last : NodeId} (later : first ≤ last)
      (spared : Spared r? first (last + 1)) : decide (r? = some last) = false := by
    refine decide_eq_false fun same => ?_
    exact (spared last same).elim (Nat.not_lt.2 later) (Nat.not_succ_le_self last)
  rw [Tree.view_node, Tree.view_node, children, unmarked later spared, unmarked later' spared',
    symbols]

theorem view_build {sibling? sibling?' : Option DerivationTree} (a : Alternative)
    (inserts : insert.view reference? = insert'.view reference?')
    (hosts : host.view reference? = host'.view reference?')
    (siblings : sibling?.map Tree.shape = sibling?'.map Tree.shape)
    (spared : Spared reference? next (build g expandTrivial a host insert sibling? next).2)
    (spared' :
      Spared reference?' next' (build g expandTrivial a host' insert' sibling?' next').2) :
    (build g expandTrivial a host insert sibling? next).1.view reference? =
      (build g expandTrivial a host' insert' sibling?' next').1.view reference?' := by
  have symbol := Tree.symbol_congr (Tree.shape_eq_of_view inserts)
  have symbol' := Tree.symbol_congr (Tree.shape_eq_of_view hosts)
  have alike := @Role.assign_alike insert.symbol host.symbol true true _ _ siblings a
  refine view_filled symbol' ?_ inserts hosts spared spared'
  rwa [← symbol, ← symbol']

theorem shape_wrap (parent : Symbol) (shapes : insert.shape = insert'.shape) (next next' : NodeId) :
    (wrap g parent insert next).map (fun made => made.1.shape) =
      (wrap g parent insert' next').map fun made => made.1.shape := by
  have inserts : insert.view none = insert'.view none :=
    Tree.view_eq_of_shape shapes (by simp) (by simp)
  rw [wrap, wrap, ← Tree.symbol_congr shapes]
  cases Alternatives.shortestContaining g parent insert.symbol with
  | error e => rfl
  | ok a =>
    have alike := @Role.assign_alike insert.symbol parent true false none none rfl a
    refine congrArg Except.ok (@Tree.shape_eq_of_view _ _ none none ?_)
    exact view_filled rfl alike inserts inserts (by simp [Spared]) (by simp [Spared])

end Host

end

/-! ### The target -/

namespace Site

variable {site : Site} {node x y : DerivationTree}

def rename (f : NodeId → NodeId) (site : Site) : Site :=
  { site with target := site.target.rename f }

/-- The renaming keeps the nodes of the target apart, and the reference is one of them. -/
structure Separated (site : Site) (f : NodeId → NodeId) (reference? : Option NodeId) : Prop where
  injective : ∀ i ∈ site.target.ids, ∀ j ∈ site.target.ids, f i = f j → i = j
  known : ∀ r ∈ reference?, r ∈ site.target.ids

theorem Separated.view_rename (h : site.Separated f reference?)
    (inside : node ∈ site.target.preorder) :
    (node.rename f).view (reference?.map f) = node.view reference? :=
  Tree.view_rename fun r hr i hi =>
    h.injective r (h.known r hr) i (Tree.ids_subset_of_mem_preorder inside hi)

/-- Exchanging a node succeeds in both targets. -/
theorem Separated.exchange (h : site.Separated f reference?)
    (inside : node ∈ site.target.preorder)
    (views : x.view reference? = y.view (reference?.map f)) :
    (site.exchange node.id x).map (Tree.view reference?) =
      ((site.rename f).exchange (f node.id) y).map (Tree.view (reference?.map f)) := by
  obtain ⟨p, n, hp, hn, -⟩ := Tree.exists_find? inside
  have found : (site.rename f).target.find? (f node.id) = some p := by
    rw [← hp]
    exact Tree.find?_rename fun j hj =>
      h.injective j hj node.id (Tree.id_mem_ids inside)
  obtain ⟨t, ht⟩ := Tree.exists_replaceAt hn x
  have hn' : (site.rename f).target.subtreeAt p = .ok (n.rename f) :=
    Tree.subtreeAt_eq_ok.2 (Tree.descend_map (Tree.subtreeAt_eq_ok.1 hn))
  obtain ⟨u, hu⟩ := Tree.exists_replaceAt hn' y
  have targets := (h.view_rename (Tree.self_mem_preorder site.target)).symm
  rw [Site.exchange, Site.exchange, hp, found]
  dsimp only
  rw [ht, hu]
  exact congrArg Except.ok (Tree.view_replaceAt targets views ht hu)

end Site

end Scion
