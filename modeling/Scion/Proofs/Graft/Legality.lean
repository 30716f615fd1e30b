import Scion.Proofs.Graft.Frontier

/-!
Results are legal grafts. A result is the target with one node exchanged: an open node is filled by
the inserted tree, or a node gives way to a host that holds it beside the inserted tree. In both
cases the inserted tree is the original one inside of wrappers that were made during the run, so
neither target nor inserted tree loses a node.
-/

namespace Scion

/-- A tree inside of zero or more wrappers, made with identities from `first` on and before `last`.
A wrapper holds the tree inside of it in one slot and leaves made after this tree in the others. -/
inductive Wrapped (first : NodeId) (origin : DerivationTree) : NodeId → DerivationTree → Prop
  | bare : Wrapped first origin first origin
  | wrap {last id : NodeId} {symbol : Symbol} {t : DerivationTree} {l r : List DerivationTree} :
      Wrapped first origin last t → last ≤ id →
      (∀ c ∈ l ++ r, c.isLeaf ∧ last ≤ c.id ∧ c.id < id) →
      Wrapped first origin (id + 1) (.node ⟨id, symbol⟩ (l ++ t :: r))

theorem Wrapped.ids_subset {first last : NodeId} {origin t : DerivationTree}
    (h : Wrapped first origin last t) : origin.ids ⊆ t.ids := by
  induction h with
  | bare => exact List.Subset.refl _
  | @wrap last id symbol t l r _ _ _ ih =>
    have inside : t ∈ (Tree.node ⟨id, symbol⟩ (l ++ t :: r)).preorder :=
      Tree.mem_preorder_of_mem_children (by simp)
    exact List.Subset.trans ih (Tree.ids_subset_of_mem_preorder inside)

/-- `t` is the target with its node `n` at `p` exchanged for a graft of `w`. -/
inductive LegalGraft (g : Grammar) (first : NodeId) (target : DerivationTree) (p : Path)
    (n w t : DerivationTree) : Prop
  | fill : n.isOpen → n.symbol = w.symbol → target.replaceAt p w = .ok t →
      LegalGraft g first target p n w t
  | host {id : NodeId} {cs : List DerivationTree} {i j : Nat} : first ≤ id →
      cs.map Tree.symbol ∈ g.alternatives n.symbol → i ≠ j → cs[i]? = some n → cs[j]? = some w →
      target.replaceAt p (.node ⟨id, n.symbol⟩ cs) = .ok t → LegalGraft g first target p n w t

namespace LegalGraft

variable {g : Grammar} {first : NodeId} {target n w t : DerivationTree} {p : Path}

/-- Only an open node that was filled is lost. -/
theorem target_ids (h : LegalGraft g first target p n w t) (hn : target.subtreeAt p = .ok n) :
    ∀ i ∈ target.ids,
      i ∈ t.ids ∨ (n.isOpen ∧ i = n.id ∧ target.replaceAt p w = .ok t) := by
  intro i hi
  cases h with
  | fill hopen _ ht =>
    by_cases same : i = n.id
    · exact .inr ⟨hopen, same, ht⟩
    · refine .inl (Tree.mem_ids_of_replaceAt hn ht hi fun inside => absurd ?_ same)
      cases n with
      | hole a => simpa [Tree.ids_eq_cons] using inside
      | node a cs => simp [Tree.isOpen] at hopen
  | @host id cs _ _ _ _ _ hslot _ ht =>
    have kept : n ∈ (Tree.node ⟨id, n.symbol⟩ cs).preorder :=
      Tree.mem_preorder_of_mem_children (List.mem_of_getElem? hslot)
    exact .inl (Tree.mem_ids_of_replaceAt hn ht hi (Tree.ids_subset_of_mem_preorder kept ·))

theorem inserted_ids (h : LegalGraft g first target p n w t) : w.ids ⊆ t.ids := by
  cases h with
  | fill _ _ ht => exact Tree.ids_subset_of_mem_preorder (Tree.mem_preorder_of_replaceAt ht)
  | @host id cs _ _ _ _ _ _ hj ht =>
    have inside : w ∈ (Tree.node ⟨id, n.symbol⟩ cs).preorder :=
      Tree.mem_preorder_of_mem_children (List.mem_of_getElem? hj)
    exact Tree.ids_subset_of_mem_preorder
      (Tree.mem_preorder_trans inside (Tree.mem_preorder_of_replaceAt ht))

end LegalGraft

theorem Site.GraftAt.legalGraft {site : Site} {insert n t : DerivationTree} {next : NodeId}
    {p : Path} (h : site.GraftAt insert next p n t) :
    LegalGraft site.grammar next site.target p n insert t := by
  cases h with
  | fill hopen hsymbol ht => exact .fill hopen hsymbol ht
  | @host a ha ht =>
    obtain ⟨known, slots⟩ := Alternatives.shortestMatching_ok ha
    obtain ⟨cs, last, hbuild, hl, spelled, holds⟩ := @Host.build_eq site.grammar
      site.expandTrivial insert n a next _ Host.symbol_sibling
    obtain ⟨i, j, differ, hi, hj⟩ := Host.exists_slots slots holds
    rw [hbuild] at ht
    exact .host hl (spelled ▸ known) differ hi hj ht

namespace GraftRequest

variable {request : GraftRequest} {next : NodeId} {run : GraftRun} {t : DerivationTree}

/-- The inserted tree and all queued wrappers hold the original one. -/
theorem Reaches.wrapped (h : request.Reaches next run) :
    ∀ w ∈ run.search.insert :: run.search.wrappers,
      ∃ last ≤ run.search.next, Wrapped next request.insert last w := by
  refine h.inherited (P := fun bound w => ∃ last ≤ bound, Wrapped next request.insert last w)
    ⟨next, Nat.le_refl _, .bare⟩ ?_ ?_
  · rintro bound bound' w hle ⟨last, hl, wrapped⟩
    exact ⟨last, Nat.le_trans hl hle, wrapped⟩
  · rintro parent bound bound' w w' hw ⟨mid, hmid, wrapped⟩
    obtain ⟨l, r, last, hmade, hl, -, others⟩ := Host.wrap_ok hw
    obtain ⟨rfl, rfl⟩ := Prod.mk.inj hmade
    refine ⟨last + 1, Nat.le_refl _, .wrap wrapped (Nat.le_trans hmid hl) fun c hc => ?_⟩
    have issued := (others c hc).issued.id
    exact ⟨(others c hc).isLeaf, Nat.le_trans hmid issued.1, issued.2⟩

/-- Every tree that a run emits is the target with one legal graft, and holds all nodes of both
trees but an open one that was filled. -/
theorem emitted_legalGraft (distinct : request.target.ids.Nodup) (h : request.Reaches next run)
    (emitted : run.step.1 = .emit t) :
    ∃ p n w last, request.target.subtreeAt p = .ok n ∧
      Wrapped next request.insert last w ∧ last ≤ run.search.next ∧
      LegalGraft request.grammar run.search.next request.target p n w t ∧
      (∀ i ∈ request.target.ids,
        i ∈ t.ids ∨ (n.isOpen ∧ i = n.id ∧ request.target.replaceAt p w = .ok t)) ∧
      request.insert.ids ⊆ t.ids := by
  obtain ⟨p, n, hn, graftAt⟩ := h.graftAt distinct (GraftRun.submission?_of_emit emitted)
  obtain ⟨last, hl, wrapped⟩ := h.wrapped run.search.insert List.mem_cons_self
  have graft := graftAt.legalGraft
  exact ⟨p, n, _, last, hn, wrapped, hl, graft, graft.target_ids hn,
    List.Subset.trans wrapped.ids_subset graft.inserted_ids⟩

end GraftRequest

/-! ### Items separated by commas -/

namespace CommaList

def rules : List Rule :=
  [⟨⟨"<start>"⟩, [[⟨"<list>"⟩]]⟩,
    ⟨⟨"<list>"⟩, [[⟨"<item>"⟩], [⟨"<item>"⟩, ⟨" , "⟩, ⟨"<list>"⟩]]⟩,
    ⟨⟨"<item>"⟩, [[⟨"a"⟩], [⟨"b"⟩]]⟩]

def grammar : Grammar := ⟨rules, ParentIndex.ofRules rules, by decide, rfl⟩

def single : DerivationTree :=
  .node ⟨4, ⟨"<start>"⟩⟩ [.node ⟨3, ⟨"<list>"⟩⟩ [.node ⟨2, ⟨"<item>"⟩⟩ [.leaf ⟨1, ⟨"a"⟩⟩]]]

/-- A bare `b` is to be inserted: it fits nowhere until it is wrapped in an item. -/
def request : GraftRequest where
  grammar := grammar
  paths := (ProductionGraph.ofGrammar grammar).shortestPath?
  target := single
  insert := .leaf ⟨5, ⟨"b"⟩⟩

def double : DerivationTree :=
  .node ⟨4, ⟨"<start>"⟩⟩
    [.node ⟨8, ⟨"<list>"⟩⟩
      [.node ⟨6, ⟨"<item>"⟩⟩ [.leaf ⟨5, ⟨"b"⟩⟩], .leaf ⟨7, ⟨" , "⟩⟩,
        .node ⟨3, ⟨"<list>"⟩⟩ [.node ⟨2, ⟨"<item>"⟩⟩ [.leaf ⟨1, ⟨"a"⟩⟩]]]]

theorem emitted_legalGraft_double :
    single.ids.Nodup ∧ ((request.start 6).after 3).step.1 = .emit double ∧
      ∃ p n w last, single.subtreeAt p = .ok n ∧ Wrapped 6 request.insert last w ∧
        last ≤ ((request.start 6).after 3).search.next ∧
        LegalGraft grammar ((request.start 6).after 3).search.next single p n w double ∧
        (∀ i ∈ single.ids,
          i ∈ double.ids ∨ (n.isOpen ∧ i = n.id ∧ single.replaceAt p w = .ok double)) ∧
        request.insert.ids ⊆ double.ids := by
  have distinct : request.target.ids.Nodup := by decide
  have reached : request.Reaches 6 ((request.start 6).after 3) :=
    GraftRequest.reaches_after .start 3
  exact ⟨distinct, rfl, GraftRequest.emitted_legalGraft distinct reached rfl⟩

end CommaList

end Scion
