import Scion.Proofs.Grammar.Conformance
import Scion.Proofs.Graft.Legality

/-!
Grafting keeps to the grammar. Whatever is put into a slot of an alternative conforms and has the
symbol of the slot, so hosts and wrappers conform, and so does the target after the exchange.
-/

namespace Scion

namespace Host

open Role (Holds)

variable {g : Grammar} {expandTrivial : Bool} {insert host : DerivationTree}

theorem conforms_fillerShape {head s : Symbol} {a : Alternative} (known : a ∈ g.alternatives head)
    (slot : s ∈ a) : g.Conforms (fillerShape g expandTrivial s) := by
  -- A nonterminal of an alternative has a rule, so the slot may stay open.
  have opened (h : ¬ s.isTerminal) : g.Conforms (.hole s) := by
    have hs : s.isNonterminal := by simpa [Symbol.isTerminal] using h
    exact .hole hs (g.isDefined_of_mem known slot hs)
  rw [fillerShape]
  split
  · rename_i hs
    exact .leaf (.inl hs)
  · rename_i hs
    split
    · split
      · rename_i b hb
        obtain ⟨only, terminals⟩ := Grammar.trivialExpansion?_eq_some.1 hb
        refine .of_spelled ?_ fun q hq => ?_
        · rw [List.map_map]
          exact (List.map_id b).symm ▸ only ▸ List.mem_singleton_self b
        · obtain ⟨t, ht, rfl⟩ := List.mem_map.1 hq
          exact .leaf (.inl (terminals t ht))
      · exact opened hs
    · exact opened hs

theorem conforms_of_holds {first last id : NodeId} {head : Symbol} {roles : List Role}
    {cs : List DerivationTree} (hi : g.Conforms insert.shape) (hh : g.Conforms host.shape)
    (siblings : ∀ c, .copy c ∈ roles → g.Conforms c.shape)
    (known : roles.map (Role.symbol insert.symbol host.symbol) ∈ g.alternatives head)
    (h : List.Forall₂ (Holds g expandTrivial insert host first last) roles cs) :
    g.Conforms (Tree.node ⟨id, head⟩ cs : DerivationTree).shape := by
  refine .of_children (map_symbol_of_holds h ▸ known) fun c hc => ?_
  obtain ⟨role, hrole, holds⟩ := exists_role h c hc
  have slot := List.mem_map_of_mem (f := Role.symbol insert.symbol host.symbol) hrole
  cases holds with
  | insert => exact hi
  | host => exact hh
  | copy shape => exact shape ▸ siblings _ hrole
  | filler shape => exact shape ▸ conforms_fillerShape known slot

theorem conforms_build {a : Alternative} {next : NodeId} (known : a ∈ g.alternatives host.symbol)
    (hi : g.Conforms insert.shape) (hh : g.Conforms host.shape) :
    g.Conforms (build g expandTrivial a host insert
      (host.children.find? fun c => c.symbol = insert.symbol) next).1.shape := by
  obtain ⟨cs, last, hbuild, -, -, holds⟩ := @build_eq g expandTrivial insert host a next
    (host.children.find? fun c => c.symbol = insert.symbol) symbol_sibling
  rw [hbuild]
  refine conforms_of_holds hi hh (fun c hc => ?_) ?_ holds
  · have found := List.mem_of_find?_eq_some (Role.copy_mem_assign hc)
    exact hh.of_mem_preorder (Tree.mem_preorder_of_mem_children found)
  · rw [Role.map_symbol_assign _ _ symbol_sibling]
    exact known

theorem conforms_wrap {parent : Symbol} {next next' : NodeId} {w : DerivationTree}
    (hi : g.Conforms insert.shape) (h : wrap g parent insert next = .ok (w, next')) :
    g.Conforms w.shape := by
  obtain ⟨l, r, last, hmade, -, known, others⟩ := wrap_ok h
  obtain ⟨rfl, -⟩ := Prod.mk.inj hmade
  refine .of_children known fun c hc => ?_
  have slot := List.mem_map_of_mem (f := Tree.symbol) hc
  obtain hc | rfl : c ∈ l ++ r ∨ c = insert := by grind
  · cases others c hc with
    | filler shape => exact shape ▸ conforms_fillerShape known slot
  · exact hi

end Host

theorem Site.GraftAt.conforms {site : Site} {insert n t : DerivationTree} {next : NodeId} {p : Path}
    (h : site.GraftAt insert next p n t) (hn : site.target.subtreeAt p = .ok n)
    (ht : site.grammar.Conforms site.target.shape) (hi : site.grammar.Conforms insert.shape) :
    site.grammar.Conforms t.shape ∧ t.symbol = site.target.symbol := by
  cases h with
  | fill _ same h =>
    exact ⟨ht.replaceAt hn hi same.symm h, Tree.symbol_of_replaceAt hn h same.symm⟩
  | @host a ha h =>
    have hh := ht.of_mem_preorder (Tree.mem_preorder_of_subtreeAt hn)
    have built := @Host.conforms_build _ site.expandTrivial _ _ _ next
      (Alternatives.shortestMatching_ok ha).1 hi hh
    have same : (Host.build site.grammar site.expandTrivial a n insert
        (n.children.find? fun c => c.symbol = insert.symbol) next).1.symbol = n.symbol := rfl
    exact ⟨ht.replaceAt hn built same h, Tree.symbol_of_replaceAt hn h same⟩

namespace GraftRequest

variable {request : GraftRequest} {next : NodeId} {run : GraftRun} {t : DerivationTree}

theorem Reaches.conforms_insert (h : request.Reaches next run)
    (hi : request.grammar.Conforms request.insert.shape) :
    ∀ w ∈ run.search.insert :: run.search.wrappers, request.grammar.Conforms w.shape :=
  h.inherited (P := fun _ w => request.grammar.Conforms w.shape) hi (fun _ _ _ _ hw => hw)
    fun _ _ _ _ _ made hw => Host.conforms_wrap hw made

/-- Emitted trees conform to the grammar and keep the root symbol of the target. -/
theorem emitted_conforms (distinct : request.target.ids.Nodup)
    (ht : request.grammar.Conforms request.target.shape)
    (hi : request.grammar.Conforms request.insert.shape) (h : request.Reaches next run)
    (emitted : run.step.1 = .emit t) :
    request.grammar.Conforms t.shape ∧ t.symbol = request.target.symbol := by
  obtain ⟨p, n, hn, graft⟩ := h.graftAt distinct (GraftRun.submission?_of_emit emitted)
  exact graft.conforms hn ht (h.conforms_insert hi _ List.mem_cons_self)

end GraftRequest

namespace CommaList

theorem conforms_single : grammar.Conforms single.shape := by
  have item : grammar.Conforms (.node ⟨"<item>"⟩ [.leaf ⟨"a"⟩]) :=
    .of_spelled (by decide) (by simpa using .leaf (.inl rfl))
  have list : grammar.Conforms (.node ⟨"<list>"⟩ [.node ⟨"<item>"⟩ [.leaf ⟨"a"⟩]]) :=
    .of_spelled (by decide) (by simpa using item)
  exact .of_spelled (by decide) (List.forall_mem_singleton.2 list)

theorem emitted_conforms_double :
    single.ids.Nodup ∧ grammar.Conforms single.shape ∧ grammar.Conforms request.insert.shape ∧
      ((request.start 6).after 3).step.1 = .emit double ∧
      grammar.Conforms double.shape ∧ double.symbol = single.symbol := by
  have distinct : request.target.ids.Nodup := by decide
  have inserted : grammar.Conforms request.insert.shape := .leaf (.inl rfl)
  have reached : request.Reaches 6 ((request.start 6).after 3) :=
    GraftRequest.reaches_after .start 3
  exact ⟨distinct, conforms_single, inserted, rfl,
    GraftRequest.emitted_conforms distinct conforms_single inserted reached rfl⟩

end CommaList

end Scion
