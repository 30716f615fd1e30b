import Scion.Proofs.Grammar.Expansion
import Scion.Proofs.Graft.Batch
import Scion.Proofs.Graft.Identity
import Scion.Proofs.Graft.Lockstep

/-!
Expansions concern fillers only. The run without expansions and the run with them examine the same
nodes of the target, choose the same alternatives and make the same wrappers, so they find candidates
at the same steps. Two such candidates are twins: the inserted tree and the old subtree are where they
are in the other, and what differs are open nodes that the host itself was given.
-/

namespace Scion

/-- The results `u` without expansions and `t` with them of one graft. Either an open node of the
target is filled in both; or there is a host with the old subtree `n` in slot `i` and the inserted
tree `w` in slot `j`, and open nodes in other slots, made for the host after the inserted tree, are
replaced by their expansions. -/
inductive TwinGrafts (g : Grammar) (target origin : DerivationTree) (first : NodeId)
    (u t : DerivationTree) : Prop
  | fill {p : Path} {n w : DerivationTree} {last : NodeId} : n ∈ target.preorder →
      target.find? n.id = some p → n.isOpen → Wrapped first origin last w →
      target.replaceAt p w = .ok u → t.shape = u.shape → TwinGrafts g target origin first u t
  | host {p : Path} {n w : DerivationTree} {last lower id : NodeId} {cs : List DerivationTree}
      {i j : Nat} {spots : List Nat} : n ∈ target.preorder → target.find? n.id = some p →
      Wrapped first origin last w → last ≤ lower →
      target.replaceAt p (.node ⟨id, n.symbol⟩ cs) = .ok u →
      i ≠ j → cs[i]? = some n → cs[j]? = some w →
      (∀ k ∈ spots, k ≠ i ∧ k ≠ j ∧
        ∃ x s, cs[k]? = some (.hole ⟨x, s⟩) ∧ lower ≤ x ∧ x < id) →
      g.Expanded (spots.map p.child) u.shape t.shape → TwinGrafts g target origin first u t

/-- Findings of the same kind; two candidates are related. -/
inductive Finding.Paired (R : DerivationTree → DerivationTree → Prop) : Finding → Finding → Prop
  | candidate {u t : DerivationTree} : R u t → Paired R (.candidate u) (.candidate t)
  | discarded : Paired R .discarded .discarded
  | idle : Paired R .idle .idle
  | exhausted : Paired R .exhausted .exhausted

theorem Finding.Paired.tree? {R : DerivationTree → DerivationTree → Prop} {x y : Finding}
    (h : Paired R x y) : Option.Rel R x.tree? y.tree? := by
  cases h with
  | candidate related => exact .some related
  | discarded => exact .none
  | idle => exact .none
  | exhausted => exact .none

/-! ### Hosts -/

namespace Host

variable {g : Grammar} {insert insert' host c d : DerivationTree} {first last first' last' : NodeId}

theorem fillerShape_expanding (g : Grammar) (s : Symbol) :
    fillerShape g false s = fillerShape g true s ∨
      g.Fills (fillerShape g false s) (fillerShape g true s) := by
  unfold fillerShape
  split
  · exact .inl rfl
  · rename_i nonterminal
    rw [if_neg Bool.false_ne_true, if_pos rfl]
    cases ha : g.trivialExpansion? s with
    | none => exact .inl rfl
    | some a =>
      obtain ⟨only, terminals⟩ := Grammar.trivialExpansion?_eq_some.1 ha
      have expands : g.Expands s a :=
        ⟨by simpa [Symbol.isTerminal] using nonterminal, only, terminals⟩
      exact .inr ⟨s, a, rfl, expands, rfl⟩

/-- What two hosts hold in a slot: trees of one shape, or an open node that was made for the first
and its expansion. -/
def SlotTwins (g : Grammar) (first last : NodeId) (c d : DerivationTree) : Prop :=
  c.shape = d.shape ∨ c.Issued first last ∧ g.Fills c.shape d.shape

theorem slotTwins_of_holds {role : Role} (shapes : insert'.shape = insert.shape)
    (left : role.Holds g false insert host first last c)
    (right : role.Holds g true insert' host first' last' d) : SlotTwins g first last c d := by
  cases left with
  | insert =>
    cases right
    exact .inl shapes.symm
  | host =>
    cases right
    exact .inl rfl
  | copy shape =>
    cases right with
    | copy shape' => exact .inl (shape.trans shape'.symm)
  | @filler s _ shape issued =>
    cases right with
    | filler shape' =>
      rw [SlotTwins, shape, shape']
      exact (fillerShape_expanding g s).imp_right fun fills => ⟨issued, fills⟩

theorem slotTwins_of_roles {roles : List Role} {cs ds : List DerivationTree}
    (shapes : insert'.shape = insert.shape)
    (left : List.Forall₂ (Role.Holds g false insert host first last) roles cs)
    (right : List.Forall₂ (Role.Holds g true insert' host first' last') roles ds) :
    List.Forall₂ (SlotTwins g first last) cs ds := by
  induction left generalizing ds with
  | nil =>
    cases right
    exact .nil
  | cons hc _ ih =>
    cases right with
    | cons hd hds => exact .cons (slotTwins_of_holds shapes hc hd) (ih hds)

theorem pairs_of_slotTwins {cs ds : List DerivationTree}
    (twins : List.Forall₂ (SlotTwins g first last) cs ds) :
    List.Forall₂ (fun q r => q = r ∨ g.Fills q r) (cs.map Tree.shape) (ds.map Tree.shape) :=
  List.forall₂_map_left_iff.2 (List.forall₂_map_right_iff.2
    (twins.imp fun _ _ twin => twin.imp_right And.right))

/-- Where two lists of children differ, the first has an open node that was made for the host. -/
theorem exists_hole_of_ne {cs ds : List DerivationTree} {k : Nat}
    (twins : List.Forall₂ (SlotTwins g first last) cs ds)
    (differ : (cs.map Tree.shape)[k]? ≠ (ds.map Tree.shape)[k]?) :
    ∃ x s, cs[k]? = some (.hole ⟨x, s⟩) ∧ first ≤ x ∧ x < last := by
  rw [List.getElem?_map, List.getElem?_map] at differ
  cases hc : cs[k]? with
  | none =>
    have short : ds[k]? = none := by
      rw [List.getElem?_eq_none_iff, ← twins.length_eq]
      exact List.getElem?_eq_none_iff.1 hc
    exact absurd (by rw [hc, short]) differ
  | some c =>
    obtain ⟨d, hd, same | ⟨issued, s, a, hole, -⟩⟩ := getElem?_of_forall₂ twins hc
    · exact absurd (by rw [hc, hd, Option.map_some, Option.map_some, same]) differ
    · cases c with
      | hole n => exact ⟨n.id, n.symbol, rfl, issued.id⟩
      | node n cs => simp at hole

/-- In one place of a tree, the children that differ are the only difference. -/
theorem exists_spots {target old u t : DerivationTree} {p : Path} {s : Symbol} {id id' : NodeId}
    {cs ds : List DerivationTree} (found : target.subtreeAt p = .ok old)
    (twins : List.Forall₂ (SlotTwins g first last) cs ds)
    (hu : target.replaceAt p (.node ⟨id, s⟩ cs) = .ok u)
    (ht : target.replaceAt p (.node ⟨id', s⟩ ds) = .ok t) :
    ∃ spots : List Nat, g.Expanded (spots.map p.child) u.shape t.shape ∧
      ∀ k ∈ spots, (cs.map Tree.shape)[k]? ≠ (ds.map Tree.shape)[k]? := by
  have shaped {id : NodeId} {cs : List DerivationTree} {v : DerivationTree}
      (h : target.replaceAt p (.node ⟨id, s⟩ cs) = .ok v) :
      target.shape.replace 0 p.toList (.node s ([] ++ cs.map Tree.shape)) = .ok v.shape :=
    Tree.shape_node ⟨id, s⟩ cs ▸ Tree.shape_replaceAt h
  obtain ⟨spots, expanded, differ⟩ := Grammar.expanded_of_children
    (Tree.descend_map (Tree.subtreeAt_eq_ok.1 found)) (pairs_of_slotTwins twins) (shaped hu)
    (shaped ht)
  refine ⟨spots, expanded, fun k hk => ?_⟩
  obtain ⟨m, rfl, hm⟩ := differ k hk
  rwa [List.length_nil, Nat.zero_add]

/-- Exchanging a node of the target for two hosts that differ in expansions makes twins. -/
theorem twinGrafts_build {target origin n w w' u t : DerivationTree} {a : Alternative} {p : Path}
    {sibling? : Option DerivationTree} {next next' : NodeId} (inside : n ∈ target.preorder)
    (found : target.find? n.id = some p) (wrapped : Wrapped first origin last w)
    (later : last ≤ next) (shapes : w'.shape = w.shape)
    (slots : Alternatives.hasSlots n.symbol w.symbol a)
    (sibling : ∀ c ∈ sibling?, c.symbol = w.symbol)
    (hu : target.replaceAt p (build g false a n w sibling? next).1 = .ok u)
    (ht : target.replaceAt p (build g true a n w' sibling? next').1 = .ok t) :
    TwinGrafts g target origin first u t := by
  have symbol := Tree.symbol_congr shapes
  obtain ⟨cs, id, built, -, -, holds⟩ := @build_eq g false w n a next sibling? sibling
  obtain ⟨ds, id', built', -, -, holds'⟩ :=
    @build_eq g true w' n a next' sibling? (symbol ▸ sibling)
  rw [symbol] at holds'
  rw [built] at hu
  rw [built'] at ht
  have twins := slotTwins_of_roles shapes holds holds'
  obtain ⟨i, j, apart, hi, hj⟩ := Role.exists_assigned slots sibling?
  have hci := getElem?_of_host holds hi
  have hcj := getElem?_of_insert holds hj
  have hdi := getElem?_of_host holds' hi
  have hdj := getElem?_of_insert holds' hj
  obtain ⟨_, old, hp, hold, -⟩ := Tree.exists_find? inside
  obtain rfl := Option.some.inj (found.symm.trans hp)
  obtain ⟨spots, expanded, differ⟩ := exists_spots hold twins hu ht
  refine .host inside found wrapped later hu apart hci hcj (fun k hk => ?_) expanded
  have hk := differ k hk
  refine ⟨?_, ?_, exists_hole_of_ne twins hk⟩
  · rintro rfl
    simp [hci, hdi] at hk
  · rintro rfl
    simp [hcj, hdj, shapes] at hk

end Host

/-! ### Searching -/

theorem Search.Counterpart.same {s s' : Search} (h : s.Counterpart (fun i => i) s') :
    s'.frontier = s.frontier ∧ s'.visited = s.visited := by
  constructor
  · rw [h.frontier, Tree.map_rename_self]
  · rw [h.visited, List.map_id']

namespace Site

variable {site : Site} {origin node : DerivationTree} {first : NodeId} {s s' : Search}

/-- The same site with the switch for trivial expansions set. -/
def expanding (site : Site) (expandTrivial : Bool) : Site :=
  { site with expandTrivial := expandTrivial }

theorem rename_self (site : Site) : site.rename (fun i => i) = site := by
  rw [rename, Tree.rename_self]

/-- Two candidates that the site has under the two settings of the switch. -/
abbrev Twins (site : Site) (origin : DerivationTree) (first : NodeId) :
    DerivationTree → DerivationTree → Prop :=
  TwinGrafts site.grammar site.target origin first

theorem hostAt_expanding {arrival : Arrival} (inside : arrival.parent ∈ site.target.preorder)
    (sibling : ∀ c ∈ arrival.sibling?, c.symbol = s.insertSymbol)
    (noted : s.insertSymbol = s.insert.symbol) (same : s'.insertSymbol = s.insertSymbol)
    (wrapped : ∃ last ≤ s.next, Wrapped first origin last s.insert)
    (shapes : s'.insert.shape = s.insert.shape) :
    Finding.Paired (site.Twins origin first)
      (attempt (((site.expanding false).hostAt s arrival).1.map some))
      (attempt (((site.expanding true).hostAt s' arrival).1.map some)) := by
  rw [hostAt, hostAt, same]
  dsimp only [expanding]
  cases ha : Alternatives.shortestMatching site.grammar arrival.parent.symbol s.insertSymbol with
  | error e => exact .discarded
  | ok a =>
    rw [noted] at ha sibling
    obtain ⟨last, later, wrapped⟩ := wrapped
    obtain ⟨p, found, exchanged⟩ := exists_exchange_at inside
    obtain ⟨u, hu, replaced⟩ := exchanged (Host.build site.grammar false a arrival.parent s.insert
      arrival.sibling? s.next).1
    obtain ⟨t, ht, replaced'⟩ := exchanged (Host.build site.grammar true a arrival.parent s'.insert
      arrival.sibling? s'.next).1
    have twins := Host.twinGrafts_build inside found wrapped later shapes
      (Alternatives.shortestMatching_ok ha).2 sibling replaced replaced'
    change Finding.Paired _ (attempt ((site.exchange _ _).map some))
      (attempt ((site.exchange _ _).map some))
    rw [hu, ht]
    exact .candidate twins

theorem attach_expanding (inside : node ∈ site.target.preorder)
    (noted : s.insertSymbol = s.insert.symbol)
    (wrapped : ∃ last ≤ s.next, Wrapped first origin last s.insert)
    (h : s.Counterpart (fun i => i) s') :
    Finding.Paired (site.Twins origin first) (attempt ((site.expanding false).attach s node).1)
        (attempt ((site.expanding true).attach s' node).1) ∧
      ((site.expanding false).attach s node).2.Counterpart (fun i => i)
        ((site.expanding true).attach s' node).2 := by
  have paths (b : Bool) : (site.expanding b).paths = site.paths := rfl
  have path : site.paths node.symbol s'.insertSymbol = site.paths node.symbol s.insertSymbol := by
    rw [h.insertSymbol]
  rw [attach, attach, paths, paths, path]
  cases site.paths node.symbol s.insertSymbol with
  | none => exact ⟨.discarded, h⟩
  | some path =>
    have queued : s'.frontier ++ (Walk.along node path s.insertSymbol).queued =
        (s.frontier ++ (Walk.along node path s.insertSymbol).queued).map
          (Tree.rename fun i => i) := by
      rw [h.same.1, Tree.map_rename_self]
    have walks : Walk.along node path s'.insertSymbol = Walk.along node path s.insertSymbol := by
      rw [h.insertSymbol]
    simp only [walks]
    cases hout : (Walk.along node path s.insertSymbol).outcome with
    | error e => exact ⟨.discarded, { h with frontier := queued }⟩
    | ok arrival =>
      obtain ⟨below, sibling⟩ := Walk.arrival_along hout
      -- What the walk has queued does not matter for the host at its end.
      have hosted := hostAt_expanding (Tree.mem_preorder_trans below inside)
        (sibling ▸ Host.symbol_sibling) noted h.insertSymbol wrapped h.insert
      exact ⟨hosted, { h with frontier := queued }⟩

theorem produce_expanding (inside : node ∈ site.target.preorder)
    (noted : s.insertSymbol = s.insert.symbol)
    (wrapped : ∃ last ≤ s.next, Wrapped first origin last s.insert)
    (h : s.Counterpart (fun i => i) s') :
    Finding.Paired (site.Twins origin first) (attempt ((site.expanding false).produce s node).1)
        (attempt ((site.expanding true).produce s' node).1) ∧
      ((site.expanding false).produce s node).2.Counterpart (fun i => i)
        ((site.expanding true).produce s' node).2 := by
  rw [produce, produce, h.insertSymbol]
  split
  · rename_i fits
    refine ⟨?_, h⟩
    obtain ⟨last, -, wrapped⟩ := wrapped
    obtain ⟨p, found, exchanged⟩ := exists_exchange_at inside
    obtain ⟨u, hu, replaced⟩ := exchanged s.insert
    obtain ⟨t, ht, replaced'⟩ := exchanged s'.insert
    have shapes := Tree.shape_replaceAt replaced'
    rw [h.insert, Tree.shape_replaceAt replaced] at shapes
    change Finding.Paired _ (attempt ((site.exchange _ _).map some))
      (attempt ((site.exchange _ _).map some))
    rw [hu, ht]
    exact .candidate (.fill inside found (Bool.and_eq_true_iff.1 fits).1 wrapped replaced
      (Except.ok.inj shapes).symm)
  · exact attach_expanding inside noted wrapped h

theorem examine_expanding (inside : node ∈ site.target.preorder)
    (noted : s.insertSymbol = s.insert.symbol)
    (wrapped : ∃ last ≤ s.next, Wrapped first origin last s.insert)
    (h : s.Counterpart (fun i => i) s') :
    Finding.Paired (site.Twins origin first) ((site.expanding false).examine s node).1
        ((site.expanding true).examine s' node).1 ∧
      ((site.expanding false).examine s node).2.Counterpart (fun i => i)
        ((site.expanding true).examine s' node).2 := by
  rw [examine_eq, examine_eq, h.same.2]
  split
  · exact ⟨.idle, h⟩
  · have visited : Search.Counterpart (fun i => i) { s with visited := node.id :: s.visited }
        { s' with visited := node.id :: s.visited } :=
      { h with visited := (List.map_id' _).symm }
    exact produce_expanding inside noted wrapped visited

/-- Wrapping does not depend on the switch. -/
theorem extend_expanding (h : s.Counterpart (fun i => i) s') :
    Finding.Paired (site.Twins origin first) ((site.expanding false).extend s).1
        ((site.expanding true).extend s').1 ∧
      ((site.expanding false).extend s).2.Counterpart (fun i => i)
        ((site.expanding true).extend s').2 := by
  have same (b : Bool) (u : Search) : (site.expanding b).extend u = site.extend u := rfl
  obtain ⟨alike, counterpart⟩ := @extend_counterpart _ site s s' none none h
  rw [rename_self] at alike counterpart
  rw [same, same]
  refine ⟨?_, counterpart⟩
  have barren : (site.extend s).1.tree? = none := by
    rw [extend]
    split <;> rfl
  generalize (site.extend s).1 = x, (site.extend s').1 = y at alike barren ⊢
  cases alike with
  | candidate => simp [Finding.tree?] at barren
  | discarded => exact .discarded
  | idle => exact .idle
  | exhausted => exact .exhausted

/-- One unit of work finds the same under both settings, up to expansions in candidates. -/
theorem step_expanding (within : site.FrontierWithin s)
    (noted : s.insertSymbol = s.insert.symbol)
    (wrapped : ∃ last ≤ s.next, Wrapped first origin last s.insert)
    (h : s.Counterpart (fun i => i) s') :
    Finding.Paired (site.Twins origin first) ((site.expanding false).step s).1
        ((site.expanding true).step s').1 ∧
      ((site.expanding false).step s).2.Counterpart (fun i => i)
        ((site.expanding true).step s').2 := by
  rw [step, step, h.phase, h.same.1]
  cases hp : s.phase with
  | done => exact ⟨.exhausted, h⟩
  | extend => exact extend_expanding h
  | seek =>
    cases hf : s.frontier with
    | nil => exact ⟨.idle, { h with phase := rfl, frontier := rfl }⟩
    | cons node rest =>
      have taken : Search.Counterpart (fun i => i) { s with phase := .seek, frontier := rest }
          { s' with phase := .seek, frontier := rest } :=
        { h with phase := rfl, frontier := (Tree.map_rename_self rest).symm }
      exact examine_expanding (within node (hf ▸ List.mem_cons_self)) noted wrapped taken

end Site

end Scion
