import Mathlib.Data.List.Forall2
import Scion.Graft.Host
import Scion.Proofs.Tree.Identity

/-!
What a new node holds. Every slot of the chosen alternative is filled according to its role, and
the trees made for it take fresh identities before the node itself does. A host has the inserted
tree and the old subtree in two different slots; a wrapper has the inserted tree in one slot and
freshly made leaves in the others.
-/

namespace Scion

theorem getElem?_of_forall₂ {α β : Type} {R : α → β → Prop} {as : List α} {bs : List β} {i : Nat}
    {a : α} (h : List.Forall₂ R as bs) (hi : as[i]? = some a) : ∃ b, bs[i]? = some b ∧ R a b := by
  obtain ⟨inside, rfl⟩ := List.getElem?_eq_some_iff.1 hi
  have inside' : i < bs.length := h.length_eq ▸ inside
  exact ⟨bs[i], List.getElem?_eq_getElem inside', h.get inside inside'⟩

namespace Role

/-- The symbol of the slot that gets the role. -/
def symbol (insert host : Symbol) : Role → Symbol
  | .insert => insert
  | .host => host
  | copy sibling => sibling.symbol
  | filler s => s

theorem map_symbol_assign {insert host : Symbol} (w : Waiting) (a : Alternative)
    (sibling : ∀ t ∈ w.sibling?, t.symbol = insert) :
    (assign insert host w a).map (symbol insert host) = a := by
  induction a generalizing w with
  | nil => rfl
  | cons s rest ih =>
    rw [assign]
    split
    · rename_i hs
      rw [List.map_cons, ih { w with insert := false } sibling, symbol,
        beq_iff_eq.1 (Bool.and_eq_true_iff.1 hs).2]
    · split
      · rename_i hs
        rw [List.map_cons, ih { w with host := false } sibling, symbol,
          beq_iff_eq.1 (Bool.and_eq_true_iff.1 hs).2]
      · split
        · rename_i t ht
          split
          · rename_i hs
            rw [List.map_cons, ih { w with sibling? := none } (by simp), symbol, sibling t ht, hs]
          · rw [List.map_cons, ih w sibling, symbol]
        · rw [List.map_cons, ih w sibling, symbol]

theorem insert_mem_assign {insert host : Symbol} {w : Waiting} {a : Alternative}
    (waits : w.insert) (slot : insert ∈ a) : .insert ∈ assign insert host w a := by
  induction a generalizing w with
  | nil => simp at slot
  | cons s rest ih =>
    rw [assign]
    grind

/-- The old subtree gets a slot when one is left beside that of the inserted tree. -/
theorem host_mem_assign {insert host : Symbol} {w : Waiting} {a : Alternative} (waits : w.host)
    (slot : (if w.insert ∧ insert = host then 1 else 0) < a.count host) :
    .host ∈ assign insert host w a := by
  induction a generalizing w with
  | nil => simp at slot
  | cons s rest ih =>
    rw [List.count_cons] at slot
    rw [assign]
    grind

/-- In an alternative with slots for both trees, they get different ones. -/
theorem exists_assigned {insert host : Symbol} {a : Alternative}
    (slots : Alternatives.hasSlots host insert a) (sibling? : Option DerivationTree) :
    ∃ i j : Nat, i ≠ j ∧ (assign insert host ⟨true, true, sibling?⟩ a)[i]? = some .host ∧
      (assign insert host ⟨true, true, sibling?⟩ a)[j]? = some .insert := by
  have room := Alternatives.room_of_hasSlots slots
  have inserted : .insert ∈ assign insert host ⟨true, true, sibling?⟩ a :=
    insert_mem_assign rfl room.1
  have kept : .host ∈ assign insert host ⟨true, true, sibling?⟩ a :=
    host_mem_assign rfl (by simpa using room.2)
  obtain ⟨j, hj⟩ := List.mem_iff_getElem?.1 inserted
  obtain ⟨i, hi⟩ := List.mem_iff_getElem?.1 kept
  refine ⟨i, j, ?_, hi, hj⟩
  rintro rfl
  simp [hi] at hj

theorem copy_mem_assign {insert host : Symbol} {w : Waiting} {a : Alternative}
    {sibling : DerivationTree} (h : .copy sibling ∈ assign insert host w a) :
    sibling ∈ w.sibling? := by
  induction a generalizing w with
  | nil => simp [assign] at h
  | cons s rest ih =>
    rw [assign] at h
    grind

theorem assign_filler {insert host : Symbol} (a : Alternative) :
    assign insert host ⟨false, false, none⟩ a = a.map filler := by
  induction a with
  | nil => rfl
  | cons s rest ih => simp [assign, ih]

/-- The inserted tree takes the first slot with its symbol. -/
theorem assign_insert {insert host : Symbol} {a : Alternative} (slot : insert ∈ a) :
    ∃ l r, a = l ++ insert :: r ∧ insert ∉ l ∧
      assign insert host ⟨true, false, none⟩ a = l.map filler ++ .insert :: r.map filler := by
  induction a with
  | nil => simp at slot
  | cons s rest ih =>
    by_cases hs : s = insert
    · exact ⟨[], rest, by simp [hs], List.not_mem_nil, by simp [assign, hs, assign_filler]⟩
    · obtain ⟨l, r, rfl, hl, hr⟩ := ih (List.mem_of_ne_of_mem (Ne.symm hs) slot)
      exact ⟨s :: l, r, rfl, by simp [Ne.symm hs, hl], by simp [assign, hs, hr]⟩

/-- What a slot holds, by its role. Trees that were made for it carry identities issued from `first`
on and before `last`. -/
inductive Holds (g : Grammar) (expandTrivial : Bool) (insert host : DerivationTree)
    (first last : NodeId) : Role → DerivationTree → Prop
  | insert : Holds g expandTrivial insert host first last .insert insert
  | host : Holds g expandTrivial insert host first last .host host
  | copy {sibling t : DerivationTree} : t.shape = sibling.shape → t.Issued first last →
      Holds g expandTrivial insert host first last (.copy sibling) t
  | filler {s : Symbol} {t : DerivationTree} : t.shape = Host.fillerShape g expandTrivial s →
      t.Issued first last → Holds g expandTrivial insert host first last (.filler s) t

variable {g : Grammar} {expandTrivial : Bool} {insert host t : DerivationTree} {role : Role}

theorem Holds.mono {first last first' last' : NodeId}
    (h : Holds g expandTrivial insert host first last role t) (hf : first' ≤ first)
    (hl : last ≤ last') : Holds g expandTrivial insert host first' last' role t := by
  cases h with
  | insert => exact .insert
  | host => exact .host
  | copy shape issued => exact .copy shape (issued.mono hf hl)
  | filler shape issued => exact .filler shape (issued.mono hf hl)

theorem label_fillerShape (s : Symbol) : (Host.fillerShape g expandTrivial s).label = s := by
  unfold Host.fillerShape
  split
  · rfl
  · split
    · split <;> rfl
    · rfl

theorem Holds.isLeaf {first last : NodeId} {s : Symbol}
    (h : Holds g false insert host first last (.filler s) t) : t.isLeaf := by
  cases h with
  | filler shape =>
    have bare : (Host.fillerShape g false s).children = [] := by
      unfold Host.fillerShape
      split <;> rfl
    rw [← shape, Tree.children_shape, List.map_eq_nil_iff] at bare
    simp [Tree.isLeaf, bare]

theorem Holds.issued {first last : NodeId} {s : Symbol}
    (h : Holds g expandTrivial insert host first last (.filler s) t) : t.Issued first last := by
  cases h
  assumption

theorem Holds.symbol_eq {first last : NodeId}
    (h : Holds g expandTrivial insert host first last role t) :
    t.symbol = role.symbol insert.symbol host.symbol := by
  cases h with
  | insert => rfl
  | host => rfl
  | copy shape => rw [← Tree.label_shape, shape, Tree.label_shape]; rfl
  | filler shape => rw [← Tree.label_shape, shape, label_fillerShape]; rfl

end Role

namespace Host

open Role (Holds)

variable {g : Grammar} {expandTrivial : Bool} {insert host : DerivationTree}

theorem fill_holds (roles : List Role) (next : NodeId) :
    next ≤ (fill g expandTrivial insert host roles next).2 ∧
      List.Forall₂
        (Holds g expandTrivial insert host next (fill g expandTrivial insert host roles next).2)
        roles (fill g expandTrivial insert host roles next).1 := by
  induction roles generalizing next with
  | nil => exact ⟨Nat.le_refl _, .nil⟩
  | cons role rest ih =>
    have prepend {mid : NodeId} {child : DerivationTree} (hm : next ≤ mid)
        (hc : Holds g expandTrivial insert host next mid role child) :
        next ≤ (fill g expandTrivial insert host rest mid).2 ∧
          List.Forall₂
            (Holds g expandTrivial insert host next (fill g expandTrivial insert host rest mid).2)
            (role :: rest) (child :: (fill g expandTrivial insert host rest mid).1) := by
      obtain ⟨hl, hrest⟩ := ih mid
      exact ⟨Nat.le_trans hm hl, .cons (hc.mono (Nat.le_refl _) hl)
        (hrest.imp fun _ _ h => h.mono hm (Nat.le_refl _))⟩
    have fresh (q : ParseTree) : next ≤ (q.instantiate next).2 := by
      rw [Tree.instantiate_next]
      exact Nat.le_add_right ..
    cases role with
    | insert => exact prepend (Nat.le_refl _) .insert
    | host => exact prepend (Nat.le_refl _) .host
    | copy sibling =>
      exact prepend (fresh _) (.copy (Tree.shape_instantiate ..) (Tree.issued_instantiate _ _))
    | filler s =>
      exact prepend (fresh _) (.filler (Tree.shape_instantiate ..) (Tree.issued_instantiate _ _))

theorem map_symbol_of_holds {first last : NodeId} {roles : List Role} {cs : List DerivationTree}
    (h : List.Forall₂ (Holds g expandTrivial insert host first last) roles cs) :
    cs.map Tree.symbol = roles.map (Role.symbol insert.symbol host.symbol) := by
  induction h with
  | nil => rfl
  | cons hc _ ih => rw [List.map_cons, List.map_cons, ih, hc.symbol_eq]

theorem symbol_sibling {ts : List DerivationTree} {s : Symbol} :
    ∀ c ∈ ts.find? fun c => c.symbol = s, c.symbol = s := by
  intro c hc
  have found := List.find?_some hc
  exact of_decide_eq_true found

theorem le_build_next (a : Alternative) (sibling? : Option DerivationTree) (next : NodeId) :
    next ≤ (build g expandTrivial a host insert sibling? next).2 :=
  Nat.le_succ_of_le (fill_holds _ next).1

/-- The children of a host fill the roles of its alternative and spell it; its own identity comes
last. -/
theorem build_eq (a : Alternative) (next : NodeId) {sibling? : Option DerivationTree}
    (sibling : ∀ c ∈ sibling?, c.symbol = insert.symbol) :
    ∃ cs last, build g expandTrivial a host insert sibling? next =
        (.node ⟨last, host.symbol⟩ cs, last + 1) ∧ next ≤ last ∧ cs.map Tree.symbol = a ∧
      List.Forall₂ (Holds g expandTrivial insert host next last)
        (Role.assign insert.symbol host.symbol ⟨true, true, sibling?⟩ a) cs := by
  obtain ⟨hl, hcs⟩ := @fill_holds g expandTrivial insert host
    (Role.assign insert.symbol host.symbol ⟨true, true, sibling?⟩ a) next
  refine ⟨_, _, rfl, hl, ?_, hcs⟩
  rw [map_symbol_of_holds hcs, Role.map_symbol_assign _ _ sibling]

theorem exists_role {R : Role → DerivationTree → Prop} {roles : List Role}
    {cs : List DerivationTree} (h : List.Forall₂ R roles cs) :
    ∀ c ∈ cs, ∃ role ∈ roles, R role c := by
  induction h with
  | nil => simp
  | cons hc _ ih => grind

theorem getElem?_of_host {first last : NodeId} {roles : List Role} {cs : List DerivationTree}
    {i : Nat} (h : List.Forall₂ (Holds g expandTrivial insert host first last) roles cs)
    (hi : roles[i]? = some .host) : cs[i]? = some host := by
  obtain ⟨c, hc, held⟩ := getElem?_of_forall₂ h hi
  cases held
  exact hc

theorem getElem?_of_insert {first last : NodeId} {roles : List Role} {cs : List DerivationTree}
    {i : Nat} (h : List.Forall₂ (Holds g expandTrivial insert host first last) roles cs)
    (hi : roles[i]? = some .insert) : cs[i]? = some insert := by
  obtain ⟨c, hc, held⟩ := getElem?_of_forall₂ h hi
  cases held
  exact hc

theorem exists_slots {first last : NodeId} {a : Alternative} {sibling? : Option DerivationTree}
    {cs : List DerivationTree} (slots : Alternatives.hasSlots host.symbol insert.symbol a)
    (h : List.Forall₂ (Holds g expandTrivial insert host first last)
      (Role.assign insert.symbol host.symbol ⟨true, true, sibling?⟩ a) cs) :
    ∃ i j : Nat, i ≠ j ∧ cs[i]? = some host ∧ cs[j]? = some insert := by
  obtain ⟨i, j, apart, hi, hj⟩ := Role.exists_assigned slots sibling?
  exact ⟨i, j, apart, getElem?_of_host h hi, getElem?_of_insert h hj⟩

theorem holds_filler {first last : NodeId} {left : Alternative} {cs : List DerivationTree}
    (h : List.Forall₂ (Holds g expandTrivial insert host first last) (left.map .filler) cs) :
    cs.map Tree.symbol = left ∧
      ∀ c ∈ cs, Holds g expandTrivial insert host first last (.filler c.symbol) c := by
  induction left generalizing cs with
  | nil => cases h; simp
  | cons s left ih =>
    cases h with
    | @cons _ c _ _ hc hcs =>
      obtain ⟨symbols, others⟩ := ih hcs
      have symbol : c.symbol = s := hc.symbol_eq
      exact ⟨by rw [List.map_cons, symbol, symbols],
        List.forall_mem_cons.2 ⟨symbol.symm ▸ hc, others⟩⟩

theorem holds_wrapper {first last : NodeId} {left right : Alternative} {cs : List DerivationTree}
    (h : List.Forall₂ (Holds g expandTrivial insert host first last)
      (left.map .filler ++ .insert :: right.map .filler) cs) :
    ∃ l r, cs = l ++ insert :: r ∧ l.map Tree.symbol = left ∧ r.map Tree.symbol = right ∧
      ∀ c ∈ l ++ r, Holds g expandTrivial insert host first last (.filler c.symbol) c := by
  induction left generalizing cs with
  | nil =>
    cases h with
    | cons hc hcs =>
      cases hc
      obtain ⟨symbols, others⟩ := holds_filler hcs
      exact ⟨[], _, rfl, rfl, symbols, others⟩
  | cons s left ih =>
    cases h with
    | @cons _ c _ _ hc hcs =>
      obtain ⟨l, r, rfl, hl, hr, others⟩ := ih hcs
      have symbol : c.symbol = s := hc.symbol_eq
      exact ⟨c :: l, r, rfl, by rw [List.map_cons, symbol, hl], hr,
        List.forall_mem_cons.2 ⟨symbol.symm ▸ hc, others⟩⟩

/-- A wrapper realizes the alternative that is chosen for it: the inserted tree is in the first slot
with its symbol, and the other slots are filled anew. -/
theorem wrap_eq {parent : Symbol} {a : Alternative}
    (chosen : Alternatives.shortestContaining g parent insert.symbol = .ok a) (next : NodeId) :
    ∃ l r last, wrap g parent insert next =
        .ok (.node ⟨last, parent⟩ (l ++ insert :: r), last + 1) ∧ next ≤ last ∧
      (l ++ insert :: r).map Tree.symbol = a ∧ insert.symbol ∉ l.map Tree.symbol ∧
      ∀ c ∈ l ++ r, Holds g false insert insert next last (.filler c.symbol) c := by
  obtain ⟨-, slot⟩ := Alternatives.shortestContaining_ok chosen
  obtain ⟨left, right, rfl, first, roles⟩ := @Role.assign_insert _ parent _ slot
  obtain ⟨hl, hcs⟩ := @fill_holds g false insert insert
    (left.map .filler ++ .insert :: right.map .filler) next
  obtain ⟨l, r, filled, rfl, rfl, others⟩ := holds_wrapper hcs
  refine ⟨l, r, _, ?_, hl, List.map_append, first, others⟩
  rw [wrap, chosen, ← filled, ← roles]

theorem wrap_ok {parent : Symbol} {next : NodeId} {made : DerivationTree × NodeId}
    (h : wrap g parent insert next = .ok made) :
    ∃ l r last, made = (.node ⟨last, parent⟩ (l ++ insert :: r), last + 1) ∧ next ≤ last ∧
      (l ++ insert :: r).map Tree.symbol ∈ g.alternatives parent ∧
      ∀ c ∈ l ++ r, Holds g false insert insert next last (.filler c.symbol) c := by
  cases chosen : Alternatives.shortestContaining g parent insert.symbol with
  | error e => simp [wrap, chosen] at h
  | ok a =>
    obtain ⟨l, r, last, made_eq, hl, spells, -, others⟩ := wrap_eq chosen next
    obtain ⟨known, -⟩ := Alternatives.shortestContaining_ok chosen
    exact ⟨l, r, last, Except.ok.inj (h.symm.trans made_eq), hl, spells ▸ known, others⟩

end Host

end Scion
