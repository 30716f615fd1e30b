import Scion.Derivation.Fingerprint
import Scion.Derivation.Yield
import Scion.Proofs.Tree.Identity

/-!
Addresses as lenses. What is found at an address can be put back without changing the tree, what is
put there is found again, and of two replacements at one address only the later one counts. Looking
up and replacing fail at the same obstacle, and both failures name the path that was asked for.
Trees are compared node by node: equal trees have the same identities, symbols and open positions.
-/

namespace Scion.Tree

variable {α : Type}

/-! ### Comparing -/

theorem beqAll_iff [BEq α] {cs ds : List (Tree α)}
    (each : ∀ c ∈ cs, ∀ d, c.beq d ↔ c = d) : beqAll cs ds ↔ cs = ds := by
  induction cs generalizing ds with
  | nil => cases ds <;> simp [beqAll]
  | cons c cs ih =>
    cases ds with
    | nil => simp [beqAll]
    | cons d ds =>
      rw [beqAll, Bool.and_eq_true, each c List.mem_cons_self d,
        ih fun c hc => each c (List.mem_cons_of_mem _ hc), List.cons.injEq]

theorem beq_iff [BEq α] [LawfulBEq α] {t u : Tree α} : t.beq u ↔ t = u := by
  induction t using Tree.inductionOn generalizing u with
  | hole a => cases u <;> simp [beq]
  | node a cs ih =>
    cases u with
    | hole b => simp [beq]
    | node b ds =>
      rw [beq, Bool.and_eq_true, beq_iff_eq, beqAll_iff fun c hc d => ih c hc, node.injEq]

instance [BEq α] [LawfulBEq α] : LawfulBEq (Tree α) where
  eq_of_beq h := beq_iff.1 h
  rfl := beq_iff.2 rfl

/-! ### Replacing twice, and by what is there -/

variable {t s x y t' : Tree α} {depth : Nat} {path : List Nat}

theorem replace_by_found (h : t.descend depth path = .ok s) : t.replace depth path s = .ok t := by
  induction path generalizing t depth with
  | nil =>
    cases h
    rfl
  | cons i path ih =>
    obtain ⟨c, hc, hs⟩ := descend_cons_ok.1 h
    refine replace_cons_ok.2 ⟨c, c, hc, ih hs, ?_⟩
    cases t with
    | hole a => simp at hc
    | node a cs =>
      obtain ⟨hi, rfl⟩ := List.getElem?_eq_some_iff.1 hc
      simp

theorem replace_after {u : Tree α} (hx : t.replace depth path x = .ok t')
    (hy : t.replace depth path y = .ok u) : t'.replace depth path y = .ok u := by
  induction path generalizing t depth t' u with
  | nil =>
    cases hy
    rfl
  | cons i path ih =>
    obtain ⟨c, c', hc, first, rfl⟩ := replace_cons_ok.1 hx
    obtain ⟨d, d', hd, second, rfl⟩ := replace_cons_ok.1 hy
    obtain rfl : c = d := Option.some.inj (hc.symm.trans hd)
    obtain ⟨hi, -⟩ := List.getElem?_eq_some_iff.1 hc
    exact replace_cons_ok.2 ⟨c', d', by simp [hi], ih first second, by simp⟩

/-- A replacement inside of the replacement can be made after it. -/
theorem replace_append {u x' : Tree α} {rest : List Nat} (hx : t.replace depth path x = .ok t')
    (inside : x.replace (depth + path.length) rest y = .ok x')
    (hx' : t.replace depth path x' = .ok u) : t'.replace depth (path ++ rest) y = .ok u := by
  induction path generalizing t depth t' u with
  | nil =>
    cases hx
    cases hx'
    exact inside
  | cons i path ih =>
    obtain ⟨c, c', hc, first, rfl⟩ := replace_cons_ok.1 hx
    obtain ⟨d, d', hd, second, rfl⟩ := replace_cons_ok.1 hx'
    obtain rfl : c = d := Option.some.inj (hc.symm.trans hd)
    obtain ⟨hi, -⟩ := List.getElem?_eq_some_iff.1 hc
    rw [List.length_cons, Nat.add_comm path.length, ← Nat.add_assoc] at inside
    exact replace_cons_ok.2 ⟨c', d', by simp [hi], ih first inside second, by simp⟩

/-! ### Laws of addresses -/

theorem subtreeAt_replaceAt {t x t' : DerivationTree} {p : Path} (h : t.replaceAt p x = .ok t') :
    t'.subtreeAt p = .ok x :=
  subtreeAt_eq_ok.2 (descend_of_replace (replaceAt_eq_ok.1 h))

theorem replaceAt_subtreeAt {t s : DerivationTree} {p : Path} (h : t.subtreeAt p = .ok s) :
    t.replaceAt p s = .ok t :=
  replaceAt_eq_ok.2 (replace_by_found (subtreeAt_eq_ok.1 h))

/-- Both functions answer, or the same obstacle stops them. -/
theorem subtreeAt_or_obstacle (t x : DerivationTree) (p : Path) :
    (∃ s t', t.subtreeAt p = .ok s ∧ t.replaceAt p x = .ok t') ∨
      ∃ o : Obstacle Node, t.subtreeAt p = .error (.invalidPath p o.lookupReason) ∧
        t.replaceAt p x = .error (.invalidPath p o.replacementReason) := by
  cases h : t.descend 0 p.toList with
  | ok s =>
    have found : t.subtreeAt p = .ok s := subtreeAt_eq_ok.2 h
    obtain ⟨t', replaced⟩ := exists_replaceAt found x
    exact .inl ⟨s, t', found, replaced⟩
  | error o =>
    have stopped : t.replace 0 p.toList x = .error o := replace_eq_error_iff.2 h
    exact .inr ⟨o, by rw [subtreeAt, h], by rw [replaceAt, stopped]⟩

theorem exists_replaceAt_iff {t x : DerivationTree} {p : Path} :
    (∃ t', t.replaceAt p x = .ok t') ↔ ∃ s, t.subtreeAt p = .ok s := by
  constructor
  · rintro ⟨t', replaced⟩
    obtain ⟨s, -, found, -⟩ | ⟨o, -, stopped⟩ := subtreeAt_or_obstacle t x p
    · exact ⟨s, found⟩
    · simp [stopped] at replaced
  · rintro ⟨s, found⟩
    exact exists_replaceAt found x

/-- Replacing and looking up succeed together, and where they fail they report the path that was
asked for. Otherwise the laws of a lens hold: what was put in is found, putting back what was found
changes nothing, and the later of two replacements is the one that counts. -/
theorem replaceAt_lens (t x y : DerivationTree) (p : Path) :
    (∀ u v : DerivationTree, u == v ↔ u = v) ∧
      ((∃ t', t.replaceAt p x = .ok t') ↔ ∃ s, t.subtreeAt p = .ok s) ∧
      ((¬ ∃ s, t.subtreeAt p = .ok s) → ∃ o : Obstacle Node,
        t.subtreeAt p = .error (.invalidPath p o.lookupReason) ∧
          t.replaceAt p x = .error (.invalidPath p o.replacementReason)) ∧
      (∀ t', t.replaceAt p x = .ok t' →
        t'.subtreeAt p = .ok x ∧ ∃ u, t'.replaceAt p y = .ok u ∧ t.replaceAt p y = .ok u) ∧
      ∀ s, t.subtreeAt p = .ok s → ∃ t', t.replaceAt p s = .ok t' ∧ t' = t ∧
        t'.text = t.text ∧ t'.fingerprint = t.fingerprint := by
  refine ⟨fun u v => beq_iff_eq, exists_replaceAt_iff, fun missing => ?_, fun t' hx => ?_,
    fun s found => ⟨t, replaceAt_subtreeAt found, rfl, rfl, rfl⟩⟩
  · obtain ⟨s, -, found, -⟩ | stopped := subtreeAt_or_obstacle t x p
    · exact absurd ⟨s, found⟩ missing
    · exact stopped
  · obtain ⟨u, hy⟩ : ∃ u, t.replaceAt p y = .ok u :=
      exists_replaceAt_iff.2 (exists_replaceAt_iff.1 ⟨t', hx⟩)
    have later := replace_after (replaceAt_eq_ok.1 hx) (replaceAt_eq_ok.1 hy)
    exact ⟨subtreeAt_replaceAt hx, u, replaceAt_eq_ok.2 later, hy⟩

end Scion.Tree
