import Mathlib.Algebra.BigOperators.Group.Finset.Basic
import Mathlib.Data.Nat.Find
import Scion.Proofs.Grammar.Parents

/-!
Ways up from a symbol. A way leads from the symbol to one of its possible parents, from there to one
of the parent's, and so on, but not beyond the top. When the ways are tried in the order of their
lengths and only one of those that end with the same step is kept, the ways that remain lead to every
symbol that can be reached, the first time on a shortest way, and there is one for each step.
-/

namespace Scion

theorem rel_of_pairwise {α : Type} {R : α → α → Prop} {as : List α} {a b : α} {i j : Nat}
    (h : as.Pairwise R) (hi : as[i]? = some a) (hj : as[j]? = some b) (hlt : i < j) : R a b := by
  obtain ⟨before, rfl⟩ := List.getElem?_eq_some_iff.1 hi
  obtain ⟨behind, rfl⟩ := List.getElem?_eq_some_iff.1 hj
  exact List.pairwise_iff_getElem.1 h i j before behind hlt

namespace Grammar

variable {g : Grammar} {s parent top start : Symbol} {ways : List (List Symbol)}

/-- The least set with the symbol `start` and, for all of its members but `top`, their possible
parents. -/
inductive Above (g : Grammar) (top start : Symbol) : Symbol → Prop
  | start : Above g top start start
  | parent {s parent : Symbol} : Above g top start s → s ≠ top → parent ∈ g.possibleParents s →
      Above g top start parent

/-- A way up from `start`, which is listed last. All symbols on it but the first one listed differ
from `top`. -/
inductive WayUp (g : Grammar) (top start : Symbol) : List Symbol → Prop
  | start : WayUp g top start [start]
  | parent {s parent : Symbol} {rest : List Symbol} : WayUp g top start (s :: rest) → s ≠ top →
      parent ∈ g.possibleParents s → WayUp g top start (parent :: s :: rest)

theorem above_iff : g.Above top start s ↔ ∃ rest, g.WayUp top start (s :: rest) := by
  constructor
  · intro h
    induction h with
    | start => exact ⟨[], .start⟩
    | parent _ low edge ih =>
      obtain ⟨rest, way⟩ := ih
      exact ⟨_, way.parent low edge⟩
  · rintro ⟨rest, way⟩
    induction rest generalizing s with
    | nil => cases way; exact .start
    | cons t rest ih =>
      cases way with
      | parent way low edge => exact (ih way).parent low edge

/-- The last step of a way up: a symbol and the parent that it is left for. -/
def lastStep? : List Symbol → Option (Symbol × Symbol)
  | parent :: s :: _ => some (s, parent)
  | _ => none

theorem lastStep?_eq_some {way : List Symbol} {s parent : Symbol} :
    lastStep? way = some (s, parent) ↔ ∃ rest, way = parent :: s :: rest := by
  constructor
  · intro h
    match way with
    | p :: t :: rest =>
      obtain ⟨rfl, rfl⟩ := Prod.mk.inj (Option.some.inj h)
      exact ⟨rest, rfl⟩
  · rintro ⟨rest, rfl⟩
    rfl

theorem mem_filterMap_lastStep? :
    (s, parent) ∈ ways.filterMap lastStep? ↔ ∃ rest, parent :: s :: rest ∈ ways := by
  simp only [List.mem_filterMap, lastStep?_eq_some]
  constructor
  · rintro ⟨_, known, rest, rfl⟩
    exact ⟨rest, known⟩
  · rintro ⟨rest, known⟩
    exact ⟨_, known, rest, rfl⟩

/-! ### Ways in the order of their lengths -/

/-- Wherever a way can be continued, another one that is no longer has been continued. -/
def Continued (g : Grammar) (top : Symbol) (ways : List (List Symbol)) (way : List Symbol) : Prop :=
  ∀ s rest, way = s :: rest → s ≠ top → ∀ parent ∈ g.possibleParents s,
    ∃ rest', parent :: s :: rest' ∈ ways ∧ rest'.length ≤ rest.length

theorem Continued.mono {ways' : List (List Symbol)} {way : List Symbol}
    (h : g.Continued top ways way) (sub : ways ⊆ ways') : g.Continued top ways' way := by
  intro s rest hs low parent edge
  obtain ⟨rest', known, shorter⟩ := h s rest hs low parent edge
  exact ⟨rest', sub known, shorter⟩

/-- Ways up in the order of their lengths. No two have the same last step, and all have been
continued. -/
structure Spanned (g : Grammar) (top start : Symbol) (ways : List (List Symbol)) : Prop where
  upward : ∀ way ∈ ways, g.WayUp top start way
  first : ∃ later, ways = [start] :: later ∧ ∀ way ∈ later, (lastStep? way).isSome
  once : (ways.filterMap lastStep?).Nodup
  sorted : ways.Pairwise fun way way' => way.length ≤ way'.length
  continued : ∀ way ∈ ways, g.Continued top ways way

namespace Spanned

theorem exists_shorter (h : g.Spanned top start ways) {rest : List Symbol}
    (way : g.WayUp top start (s :: rest)) :
    ∃ rest', s :: rest' ∈ ways ∧ rest'.length ≤ rest.length := by
  generalize hc : s :: rest = c at way
  induction way generalizing s rest with
  | start =>
    obtain ⟨rfl, rfl⟩ := List.cons.inj hc
    obtain ⟨later, rfl, -⟩ := h.first
    exact ⟨[], List.mem_cons_self, Nat.le_refl _⟩
  | parent _ low edge ih =>
    obtain ⟨rfl, rfl⟩ := List.cons.inj hc
    obtain ⟨below, known, shorter⟩ := ih rfl
    obtain ⟨rest', known', shorter'⟩ := h.continued _ known _ _ rfl low _ edge
    refine ⟨_, known', ?_⟩
    rw [List.length_cons, List.length_cons]
    omega

theorem above_iff_mem (h : g.Spanned top start ways) :
    g.Above top start s ↔ ∃ rest, s :: rest ∈ ways := by
  rw [above_iff]
  constructor
  · rintro ⟨rest, way⟩
    obtain ⟨rest', known, -⟩ := h.exists_shorter way
    exact ⟨rest', known⟩
  · rintro ⟨rest, known⟩
    exact ⟨rest, h.upward _ known⟩

theorem exists_step (h : g.Spanned top start ways) (above : g.Above top start s) (low : s ≠ top)
    (edge : parent ∈ g.possibleParents s) : ∃ rest, parent :: s :: rest ∈ ways := by
  obtain ⟨rest, known⟩ := h.above_iff_mem.1 above
  obtain ⟨rest', known', -⟩ := h.continued _ known s rest rfl low parent edge
  exact ⟨rest', known'⟩

theorem step_upward (h : g.Spanned top start ways) {rest : List Symbol}
    (known : parent :: s :: rest ∈ ways) :
    g.Above top start s ∧ s ≠ top ∧ parent ∈ g.possibleParents s := by
  cases h.upward _ known with
  | parent way low edge => exact ⟨above_iff.2 ⟨rest, way⟩, low, edge⟩

theorem mem_steps (h : g.Spanned top start ways) :
    (s, parent) ∈ ways.filterMap lastStep? ↔
      g.Above top start s ∧ s ≠ top ∧ parent ∈ g.possibleParents s := by
  rw [mem_filterMap_lastStep?]
  constructor
  · rintro ⟨rest, known⟩
    exact h.step_upward known
  · rintro ⟨above, low, edge⟩
    exact h.exists_step above low edge

/-- The ways with a step, counted by the symbol that is left. -/
theorem length_eq (h : g.Spanned top start ways) : ∃ members : Finset Symbol,
    (∀ s, s ∈ members ↔ g.Above top start s) ∧
      ways.length = ∑ s ∈ members.erase top, (g.possibleParents s).length + 1 := by
  have mem_members (s : Symbol) :
      s ∈ (ways.filterMap List.head?).toFinset ↔ g.Above top start s := by
    rw [h.above_iff_mem, List.mem_toFinset, List.mem_filterMap]
    simp only [List.head?_eq_some_iff]
    constructor
    · rintro ⟨_, known, rest, rfl⟩
      exact ⟨rest, known⟩
    · rintro ⟨rest, known⟩
      exact ⟨_, known, rest, rfl⟩
  refine ⟨_, mem_members, ?_⟩
  have below : Set.MapsTo Prod.fst ((ways.filterMap lastStep?).toFinset : Set (Symbol × Symbol))
      ((ways.filterMap List.head?).toFinset.erase top) := by
    rintro ⟨s, parent⟩ hq
    obtain ⟨above, low, -⟩ := h.mem_steps.1 (List.mem_toFinset.1 hq)
    exact Finset.mem_erase.2 ⟨low, (mem_members s).2 above⟩
  have counted : (ways.filterMap lastStep?).length + 1 = ways.length := by
    obtain ⟨later, rfl, steps⟩ := h.first
    rw [List.filterMap_cons_none rfl, List.filterMap_length_eq_length.2 steps, List.length_cons]
  rw [← counted, ← List.toFinset_card_of_nodup h.once, Finset.card_eq_sum_card_fiberwise below]
  congr 1
  refine Finset.sum_congr rfl fun s hs => ?_
  obtain ⟨low, member⟩ := Finset.mem_erase.1 hs
  have above := (mem_members s).1 member
  have fiber : {q ∈ (ways.filterMap lastStep?).toFinset | q.1 = s} =
      (g.possibleParents s).toFinset.image (Prod.mk s) := by
    ext ⟨t, parent⟩
    simp only [Finset.mem_filter, Finset.mem_image, List.mem_toFinset, h.mem_steps]
    grind
  rw [fiber, Finset.card_image_of_injective _ (Prod.mk_right_injective s),
    List.toFinset_card_of_nodup (g.nodup_possibleParents s)]

variable {i j : Nat} {way way' : List Symbol}

theorem length_le (h : g.Spanned top start ways) (hi : ways[i]? = some way)
    (hj : ways[j]? = some way') (hle : i ≤ j) : way.length ≤ way'.length := by
  obtain rfl | hlt := Nat.eq_or_lt_of_le hle
  · obtain rfl := Option.some.inj (hi.symm.trans hj)
    exact Nat.le_refl _
  · have before := rel_of_pairwise h.sorted hi hj hlt
    exact before

theorem eq_of_lastStep? (h : g.Spanned top start ways) {q : Symbol × Symbol}
    (hi : ways[i]? = some way) (hj : ways[j]? = some way') (hq : lastStep? way = some q)
    (hq' : lastStep? way' = some q) : i = j := by
  have once := List.pairwise_filterMap.1 h.once
  obtain hlt | rfl | hlt := Nat.lt_trichotomy i j
  · exact absurd rfl (rel_of_pairwise once hi hj hlt q hq q hq')
  · rfl
  · exact absurd rfl (rel_of_pairwise once hj hi hlt q hq' q hq)

theorem zero (h : g.Spanned top start ways) : ways[0]? = some [start] := by
  obtain ⟨later, rfl, -⟩ := h.first
  rfl

theorem succ (h : g.Spanned top start ways) (hi : ways[i + 1]? = some way) :
    ∃ parent s rest, way = parent :: s :: rest := by
  obtain ⟨later, rfl, steps⟩ := h.first
  obtain ⟨⟨s, parent⟩, hq⟩ := Option.isSome_iff_exists.1 (steps way (List.mem_of_getElem? hi))
  obtain ⟨rest, rfl⟩ := lastStep?_eq_some.1 hq
  exact ⟨parent, s, rest, rfl⟩

/-- The first way to a symbol is a shortest one. -/
theorem exists_first (h : g.Spanned top start ways) (above : g.Above top start s) :
    ∃ (i : Nat) (rest : List Symbol), ways[i]? = some (s :: rest) ∧
      (∀ j < i, ∀ rest', ways[j]? ≠ some (s :: rest')) ∧
      ∀ other, g.WayUp top start (s :: other) → rest.length ≤ other.length := by
  have reached : ∃ i : Nat, ∃ rest, ways[i]? = some (s :: rest) := by
    obtain ⟨rest, known⟩ := h.above_iff_mem.1 above
    obtain ⟨i, hi⟩ := List.mem_iff_getElem?.1 known
    exact ⟨i, rest, hi⟩
  classical
  obtain ⟨rest, hi⟩ := Nat.find_spec reached
  refine ⟨Nat.find reached, rest, hi, fun j hj rest' hj' => Nat.find_min reached hj ⟨rest', hj'⟩,
    fun other way => ?_⟩
  obtain ⟨rest', known, shorter⟩ := h.exists_shorter way
  obtain ⟨j, hj⟩ := List.mem_iff_getElem?.1 known
  have shortest := h.length_le hi hj (Nat.find_min' reached ⟨rest', hj⟩)
  rw [List.length_cons, List.length_cons] at shortest
  omega

end Spanned

end Grammar

end Scion
