import Mathlib.Data.List.TFAE
import Mathlib.Tactic.TFAE
import Scion.Proofs.Graft.Slots

/-!
Which alternative is taken. Every alternative of a nonterminal has a place in the declaration, and
one that is declared twice has two. A shorter alternative is preferred to a longer one, and of two
that are equally long the one at the smaller place. The matching alternatives are listed in this
order, and hosts and wrappers alike realize the first alternative in it that has the slots that they
need.
-/

namespace Scion

namespace Alternatives

/-- An alternative with its place in the declaration is preferred to another one. -/
def Preferred (x y : Alternative × Nat) : Prop :=
  x.1.length < y.1.length ∨ x.1.length = y.1.length ∧ x.2 < y.2

/-- Two different slots, one for each symbol. -/
def SeparateSlots (parent insert : Symbol) (a : Alternative) : Prop :=
  ∃ i j : Nat, i ≠ j ∧ a[i]? = some parent ∧ a[j]? = some insert

/-- The alternatives of a declaration that fit, with their places, in the order of preference. As
none is preferred to itself, each place is listed once. -/
structure Ranking (as : List Alternative) (fits : Alternative → Prop)
    (ranked : List (Alternative × Nat)) : Prop where
  mem_iff : ∀ a n, (a, n) ∈ ranked ↔ as[n]? = some a ∧ fits a
  ordered : ranked.Pairwise Preferred

/-- The alternative at the place `n` fits, and it is preferred to all others that fit. -/
structure Chosen (as : List Alternative) (fits : Alternative → Prop) (a : Alternative) (n : Nat) :
    Prop where
  declared : as[n]? = some a
  fitting : fits a
  first : ∀ b m, as[m]? = some b → fits b → m ≠ n → Preferred (a, n) (b, m)

variable {as : List Alternative} {a : Alternative} {n : Nat} {parent insert : Symbol}
  {x y : Alternative × Nat} {ranked : List (Alternative × Nat)}

theorem Preferred.asymm (h : Preferred x y) : ¬ Preferred y x := by
  unfold Preferred at *
  omega

theorem Preferred.length_le (h : Preferred x y) : x.1.length ≤ y.1.length :=
  h.elim Nat.le_of_lt fun same => Nat.le_of_eq same.1

theorem preferred_of_sooner (shorter : x.1.length ≤ y.1.length) (sooner : x.2 < y.2) :
    Preferred x y :=
  (Nat.lt_or_eq_of_le shorter).imp_right fun same => ⟨same, sooner⟩

/-! ### Slots -/

theorem two_le_count {x : Symbol} {i j : Nat} (hi : a[i]? = some x) (hj : a[j]? = some x)
    (sooner : i < j) : 2 ≤ a.count x := by
  have more := Role.count_take_lt hi sooner
  have last : (a.take j).count x < a.count x := Role.Ranked.lt_count ⟨hj, rfl⟩
  omega

theorem hasSlots_iff : hasSlots parent insert a ↔ SeparateSlots parent insert a := by
  constructor
  · intro room
    obtain ⟨inserted, kept⟩ := room_of_hasSlots room
    obtain ⟨i, hi⟩ := Role.exists_ranked kept
    obtain ⟨j, hj⟩ := Role.exists_ranked (List.count_pos_iff.2 inserted)
    exact ⟨i, j, hi.ne hj fun same => by simp [same], hi.1, hj.1⟩
  · rintro ⟨i, j, apart, hi, hj⟩
    rw [hasSlots]
    split
    · rename_i same
      subst same
      refine decide_eq_true ?_
      obtain sooner | later := Nat.lt_or_gt_of_ne apart
      · exact two_le_count hi hj sooner
      · exact two_le_count hj hi later
    · simp [List.mem_of_getElem? hi, List.mem_of_getElem? hj]

/-! ### The order of preference -/

/-- An alternative that was declared in front of all others finds its position by its length. -/
theorem exists_inserted (ordered : ranked.Pairwise Preferred)
    (sooner : ∀ y ∈ ranked, x.2 < y.2) :
    ∃ ranked' : List (Alternative × Nat),
      insertByLength x.1 (ranked.map Prod.fst) = ranked'.map Prod.fst ∧
        ranked'.Perm (x :: ranked) ∧ ranked'.Pairwise Preferred := by
  induction ranked with
  | nil => exact ⟨[x], rfl, .refl _, List.pairwise_singleton ..⟩
  | cons y rest ih =>
    obtain ⟨front, later⟩ := List.pairwise_cons.1 ordered
    rw [List.map_cons, insertByLength]
    split
    · rename_i shorter
      refine ⟨x :: y :: rest, rfl, .refl _, List.pairwise_cons.2 ⟨fun z hz => ?_, ordered⟩⟩
      refine preferred_of_sooner ?_ (sooner z hz)
      obtain rfl | hz := List.mem_cons.1 hz
      · exact shorter
      · exact Nat.le_trans shorter (front z hz).length_le
    · rename_i longer
      obtain ⟨inserted, listed, perm, sorted⟩ := ih later fun z hz =>
        sooner z (List.mem_cons_of_mem _ hz)
      refine ⟨y :: inserted, congrArg _ listed, (perm.cons y).trans (.swap x y rest),
        List.pairwise_cons.2 ⟨fun z hz => ?_, sorted⟩⟩
      obtain rfl | hz := List.mem_cons.1 (perm.mem_iff.1 hz)
      · exact .inl (Nat.lt_of_not_le longer)
      · exact front z hz

/-- Sorting by length keeps the places of equally long alternatives in order. -/
theorem exists_sorted (fits : Alternative → Bool) (as : List Alternative) (first : Nat) :
    ∃ ranked : List (Alternative × Nat),
      sortByLength (as.filter fits) = ranked.map Prod.fst ∧
        ranked.Perm ((as.zipIdx first).filter fun x => fits x.1) ∧ ranked.Pairwise Preferred := by
  induction as generalizing first with
  | nil => exact ⟨[], rfl, .refl _, .nil⟩
  | cons a as ih =>
    obtain ⟨ranked, listed, perm, ordered⟩ := ih (first + 1)
    rw [List.zipIdx_cons, List.filter_cons, List.filter_cons]
    split
    · have sooner : ∀ y ∈ ranked, first < y.2 := by
        intro y hy
        obtain ⟨placed, -⟩ := List.mem_filter.1 (perm.mem_iff.1 hy)
        exact List.le_snd_of_mem_zipIdx placed
      obtain ⟨ranked', inserted, perm', ordered'⟩ := @exists_inserted (a, first) _ ordered sooner
      exact ⟨ranked', by rw [sortByLength, listed, inserted], perm'.trans (perm.cons _), ordered'⟩
    · exact ⟨ranked, listed, perm, ordered⟩

theorem exists_ranking {fits : Alternative → Bool} {p : Alternative → Prop}
    (fits_iff : ∀ a, fits a ↔ p a) (as : List Alternative) :
    ∃ ranked, Ranking as p ranked ∧ sortByLength (as.filter fits) = ranked.map Prod.fst := by
  obtain ⟨ranked, listed, perm, ordered⟩ := exists_sorted fits as 0
  refine ⟨ranked, ⟨fun a n => ?_, ordered⟩, listed⟩
  rw [perm.mem_iff, List.mem_filter, List.mk_mem_zipIdx_iff_getElem?, fits_iff]

/-! ### The first alternative -/

/-- Scanning for the first of the shortest finds what sorting puts in front. -/
theorem head?_sortByLength (as : List Alternative) : (sortByLength as).head? = shortest? as := by
  induction as with
  | nil => rfl
  | cons a as ih =>
    rw [sortByLength, shortest?, ← ih]
    cases sortByLength as with
    | nil => rfl
    | cons b rest => exact apply_ite List.head? _ _ _

theorem Ranking.head?_eq_some {p : Alternative → Prop} (h : Ranking as p ranked) :
    ranked.head? = some (a, n) ↔ Chosen as p a n := by
  rw [List.head?_eq_some_iff]
  constructor
  · rintro ⟨rest, rfl⟩
    obtain ⟨declared, fitting⟩ := (h.mem_iff a n).1 List.mem_cons_self
    refine ⟨declared, fitting, fun b m known fitting' other => ?_⟩
    have listed := (h.mem_iff b m).2 ⟨known, fitting'⟩
    have behind : (b, m) ∈ rest :=
      List.mem_of_ne_of_mem (fun same => other (congrArg Prod.snd same)) listed
    exact (List.pairwise_cons.1 h.ordered).1 _ behind
  · intro chosen
    have listed := (h.mem_iff a n).2 ⟨chosen.declared, chosen.fitting⟩
    cases ranked with
    | nil => exact absurd listed List.not_mem_nil
    | cons x rest =>
      obtain ⟨b, m⟩ := x
      obtain front | behind := List.mem_cons.1 listed
      · exact ⟨rest, by rw [front]⟩
      · obtain ⟨declared, fitting⟩ := (h.mem_iff b m).1 List.mem_cons_self
        have before := (List.pairwise_cons.1 h.ordered).1 _ behind
        -- the pair in front would be preferred to the chosen one, whether or not it is another one
        by_cases same : m = n
        · subst same
          obtain rfl : b = a := Option.some.inj (declared.symm.trans chosen.declared)
          exact absurd before before.asymm
        · exact absurd before (chosen.first b m declared fitting same).asymm

/-- The scan finds the alternative that is preferred to all others. -/
theorem shortest?_filter {fits : Alternative → Bool} {p : Alternative → Prop}
    (fits_iff : ∀ a, fits a ↔ p a) :
    shortest? (as.filter fits) = some a ↔ ∃ n, Chosen as p a n := by
  obtain ⟨ranked, ranking, listed⟩ := exists_ranking fits_iff as
  rw [← head?_sortByLength, listed, List.head?_map, Option.map_eq_some_iff]
  simp only [Prod.exists, ranking.head?_eq_some, exists_eq_right, exists_comm]

theorem shortest?_eq_none : shortest? as = none ↔ as = [] := by
  constructor
  · intro nothing
    by_contra some
    obtain ⟨a, ha⟩ := exists_shortest? some
    exact Option.some_ne_none a (ha.symm.trans nothing)
  · rintro rfl
    rfl

/-! ### Both choosers -/

variable {g : Grammar}

theorem matching_eq_nil :
    matching g parent insert = [] ↔
      ∀ a ∈ g.alternatives parent, ¬ SeparateSlots parent insert a := by
  simp only [List.eq_nil_iff_forall_not_mem, mem_matching, hasSlots_iff, not_and]

theorem head?_matching :
    (matching g parent insert).head? = some a ↔
      ∃ n, Chosen (g.alternatives parent) (SeparateSlots parent insert) a n := by
  rw [matching, head?_sortByLength, shortest?_filter fun _ => hasSlots_iff]

theorem shortestMatching_eq_ok :
    shortestMatching g parent insert = .ok a ↔ (matching g parent insert).head? = some a := by
  rw [shortestMatching]
  split <;> simp_all

theorem shortestMatching_eq_error :
    shortestMatching g parent insert = .error (.noProduction parent insert) ↔
      matching g parent insert = [] := by
  rw [shortestMatching]
  split <;> simp_all

theorem shortestContaining_eq_ok :
    shortestContaining g parent insert = .ok a ↔
      ∃ n, Chosen (g.alternatives parent) (insert ∈ ·) a n := by
  rw [← shortest?_filter fun _ => List.contains_iff_mem, shortestContaining]
  split <;> simp_all

theorem shortestContaining_eq_error :
    shortestContaining g parent insert = .error (.noProduction parent insert) ↔
      ∀ a ∈ g.alternatives parent, insert ∉ a := by
  have lacking : (∀ a ∈ g.alternatives parent, insert ∉ a) ↔
      shortest? ((g.alternatives parent).filter (·.contains insert)) = none := by
    simp [shortest?_eq_none]
  rw [lacking, shortestContaining]
  split <;> simp_all

end Alternatives

open Alternatives (Chosen Ranking SeparateSlots matching shortestMatching)

/-- The children of a wrapper that realizes an alternative. The inserted tree is in the first slot
with its symbol and in no other one; all other slots have new leaves, closed ones for terminals and
open ones for nonterminals. -/
structure Host.Wraps (a : Alternative) (insert : DerivationTree) (first last : NodeId)
    (l r : List DerivationTree) : Prop where
  spells : (l ++ insert :: r).map Tree.symbol = a
  first_slot : insert.symbol ∉ l.map Tree.symbol
  only_slot : insert.id < first → insert ∉ l ++ r
  leaves : ∀ c ∈ l ++ r, c.Issued first last ∧
    c.shape = if c.symbol.isTerminal then .leaf c.symbol else .hole c.symbol

theorem Host.exists_wraps {g : Grammar} {parent : Symbol} {insert : DerivationTree}
    {a : Alternative} {n : Nat} (chosen : Chosen (g.alternatives parent) (insert.symbol ∈ ·) a n)
    (next : NodeId) :
    ∃ l r last, wrap g parent insert next =
      .ok (.node ⟨last, parent⟩ (l ++ insert :: r), last + 1) ∧ Wraps a insert next last l r := by
  obtain ⟨l, r, last, made, -, spells, first, others⟩ :=
    wrap_eq (Alternatives.shortestContaining_eq_ok.2 ⟨n, chosen⟩) next
  refine ⟨l, r, last, made, spells, first, fun old again => ?_, fun c hc => ?_⟩
  · obtain ⟨since, -⟩ := (others insert again).issued.id
    exact absurd old (Nat.not_lt.2 since)
  · cases others c hc with
    | filler shape issued => exact ⟨issued, shape.trans (by simp [fillerShape])⟩

theorem Host.wrap_eq_error {g : Grammar} {parent : Symbol} {insert : DerivationTree}
    {next : NodeId} {e : GraftError} :
    wrap g parent insert next = .error e ↔
      Alternatives.shortestContaining g parent insert.symbol = .error e := by
  rw [wrap]
  split <;> simp_all

/-- Hosts and wrappers break ties in the same way. The matching alternatives are those with separate
slots for both symbols, the shorter ones first, and equally long ones in the order of their places.
A host realizes the first of them, and a wrapper the one that comes first in this order among all
alternatives with a slot for the inserted tree. If there is no alternative of the kind, and only
then, the production is missing. -/
theorem Grammar.shortest_declared_first (g : Grammar) (parent insert : Symbol) :
    (∃ ranked, Ranking (g.alternatives parent) (SeparateSlots parent insert) ranked ∧
      matching g parent insert = ranked.map Prod.fst) ∧
    (∀ a, List.TFAE [shortestMatching g parent insert = .ok a,
      (matching g parent insert).head? = some a,
      ∃ n, Chosen (g.alternatives parent) (SeparateSlots parent insert) a n]) ∧
    List.TFAE [shortestMatching g parent insert = .error (.noProduction parent insert),
      matching g parent insert = [],
      ∀ a ∈ g.alternatives parent, ¬ SeparateSlots parent insert a] ∧
    ∀ tree : DerivationTree, tree.symbol = insert → ∀ next,
      ((∃ a ∈ g.alternatives parent, insert ∈ a) → ∃ a n l r last,
        Chosen (g.alternatives parent) (insert ∈ ·) a n ∧
        Host.wrap g parent tree next =
          .ok (.node ⟨last, parent⟩ (l ++ tree :: r), last + 1) ∧
        Host.Wraps a tree next last l r) ∧
      (Host.wrap g parent tree next = .error (.noProduction parent insert) ↔
        ∀ a ∈ g.alternatives parent, insert ∉ a) := by
  refine ⟨Alternatives.exists_ranking (fun _ => Alternatives.hasSlots_iff) _, fun a => ?_, ?_, ?_⟩
  · tfae_have 1 ↔ 2 := Alternatives.shortestMatching_eq_ok
    tfae_have 2 ↔ 3 := Alternatives.head?_matching
    tfae_finish
  · tfae_have 1 ↔ 2 := Alternatives.shortestMatching_eq_error
    tfae_have 2 ↔ 3 := Alternatives.matching_eq_nil
    tfae_finish
  · rintro tree rfl next
    refine ⟨?_, Host.wrap_eq_error.trans Alternatives.shortestContaining_eq_error⟩
    rintro ⟨b, known, slot⟩
    obtain ⟨a, ha⟩ := Alternatives.exists_shortestContaining known slot
    obtain ⟨n, chosen⟩ := Alternatives.shortestContaining_eq_ok.1 ha
    obtain ⟨l, r, last, made, wraps⟩ := Host.exists_wraps chosen next
    exact ⟨a, n, l, r, last, chosen, made, wraps⟩

/-! ### Alternatives of one length -/

namespace EvenPairs

def rules : List Rule :=
  [⟨⟨"<list>"⟩, [[⟨"<item>"⟩, ⟨";"⟩, ⟨"<item>"⟩], [⟨"<list>"⟩, ⟨","⟩, ⟨"<item>"⟩],
      [⟨"<item>"⟩, ⟨","⟩, ⟨"<list>"⟩], [⟨"<list>"⟩, ⟨","⟩, ⟨"<item>"⟩]]⟩,
    ⟨⟨"<item>"⟩, [[⟨"x"⟩]]⟩]

def grammar : Grammar := ⟨rules, ParentIndex.ofRules rules, by decide, rfl⟩

def item : DerivationTree := .node ⟨2, ⟨"<item>"⟩⟩ [.leaf ⟨1, ⟨"x"⟩⟩]

/-- All alternatives of a list are equally long, so the first one is realized, although it has two
slots for the inserted tree. -/
theorem shortest_declared_first_even :
    item.symbol = ⟨"<item>"⟩ ∧ (∃ a ∈ grammar.alternatives ⟨"<list>"⟩, ⟨"<item>"⟩ ∈ a) ∧
      Host.wrap grammar ⟨"<list>"⟩ item 3 =
        .ok (.node ⟨5, ⟨"<list>"⟩⟩ [item, .leaf ⟨3, ⟨";"⟩⟩, .hole ⟨4, ⟨"<item>"⟩⟩], 6) ∧
      ∃ a n l r last, Chosen (grammar.alternatives ⟨"<list>"⟩) (⟨"<item>"⟩ ∈ ·) a n ∧
        Host.wrap grammar ⟨"<list>"⟩ item 3 =
          .ok (.node ⟨last, ⟨"<list>"⟩⟩ (l ++ item :: r), last + 1) ∧
        Host.Wraps a item 3 last l r := by
  have slot : ∃ a ∈ grammar.alternatives ⟨"<list>"⟩, ⟨"<item>"⟩ ∈ a := by decide
  obtain ⟨-, -, -, wraps⟩ := Grammar.shortest_declared_first grammar ⟨"<list>"⟩ ⟨"<item>"⟩
  exact ⟨rfl, slot, rfl, (wraps item rfl 3).1 slot⟩

end EvenPairs

end Scion
