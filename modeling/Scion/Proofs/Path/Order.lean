import Mathlib.Logic.ExistsUnique
import Scion.Path

/-!
Document order. Two positions part at the first index in which their paths differ, and the one with
the smaller index is before the other, together with everything below the two. The order of the
paths as lists refines this order: it also puts every position before those below it. So two
positions are comparable, or one is before the other, and only one of these is the case.
-/

namespace Scion.Path

variable {i j : Nat} {p q r : List Nat}

/-! ### Before -/

theorem leftOf_cons_self : leftOf (i :: p) (i :: q) = leftOf p q := by
  simp [leftOf]

theorem leftOf_cons_of_ne (differ : i ≠ j) : leftOf (i :: p) (j :: q) = decide (i < j) := by
  simp [leftOf, differ]

/-- The scan of both paths side by side, which ends at the first difference or with the shorter
path. -/
theorem leftOf_eq_scan (p q : List Nat) :
    leftOf p q = ((p.zip q).find? fun step => step.1 ≠ step.2).any fun step => step.1 < step.2 := by
  induction p generalizing q with
  | nil => rfl
  | cons i p ih =>
    cases q with
    | nil => rfl
    | cons j q =>
      rw [List.zip_cons_cons]
      by_cases same : i = j
      · subst same
        rw [leftOf_cons_self, ih, List.find?_cons_of_neg (by simp)]
      · rw [leftOf_cons_of_ne same, List.find?_cons_of_pos (by simpa using same)]
        rfl

/-- The paths agree down to one node and go on into different children of it. -/
theorem leftOf_iff : leftOf p q ↔
    ∃ above i j below below', i < j ∧ p = above ++ i :: below ∧ q = above ++ j :: below' := by
  constructor
  · intro left
    induction p generalizing q with
    | nil => simp [leftOf] at left
    | cons i p ih =>
      cases q with
      | nil => simp [leftOf] at left
      | cons j q =>
        by_cases same : i = j
        · subst same
          rw [leftOf_cons_self] at left
          obtain ⟨above, k, l, below, below', smaller, rfl, rfl⟩ := ih left
          exact ⟨i :: above, k, l, below, below', smaller, rfl, rfl⟩
        · rw [leftOf_cons_of_ne same, decide_eq_true_iff] at left
          exact ⟨[], i, j, p, q, left, rfl, rfl⟩
  · rintro ⟨above, i, j, below, below', smaller, rfl, rfl⟩
    induction above with
    | nil =>
      rw [List.nil_append, List.nil_append, leftOf_cons_of_ne (Nat.ne_of_lt smaller)]
      exact decide_eq_true smaller
    | cons k above ih =>
      rw [List.cons_append, List.cons_append, leftOf_cons_self]
      exact ih

/-- Continuing the paths does not change where they part. -/
theorem leftOf_append (left : leftOf p q) (p' q' : List Nat) : leftOf (p ++ p') (q ++ q') := by
  obtain ⟨above, i, j, below, below', smaller, rfl, rfl⟩ := leftOf_iff.1 left
  apply leftOf_iff.2
  refine ⟨above, i, j, below ++ p', below' ++ q', smaller, ?_, ?_⟩
  · rw [List.append_assoc, List.cons_append]
  · rw [List.append_assoc, List.cons_append]

theorem leftOf_trans (first : leftOf p q) (second : leftOf q r) : leftOf p r := by
  induction p generalizing q r with
  | nil => simp [leftOf] at first
  | cons i p ih =>
    cases q with
    | nil => simp [leftOf] at first
    | cons j q =>
      cases r with
      | nil => simp [leftOf] at second
      | cons k r =>
        by_cases hij : i = j <;> by_cases hjk : j = k
        · subst hij hjk
          rw [leftOf_cons_self] at first second ⊢
          exact ih first second
        · subst hij
          rwa [leftOf_cons_of_ne hjk] at second ⊢
        · subst hjk
          rwa [leftOf_cons_of_ne hij] at first ⊢
        · rw [leftOf_cons_of_ne hij, decide_eq_true_iff] at first
          rw [leftOf_cons_of_ne hjk, decide_eq_true_iff] at second
          have smaller : i < k := Nat.lt_trans first second
          rw [leftOf_cons_of_ne (Nat.ne_of_lt smaller), decide_eq_true_iff]
          exact smaller

/-- A path that is before another neither continues it nor is continued by it. -/
theorem leftOf_apart (left : leftOf p q) : ¬ p <+: q ∧ ¬ q <+: p ∧ leftOf q p = false := by
  have swapped := leftOf_swap q p
  rw [left, Bool.and_eq_true, Bool.and_eq_true] at swapped
  obtain ⟨⟨backward, below⟩, above⟩ := swapped
  refine ⟨?_, ?_, by simpa using backward⟩
  · simpa [← List.isPrefixOf_iff_prefix] using above
  · simpa [← List.isPrefixOf_iff_prefix] using below

/-! ### The order of the paths as lists -/

theorem compare_cons_self (i : Nat) (p q : List Nat) : compare (i :: p) (i :: q) = compare p q := by
  simp [List.compare_cons_cons]

theorem compare_cons_of_lt (smaller : i < j) (p q : List Nat) :
    compare (i :: p) (j :: q) = .lt := by
  rw [List.compare_cons_cons, Nat.compare_eq_lt.2 smaller]
  rfl

theorem compare_cons_of_gt (greater : j < i) (p q : List Nat) :
    compare (i :: p) (j :: q) = .gt := by
  rw [List.compare_cons_cons, Nat.compare_eq_gt.2 greater]
  rfl

/-- The first of two paths comes first because it is before the other or leads to it. -/
theorem compare_eq_lt_iff : compare p q = .lt ↔ leftOf p q ∨ p <+: q ∧ p ≠ q := by
  induction p generalizing q with
  | nil =>
    cases q with
    | nil => simp [leftOf]
    | cons j q => simp [leftOf, List.compare_nil_cons]
  | cons i p ih =>
    cases q with
    | nil => simp [leftOf, List.compare_cons_nil]
    | cons j q =>
      obtain smaller | same | greater := Nat.lt_trichotomy i j
      · rw [compare_cons_of_lt smaller, leftOf_cons_of_ne (Nat.ne_of_lt smaller)]
        simp [smaller]
      · subst same
        rw [compare_cons_self, leftOf_cons_self, ih, List.cons_prefix_cons]
        simp
      · have differ : i ≠ j := Nat.ne_of_gt greater
        rw [compare_cons_of_gt greater, leftOf_cons_of_ne differ, List.cons_prefix_cons]
        simp [differ, Nat.le_of_lt greater]

/-! ### Positions -/

variable {a b c : Path}

theorem isAncestor_iff : a.isAncestor b ↔ a.toList <+: b.toList :=
  List.isPrefixOf_iff_prefix

/-- How one position can stand to another. -/
inductive Standing where
  | comparable
  | before
  | after
deriving DecidableEq, Repr

def Standing.Holds (a b : Path) : Standing → Prop
  | comparable => a.isAncestor b ∨ b.isAncestor a
  | before => a.isBefore b
  | after => a.isAfter b

theorem isAfter_iff : a.isAfter b ↔ b.isBefore a := by
  rw [isAfter_eq]

/-- Being after excludes the two other standings, so one of the three is left. -/
theorem exists_standing (a b : Path) : ∃ s : Standing, s.Holds a b := by
  by_cases comparable : a.isAncestor b ∨ b.isAncestor a
  · exact ⟨.comparable, comparable⟩
  · by_cases before : a.isBefore b
    · exact ⟨.before, before⟩
    · refine ⟨.after, ?_⟩
      rw [not_or] at comparable
      simp [Standing.Holds, isAfter, before, comparable]

/-- Being before is not changed by going further down from either position. -/
theorem isBefore_mono {a' b' : Path} (ha : a.isAncestor a') (hb : b.isAncestor b')
    (before : a.isBefore b) : a'.isBefore b' := by
  obtain ⟨p, hp⟩ := isAncestor_iff.1 ha
  obtain ⟨q, hq⟩ := isAncestor_iff.1 hb
  have continued := leftOf_append before p q
  rwa [hp, hq] at continued

theorem not_comparable_of_isBefore (before : a.isBefore b) :
    ¬ (a.isAncestor b ∨ b.isAncestor a) := by
  obtain ⟨above, below, -⟩ := leftOf_apart before
  rw [isAncestor_iff, isAncestor_iff, not_or]
  exact ⟨above, below⟩

theorem standing_unique {s s' : Standing} (h : s.Holds a b) (h' : s'.Holds a b) : s = s' := by
  have apart (before : a.isBefore b) : ¬ (a.isAncestor b ∨ b.isAncestor a) ∧ ¬ a.isAfter b := by
    refine ⟨not_comparable_of_isBefore before, ?_⟩
    rw [isAfter_iff, isBefore, (leftOf_apart before).2.2]
    exact Bool.false_ne_true
  have behind (after : a.isAfter b) : ¬ (a.isAncestor b ∨ b.isAncestor a) := by
    rw [or_comm]
    exact not_comparable_of_isBefore (isAfter_iff.1 after)
  cases s with
  | comparable =>
    cases s' with
    | comparable => rfl
    | before => exact absurd h (apart h').1
    | after => exact absurd h (behind h')
  | before =>
    cases s' with
    | comparable => exact absurd h' (apart h).1
    | before => rfl
    | after => exact absurd h' (apart h).2
  | after =>
    cases s' with
    | comparable => exact absurd h' (behind h)
    | before => exact absurd h (apart h').2
    | after => rfl

/-- Any two positions are comparable, or the first is before the second, or it is after it, and only
one of these holds. After is the reverse of before, which is a strict order that the two positions
hand down to everything below them. The order of the paths as lists puts a position before those
that it is before and before those that are properly below it. -/
theorem document_order (a b c : Path) :
    (∃! s : Standing, s.Holds a b) ∧
      (a.isAfter b ↔ b.isBefore a) ∧
      ¬ a.isBefore a ∧
      (a.isBefore b → b.isBefore c → a.isBefore c) ∧
      (compare a b = .lt ↔ a.isBefore b ∨ a.isAncestor b ∧ a ≠ b) ∧
      (∀ a' b' : Path, a.isAncestor a' → b.isAncestor b' → a.isBefore b → a'.isBefore b') ∧
      a.isBefore b = ((a.toList.zip b.toList).find? fun step => step.1 ≠ step.2).any
        fun step => step.1 < step.2 := by
  refine ⟨?_, isAfter_iff, ?_, leftOf_trans, ?_, ?_, leftOf_eq_scan a.toList b.toList⟩
  · obtain ⟨s, hs⟩ := exists_standing a b
    exact ⟨s, hs, fun s' hs' => standing_unique hs' hs⟩
  · rw [isBefore, leftOf_irrefl]
    exact Bool.false_ne_true
  · have lists : a ≠ b ↔ a.toList ≠ b.toList := by
      cases a
      cases b
      simp
    rw [isAncestor_iff, lists]
    exact compare_eq_lt_iff
  · intro a' b' ha hb before
    exact isBefore_mono ha hb before

end Scion.Path
