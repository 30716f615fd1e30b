import Scion.Grammar

/-!
Choosing an alternative. A host keeps its old subtree and takes the inserted one, so its alternative
needs separate slots for both symbols; a wrapper needs a slot for the inserted tree only. Shorter
alternatives win, and among equally long ones the one declared first.
-/

namespace Scion.Alternatives

/-- Room for both symbols at once; one symbol in both parts needs two slots. -/
def hasSlots (parent insert : Symbol) (a : Alternative) : Bool :=
  if parent = insert then 2 ≤ a.count parent else a.contains parent && a.contains insert

/-- Puts an alternative in front of the first one that is at least as long. -/
def insertByLength (a : Alternative) : List Alternative → List Alternative
  | [] => [a]
  | b :: rest => if a.length ≤ b.length then a :: b :: rest else b :: insertByLength a rest

/-- Sorts by length and keeps the order among equals. -/
def sortByLength : List Alternative → List Alternative
  | [] => []
  | a :: rest => insertByLength a (sortByLength rest)

def matching (g : Grammar) (parent insert : Symbol) : List Alternative :=
  sortByLength ((g.alternatives parent).filter (hasSlots parent insert))

def shortestMatching (g : Grammar) (parent insert : Symbol) : Except GraftError Alternative :=
  match matching g parent insert with
  | a :: _ => .ok a
  | [] => .error (.noProduction parent insert)

/-- The first of the shortest alternatives in a list. -/
def shortest? : List Alternative → Option Alternative
  | [] => none
  | a :: rest =>
    match shortest? rest with
    | none => some a
    | some b => if a.length ≤ b.length then some a else some b

def shortestContaining (g : Grammar) (parent insert : Symbol) : Except GraftError Alternative :=
  match shortest? ((g.alternatives parent).filter (·.contains insert)) with
  | some a => .ok a
  | none => .error (.noProduction parent insert)

theorem room_of_hasSlots {parent insert : Symbol} {a : Alternative}
    (h : hasSlots parent insert a) :
    insert ∈ a ∧ (if insert = parent then 1 else 0) < a.count parent := by
  rw [hasSlots] at h
  split at h
  · rename_i same
    have two : 2 ≤ a.count parent := by simpa using h
    exact ⟨same ▸ List.count_pos_iff.1 (by omega), by rw [if_pos same.symm]; omega⟩
  · rename_i differ
    simp only [Bool.and_eq_true, List.contains_iff_mem] at h
    exact ⟨h.2, by rw [if_neg (Ne.symm differ)]; exact List.count_pos_iff.2 h.1⟩

theorem insertByLength_perm (a : Alternative) (as : List Alternative) :
    (insertByLength a as).Perm (a :: as) := by
  induction as with
  | nil => exact .refl _
  | cons b rest ih =>
    rw [insertByLength]
    split
    · exact .refl _
    · exact (ih.cons b).trans (.swap a b rest)

theorem sortByLength_perm (as : List Alternative) : (sortByLength as).Perm as := by
  induction as with
  | nil => exact .refl _
  | cons a rest ih => exact (insertByLength_perm a _).trans (ih.cons a)

theorem mem_matching {g : Grammar} {parent insert : Symbol} {a : Alternative} :
    a ∈ matching g parent insert ↔ a ∈ g.alternatives parent ∧ hasSlots parent insert a := by
  rw [matching, (sortByLength_perm _).mem_iff, List.mem_filter]

theorem shortestMatching_ok {g : Grammar} {parent insert : Symbol} {a : Alternative}
    (h : shortestMatching g parent insert = .ok a) :
    a ∈ g.alternatives parent ∧ hasSlots parent insert a := by
  rw [shortestMatching] at h
  split at h
  · rename_i b rest hm
    obtain rfl : b = a := Except.ok.inj h
    exact mem_matching.1 (hm ▸ List.mem_cons_self)
  · simp at h

theorem shortestMatching_error {g : Grammar} {parent insert : Symbol} {e : GraftError}
    (h : shortestMatching g parent insert = .error e) :
    ∀ a ∈ g.alternatives parent, hasSlots parent insert a = false := by
  rw [shortestMatching] at h
  split at h
  · simp at h
  · rename_i hm
    intro a ha
    refine eq_false_of_ne_true fun hs => ?_
    have := mem_matching.2 ⟨ha, hs⟩
    simp [hm] at this

theorem mem_of_shortest? {as : List Alternative} {a : Alternative} (h : shortest? as = some a) :
    a ∈ as := by
  induction as generalizing a with
  | nil => simp [shortest?] at h
  | cons b rest ih =>
    rw [shortest?] at h
    split at h <;> grind

theorem exists_shortest? {as : List Alternative} (h : as ≠ []) : ∃ a, shortest? as = some a := by
  cases as with
  | nil => exact absurd rfl h
  | cons a rest =>
    rw [shortest?]
    split
    · exact ⟨a, rfl⟩
    · split
      · exact ⟨a, rfl⟩
      · exact ⟨_, rfl⟩

theorem exists_shortestContaining {g : Grammar} {parent insert : Symbol} {a : Alternative}
    (known : a ∈ g.alternatives parent) (slot : insert ∈ a) :
    ∃ b, shortestContaining g parent insert = .ok b := by
  have fitting : (g.alternatives parent).filter (·.contains insert) ≠ [] :=
    List.ne_nil_of_mem (List.mem_filter.2 ⟨known, List.contains_iff_mem.2 slot⟩)
  obtain ⟨b, hb⟩ := exists_shortest? fitting
  exact ⟨b, by rw [shortestContaining, hb]⟩

theorem shortestContaining_ok {g : Grammar} {parent insert : Symbol} {a : Alternative}
    (h : shortestContaining g parent insert = .ok a) :
    a ∈ g.alternatives parent ∧ insert ∈ a := by
  rw [shortestContaining] at h
  split at h
  · rename_i b hb
    obtain rfl : b = a := Except.ok.inj h
    simpa using mem_of_shortest? hb
  · simp at h

end Scion.Alternatives
