/-!
Occurrences of one text in another. Cutting a text at the first occurrence of a pattern yields what
stands before it and what stands after it.
-/

namespace Scion.Text

/-- The two sides of the first occurrence; the empty pattern occurs in front of everything. -/
def cut? (pattern : List Char) : List Char → Option (List Char × List Char)
  | [] => if pattern.isEmpty then some ([], []) else none
  | c :: rest =>
    if pattern.isPrefixOf (c :: rest) then some ([], (c :: rest).drop pattern.length)
    else (cut? pattern rest).map fun (before, after) => (c :: before, after)

def occursIn (pattern text : List Char) : Bool := (cut? pattern text).isSome

/-- The two sides and the pattern make up the text. -/
theorem append_of_cut? {pattern text before after : List Char}
    (h : cut? pattern text = some (before, after)) : before ++ pattern ++ after = text := by
  induction text generalizing before with
  | nil =>
    rw [cut?] at h
    split at h <;> simp_all
  | cons c rest ih =>
    rw [cut?] at h
    split at h
    · rename_i hp
      obtain ⟨tail, ht⟩ := List.isPrefixOf_iff_prefix.1 hp
      simp only [Option.some.injEq, Prod.mk.injEq] at h
      obtain ⟨rfl, rfl⟩ := h
      simp [← ht]
    · obtain ⟨⟨b, a⟩, hr, he⟩ := Option.map_eq_some_iff.1 h
      simp only [Prod.mk.injEq] at he
      obtain ⟨rfl, rfl⟩ := he
      simp [← ih hr]

theorem length_le_of_cut? {pattern text before after left right : List Char}
    (h : cut? pattern text = some (before, after)) (occurs : left ++ pattern ++ right = text) :
    before.length ≤ left.length := by
  induction text generalizing before left with
  | nil =>
    rw [cut?] at h
    split at h <;> simp_all
  | cons c rest ih =>
    rw [cut?] at h
    split at h
    · simp only [Option.some.injEq, Prod.mk.injEq] at h
      simp [← h.1]
    · rename_i hp
      obtain ⟨⟨b, a⟩, hr, he⟩ := Option.map_eq_some_iff.1 h
      simp only [Prod.mk.injEq] at he
      obtain ⟨rfl, rfl⟩ := he
      cases left with
      | nil => exact absurd (List.isPrefixOf_iff_prefix.2 ⟨right, occurs⟩) hp
      | cons d left =>
        have := ih hr (List.cons.inj occurs).2
        simpa using this

/-- No occurrence begins further to the left, and none leaves more behind it. -/
theorem around_of_cut? {pattern text before after left right : List Char}
    (h : cut? pattern text = some (before, after)) (occurs : left ++ pattern ++ right = text) :
    before <+: left ∧ right <:+ after := by
  have least := length_le_of_cut? h occurs
  have whole := append_of_cut? h
  have same := congrArg List.length (whole.trans occurs.symm)
  simp only [List.length_append] at same
  constructor
  · have first : before <+: text := ⟨_, (List.append_assoc ..).symm.trans whole⟩
    have other : left <+: text := ⟨_, (List.append_assoc ..).symm.trans occurs⟩
    exact List.prefix_of_prefix_length_le first other least
  · exact List.suffix_of_suffix_length_le ⟨_, occurs⟩ ⟨_, whole⟩ (by omega)

theorem occursIn_iff {pattern text : List Char} : occursIn pattern text ↔ pattern <:+: text := by
  constructor
  · intro h
    obtain ⟨⟨before, after⟩, hc⟩ := Option.isSome_iff_exists.1 h
    exact ⟨before, after, append_of_cut? hc⟩
  · intro h
    rw [occursIn]
    induction text with
    | nil => simp [cut?, List.infix_nil.1 h]
    | cons c rest ih =>
      rw [cut?]
      split
      · rfl
      · rename_i hp
        rw [Option.isSome_map]
        exact ih ((List.infix_cons_iff.1 h).resolve_left (mt List.isPrefixOf_iff_prefix.2 hp))

end Scion.Text
