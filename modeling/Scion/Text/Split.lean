/-!
Cutting a text at every occurrence of a character.
-/

namespace Scion.Text

/-- The parts between the separators; there is one more part than there are separators. -/
def splitAt (separator : Char) : List Char → List (List Char)
  | [] => [[]]
  | c :: rest =>
    if c = separator then [] :: splitAt separator rest
    else
      match splitAt separator rest with
      | [] => [[c]]
      | part :: more => (c :: part) :: more

theorem splitAt_ne_nil (separator : Char) (cs : List Char) : splitAt separator cs ≠ [] := by
  cases cs with
  | nil => simp [splitAt]
  | cons c rest =>
    rw [splitAt]
    split
    · simp
    · split <;> simp

/-- A separator parts what is cut before it from what is cut after it. -/
theorem splitAt_append_separator (separator : Char) (before after : List Char) :
    splitAt separator (before ++ separator :: after)
      = splitAt separator before ++ splitAt separator after := by
  induction before with
  | nil => simp [splitAt]
  | cons c rest ih =>
    rw [List.cons_append, splitAt, splitAt, ih]
    split
    · simp
    · obtain ⟨part, more, h⟩ := List.exists_cons_of_ne_nil (splitAt_ne_nil separator rest)
      simp [h]

end Scion.Text
