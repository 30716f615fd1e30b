import Scion.Text.Ranges

/-!
Blank characters and the words between them.
-/

namespace Scion.Text

/-- The characters that separate words, in every script. -/
def blankRanges : CharRanges :=
  [(0x9, 0xd), (0x20, 0x20), (0x85, 0x85), (0xa0, 0xa0), (0x1680, 0x1680), (0x2000, 0x200a),
   (0x2028, 0x2029), (0x202f, 0x202f), (0x205f, 0x205f), (0x3000, 0x3000)]

def isBlank (c : Char) : Bool := blankRanges.contains c

/-- The maximal runs of characters that are not blank, from left to right. -/
def words : List Char → List (List Char)
  | [] => []
  | c :: rest =>
    if isBlank c then words rest
    else
      match rest with
      | [] => [[c]]
      | d :: _ =>
        if isBlank d then [c] :: words rest
        else
          match words rest with
          | [] => [[c]]
          | word :: more => (c :: word) :: more

/-- The text without the blank characters at its ends. -/
def trim (cs : List Char) : List Char :=
  ((cs.dropWhile isBlank).reverse.dropWhile isBlank).reverse

theorem ne_nil_of_mem_words {cs word : List Char} (h : word ∈ words cs) : word ≠ [] := by
  fun_induction words cs <;> grind

theorem not_blank_of_mem_words {cs word : List Char} (h : word ∈ words cs) :
    ∀ c ∈ word, isBlank c = false := by
  fun_induction words cs generalizing word <;> grind

theorem words_cons_ne_nil {c : Char} (hc : isBlank c = false) (rest : List Char) :
    words (c :: rest) ≠ [] := by
  unfold words
  split
  · simp_all
  · split
    · simp
    · split
      · simp
      · split <;> simp

/-- A blank parts the words before it from those after it. -/
theorem words_append_blank {c : Char} (hc : isBlank c) (before after : List Char) :
    words (before ++ c :: after) = words before ++ words after := by
  induction before with
  | nil => simp [words, hc]
  | cons d before ih =>
    cases hd : isBlank d with
    | true => simpa [words, hd] using ih
    | false =>
      cases before with
      | nil => simp [words, hc, hd]
      | cons e before =>
        cases he : isBlank e with
        | true => simp_all [words]
        | false =>
          obtain ⟨word, more, h⟩ := List.exists_cons_of_ne_nil (words_cons_ne_nil he before)
          rw [h] at ih
          rw [List.cons_append] at ih
          simp only [List.cons_append]
          rw [words.eq_def (d :: e :: (before ++ c :: after)), words.eq_def (d :: e :: before)]
          simp [hd, he, h, ih]

end Scion.Text
