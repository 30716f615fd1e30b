import Mathlib.Data.List.Basic
import Mathlib.Data.List.TakeDrop
import Mathlib.Data.List.TakeWhile
import Scion.Proofs.Toml.Quoted
import Scion.Toml.Document

/-!
Texts made of simple lines. A line that is empty, that names a table or that assigns a string, an
integer or a truth value to a key is read as what it says, whatever lines follow. So a text that is
put together from such lines is read as the statements of its lines.
-/

namespace Scion.Toml

variable {c d : Char} {key text word rest more : List Char} {n fuel : Nat} {v : Value}

theorem span_append {p : Char → Bool} (run : ∀ c ∈ word, p c) (stop : ¬ p d) (rest : List Char) :
    (word ++ d :: rest).span p = (word, d :: rest) := by
  rw [List.span_eq_takeWhile_dropWhile, List.takeWhile_append_of_pos run,
    List.dropWhile_append_of_pos run, List.takeWhile_cons_of_neg stop,
    List.dropWhile_cons_of_neg stop, List.append_nil]

/-! ### Numbers and truth values -/

namespace Scalar

theorem digits?_of_isDigit (digits : ∀ c ∈ word, c.isDigit) (b : Bool) :
    digits? Char.isDigit b word = if b || !word.isEmpty then some word else none := by
  induction word generalizing b with
  | nil => simp [digits?]
  | cons c word ih =>
    obtain ⟨hc, later⟩ := List.forall_mem_cons.1 digits
    simp [digits?, hc, ih later]

theorem head?_toDigits (positive : 0 < n) : (Nat.toDigits 10 n).head? ≠ some '0' := by
  induction n using Nat.strongRecOn with
  | ind n ih =>
    by_cases small : n < 10
    · have digits : ∀ n : Fin 10, 0 < n.val → n.val.digitChar ≠ '0' := by decide
      rw [Nat.toDigits_of_lt_base small]
      simpa using digits ⟨n, small⟩ positive
    · have higher : 0 < n / 10 := by omega
      rw [Nat.toDigits_of_base_le (by decide) (by omega),
        List.head?_append_of_ne_nil _ Nat.toDigits_ne_nil]
      exact ih (n / 10) (by omega) higher

theorem isDigit_of_mem (h : c ∈ Nat.toDigits 10 n) : c.isDigit :=
  Nat.isDigit_of_mem_toDigits (by decide) (by decide) h

theorem whole?_toDigits (n : Nat) : whole? (Nat.toDigits 10 n) = some (Nat.toDigits 10 n) := by
  have all : digits? Char.isDigit false (Nat.toDigits 10 n) = some (Nat.toDigits 10 n) := by
    rw [digits?_of_isDigit fun c hc => isDigit_of_mem hc]
    simp [Nat.toDigits_ne_nil]
  rw [whole?, all]
  split
  · rename_i zeros
    rw [Option.some.injEq] at zeros
    by_cases positive : 0 < n
    · exact absurd (by rw [zeros]; rfl) (head?_toDigits positive)
    · obtain rfl : n = 0 := by omega
      rw [Nat.toDigits_zero] at zeros
      cases zeros
  · rfl

theorem value_toDigits (n : Nat) : value 10 (Nat.toDigits 10 n) = n := by
  have read : value 10 (Nat.toDigits 10 n) = Nat.ofDigitChars 10 (Nat.toDigits 10 n) 0 := by
    rw [value, Nat.ofDigitChars_eq_foldl]
    refine List.foldl_ext _ _ 0 fun m c hc => ?_
    rw [digitValue, if_pos (isDigit_of_mem hc), Nat.mul_comm]
  rw [read, Nat.ofDigitChars_ten_toDigits]

theorem inRange_of_lt (small : n < integerLimit) : inRange n := by
  unfold inRange
  generalize integerLimit = limit at small
  simp only [Bool.and_eq_true, decide_eq_true_eq]
  omega

/-- Digits without a sign, with any check of the range. -/
theorem whole?_checked {inBounds : Int → Bool} (range : inBounds n) (digits : whole? word = some word)
    (hn : value 10 word = n) :
    (do
      let ds ← whole? word
      let m : Int := if false then -(value 10 ds : Int) else value 10 ds
      if inBounds m then some m else none) = some (n : Int) := by
  simp [digits, hn, range]

theorem sign_of_isDigit (digits : ∀ c ∈ word, c.isDigit) : sign word = (false, word) := by
  unfold sign
  split
  · exact absurd (digits '-' List.mem_cons_self) (by decide)
  · exact absurd (digits '+' List.mem_cons_self) (by decide)
  · rfl

/-- A decimal numeral is read as its number, when that is not too great. -/
theorem integer?_toDigits (small : n < integerLimit) :
    integer? (Nat.toDigits 10 n) = some (n : Int) := by
  have digits : ∀ c ∈ Nat.toDigits 10 n, c.isDigit := fun c hc => isDigit_of_mem hc
  have letter {c : Char} (hc : ¬ c.isDigit) (rest : List Char) :
      Nat.toDigits 10 n = '0' :: c :: rest → False := by
    intro same
    exact hc (digits c (by rw [same]; simp))
  rw [integer?]
  · rw [sign_of_isDigit digits]
    exact whole?_checked (inRange_of_lt small) (whole?_toDigits n) (value_toDigits n)
  · exact letter (by decide)
  · exact letter (by decide)
  · exact letter (by decide)

theorem isWordChar_of_isDigit (h : c.isDigit) : isWordChar c := by
  simp [isWordChar, Char.isAlphanum, h]

theorem word_append (run : ∀ c ∈ word, isWordChar c) (rest : List Char) :
    Scalar.word (word ++ '\n' :: rest) = (word, '\n' :: rest) := by
  unfold Scalar.word
  rw [span_append run (by decide)]
  dsimp only
  split
  · rename_i blank
    cases blank
  · rfl

/-- A word that ends with its line has the value that it has by itself. -/
theorem read?_word (run : ∀ c ∈ word, isWordChar c) (hv : ofWord? word = some v)
    (rest : List Char) : read? (word ++ '\n' :: rest) = some (v, '\n' :: rest) := by
  rw [read?, word_append run]
  simp [hv]

theorem ofWord?_toDigits (small : n < integerLimit) :
    ofWord? (Nat.toDigits 10 n) = some (.integer n) := by
  have digits : ∀ c ∈ Nat.toDigits 10 n, c.isDigit := fun c hc => isDigit_of_mem hc
  have other {text : String} (letter : ∃ c ∈ text.toList, ¬ c.isDigit) :
      Nat.toDigits 10 n ≠ text.toList := by
    intro same
    obtain ⟨c, hc, letter⟩ := letter
    exact letter (digits c (same ▸ hc))
  rw [ofWord?, if_neg (other ⟨'t', by decide, by decide⟩),
    if_neg (other ⟨'f', by decide, by decide⟩), integer?_toDigits small]

end Scalar

namespace Statement

/-! ### Values on a line -/

/-- A text that is read as a value when it ends with its line. -/
structure Denotes (text : List Char) (v : Value) : Prop where
  solid : ∃ c more, text = c :: more ∧ c ≠ ' ' ∧ c ≠ '\t'
  read : ∀ fuel rest, value? (fuel + 1) (text ++ '\n' :: rest) = some (v, '\n' :: rest)

theorem denotes_write (cs : List Char) :
    Denotes (Quoted.write cs) (.string (String.ofList cs)) := by
  obtain ⟨q, more, begins, quote⟩ := (Quoted.written_write cs).exists_cons
  constructor
  · refine ⟨q, more, begins, ?_⟩
    obtain rfl | rfl := quote <;> decide
  · intro fuel rest
    have read := Quoted.read?_write cs rest
    rw [begins, List.cons_append] at read ⊢
    obtain rfl | rfl := quote
    · rw [value?, read]
      rfl
    · rw [value?, read]
      rfl

theorem denotes_word (run : ∀ c ∈ word, Scalar.isWordChar c) (hv : Scalar.ofWord? word = some v)
    (nonempty : word ≠ []) : Denotes word v := by
  obtain ⟨c, more, rfl⟩ := List.exists_cons_of_ne_nil nonempty
  have hc := run c List.mem_cons_self
  have solid {d : Char} (hd : ¬ Scalar.isWordChar d) : c ≠ d := fun same => hd (same ▸ hc)
  constructor
  · exact ⟨c, more, rfl, solid (by decide), solid (by decide)⟩
  · intro fuel rest
    rw [← Scalar.read?_word run hv rest, List.cons_append, value?]
    · exact fun _ same => solid (d := '[') (by decide) (List.cons.inj same).1
    · exact fun _ same => solid (d := '\x7b') (by decide) (List.cons.inj same).1
    · exact fun _ same => solid (d := '"') (by decide) (List.cons.inj same).1
    · exact fun _ same => solid (d := '\'') (by decide) (List.cons.inj same).1

/-! ### Lines -/

/-- A key that needs no quotes. -/
def IsBare (key : List Char) : Prop := key ≠ [] ∧ ∀ c ∈ key, isBareKeyChar c

instance : Decidable (IsBare key) :=
  decidable_of_iff (key ≠ [] ∧ key.all isBareKeyChar) (and_congr_right' List.all_eq_true)

theorem skipBlanks_of_ne (noSpace : c ≠ ' ') (noTab : c ≠ '\t') (rest : List Char) :
    skipBlanks (c :: rest) = c :: rest := by
  simp [skipBlanks, noSpace, noTab]

theorem IsBare.exists_cons (h : IsBare key) : ∃ c more, key = c :: more ∧ isBareKeyChar c := by
  obtain ⟨c, more, rfl⟩ := List.exists_cons_of_ne_nil h.1
  exact ⟨c, more, rfl, h.2 c List.mem_cons_self⟩

theorem ne_of_bare (h : isBareKeyChar c) (hd : ¬ isBareKeyChar d) : c ≠ d :=
  fun same => hd (same ▸ h)

theorem IsBare.skipBlanks (h : IsBare key) (rest : List Char) :
    skipBlanks (key ++ rest) = key ++ rest := by
  obtain ⟨c, more, rfl, hc⟩ := h.exists_cons
  exact skipBlanks_of_ne (ne_of_bare hc (by decide)) (ne_of_bare hc (by decide)) _

/-- A bare key that no dot follows. -/
theorem dottedKey?_bare (h : IsBare key) (stop : ¬ isBareKeyChar d)
    (next : Statement.skipBlanks (d :: rest) = c :: more) (noDot : c ≠ '.') :
    dottedKey? (fuel + 1) (key ++ d :: rest) = some ([String.ofList key], c :: more) := by
  have simple : simpleKey? (key ++ d :: rest) = some (String.ofList key, d :: rest) := by
    obtain ⟨e, tail, rfl, -⟩ := h.exists_cons
    rw [simpleKey?, span_append h.2 stop]
  simp only [dottedKey?, h.skipBlanks, simple, Option.bind_eq_bind, Option.bind_some]
  rw [next]
  split
  · rename_i same
    exact absurd (List.cons.inj same).1 noDot
  · rfl

theorem header?_bare (h : IsBare key) (rest : List Char) :
    header? (key ++ ']' :: rest) = some (.header [String.ofList key], rest) := by
  have read (fuel : Nat) : dottedKey? (fuel + 1) (key ++ ']' :: rest) =
      some ([String.ofList key], ']' :: rest) :=
    dottedKey?_bare h (by decide) rfl (by decide)
  obtain ⟨c, more, rfl, hc⟩ := h.exists_cons
  rw [List.cons_append] at read ⊢
  rw [header?]
  · simp only [Nat.succ_eq_add_one, read]
    rfl
  · exact fun _ same => ne_of_bare hc (by decide) (List.cons.inj same).1

theorem assignment?_bare (h : IsBare key) (hv : Denotes text v) (rest : List Char) :
    assignment? (key ++ ' ' :: '=' :: ' ' :: (text ++ '\n' :: rest)) =
      some (.assignment [String.ofList key] v, '\n' :: rest) := by
  have read (fuel : Nat) : dottedKey? (fuel + 1)
      (key ++ ' ' :: '=' :: ' ' :: (text ++ '\n' :: rest)) =
        some ([String.ofList key], '=' :: ' ' :: (text ++ '\n' :: rest)) :=
    dottedKey?_bare h (by decide) rfl (by decide)
  have value := hv.read
  obtain ⟨c, more, rfl, noSpace, noTab⟩ := hv.solid
  have skipped : skipBlanks (' ' :: (c :: more ++ '\n' :: rest)) = c :: more ++ '\n' :: rest :=
    skipBlanks_of_ne noSpace noTab (more ++ '\n' :: rest)
  simp only [assignment?, Nat.succ_eq_add_one, read, Option.bind_eq_bind, Option.bind_some,
    skipped, value]
  rfl

/-- The line that assigns a value to a key. -/
def assignmentLine (key : String) (text : List Char) : List Char :=
  key.toList ++ ' ' :: '=' :: ' ' :: (text ++ ['\n'])

def headerLine (key : String) : List Char := '[' :: (key.toList ++ [']', '\n'])

/-- Lines that say one thing or nothing. -/
inductive Line : List Char → Option Statement → Prop
  | blank : Line ['\n'] none
  | header {key : String} : IsBare key.toList → Line (headerLine key) (some (.header [key]))
  | assignment {key : String} {text : List Char} {v : Value} :
      IsBare key.toList → Denotes text v →
        Line (assignmentLine key text) (some (.assignment [key] v))

variable {line : List Char} {s? : Option Statement}

theorem Line.ne_nil (h : Line line s?) : line ≠ [] := by
  cases h <;> simp [assignmentLine, headerLine]

theorem Line.read (h : Line line s?) (rest : List Char) :
    line? (line ++ rest) = some (s?, rest) := by
  cases h with
  | blank => rfl
  | @header key hk =>
    have read := header?_bare hk ('\n' :: rest)
    have begins : skipBlanks ('[' :: (key.toList ++ ']' :: '\n' :: rest)) =
      '[' :: (key.toList ++ ']' :: '\n' :: rest) := rfl
    rw [String.ofList_toList] at read
    simp only [headerLine, List.cons_append, List.append_assoc, List.nil_append, line?, begins,
      read]
    rfl
  | @assignment key text v hk hv =>
    have read := assignment?_bare hk hv rest
    have begins := hk.skipBlanks (' ' :: '=' :: ' ' :: (text ++ '\n' :: rest))
    obtain ⟨c, more, split, hc⟩ := hk.exists_cons
    have other {d : Char} (hd : ¬ isBareKeyChar d) : c ≠ d := ne_of_bare hc hd
    rw [String.ofList_toList] at read
    simp only [assignmentLine, split, List.cons_append, List.append_assoc, List.nil_append]
      at read begins ⊢
    rw [line?, begins]
    split
    case h_6 =>
      rw [read]
      rfl
    · cases ‹c :: _ = []›
    all_goals exact absurd (List.cons.inj ‹_›).1 (other (by decide))

/-- A text of such lines is read line by line. -/
theorem lines?_flatMap {lines : List (List Char × Option Statement)}
    (h : ∀ l ∈ lines, Line l.1 l.2) (enough : (lines.flatMap Prod.fst).length ≤ fuel) :
    lines? fuel (lines.flatMap Prod.fst) = some (lines.flatMap fun l => l.2.toList) := by
  induction lines generalizing fuel with
  | nil => cases fuel <;> rfl
  | cons l lines ih =>
    obtain ⟨first, later⟩ := List.forall_mem_cons.1 h
    have read := first.read (lines.flatMap Prod.fst)
    obtain ⟨c, cs, text⟩ := List.exists_cons_of_ne_nil first.ne_nil
    rw [List.flatMap_cons] at enough ⊢
    rw [text, List.cons_append] at read enough ⊢
    rw [List.length_cons, List.length_append] at enough
    obtain ⟨fuel, rfl⟩ := Nat.exists_eq_add_one_of_ne_zero (n := fuel) (by omega)
    rw [lines?, read]
    · have more : lines? fuel (lines.flatMap Prod.fst) = _ := ih later (by omega)
      simp [more]
    · exact List.cons_ne_nil _ _

end Statement

/-- A text of simple lines says what its lines say, one after the other. -/
theorem parse?_lines {lines : List (List Char × Option Statement)}
    (h : ∀ l ∈ lines, Statement.Line l.1 l.2) {text : String}
    (ht : text.toList = lines.flatMap Prod.fst) (noMark : text.toList.head? ≠ some '\ufeff') :
    parse? text = (Document.carryOutAll {} (lines.flatMap fun l => l.2.toList)).map
      Document.entries := by
  have read := Statement.lines?_flatMap h (Nat.le_refl _)
  rw [← ht] at read
  simp only [parse?]
  split
  · rename_i same
    rw [same] at noMark
    exact absurd rfl noMark
  · simp only [read, Option.bind_eq_bind, Option.bind_some]
    cases Document.carryOutAll {} (lines.flatMap fun l => l.2.toList) <;> rfl

end Scion.Toml
