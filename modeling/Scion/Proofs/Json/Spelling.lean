import Mathlib.Data.List.TakeWhile
import Scion.Json.Token

/-!
The syntax of token lists. A text spells its tokens one after the other, with blanks anywhere between
them; the inside of a string spells code units, directly or by escapes. The scan is held to this
syntax: it accepts the texts that spell tokens and answers with what they spell.
-/

namespace Scion.Json.Token

/-- Words are made of these characters. -/
def isWordChar (c : Char) : Bool := !isSpace c && c != '"' && (punctuation? c).isNone

/-- A word ends in front of a blank, in front of a mark and at the end of the text. -/
def WordEnd (rest : List Char) : Prop := ∀ c ∈ rest.head?, isSpace c ∨ (punctuation? c).isSome

/-- The number that hexadecimal digits spell in continuation of a value. -/
def hex? (value : Nat) : List Char → Option Nat
  | [] => some value
  | c :: digits => (hexValue? c).bind fun d => hex? (value * 16 + d) digits

/-- The code units that the inside of a string spells. -/
inductive Units : List Char → List Nat → Prop
  | nil : Units [] []
  | plain {c : Char} {body : List Char} {units : List Nat} : c ≠ '"' → c ≠ '\\' → 0x20 ≤ c.toNat →
      Units body units → Units (c :: body) (c.toNat :: units)
  | escaped {c : Char} {unit : Nat} {body : List Char} {units : List Nat} :
      escaped? c = some unit → Units body units → Units ('\\' :: c :: body) (unit :: units)
  | hex {digits : List Char} {unit : Nat} {body : List Char} {units : List Nat} :
      digits.length = 4 → hex? 0 digits = some unit → Units body units →
      Units ('\\' :: 'u' :: (digits ++ body)) (unit :: units)

inductive Spelled : List Char → List Token → Prop
  | nil : Spelled [] []
  | space {c : Char} {cs : List Char} {ts : List Token} : isSpace c → Spelled cs ts →
      Spelled (c :: cs) ts
  | mark {c : Char} {t : Token} {cs : List Char} {ts : List Token} : punctuation? c = some t →
      Spelled cs ts → Spelled (c :: cs) (t :: ts)
  | text {body : List Char} {units : List Nat} {s : List Char} {cs : List Char} {ts : List Token} :
      Units body units → joinUnits? units = some s → Spelled cs ts →
      Spelled ('"' :: (body ++ '"' :: cs)) (string (String.ofList s) :: ts)
  | word {w : List Char} {t : Token} {cs : List Char} {ts : List Token} : w ≠ [] →
      (∀ c ∈ w, isWordChar c) → word? w = some t → WordEnd cs → Spelled cs ts →
      Spelled (w ++ cs) (t :: ts)

/-! ### Steps of the scan -/

section Steps

variable {c : Char} {t : Token} {read w digits body rest : List Char} {units us : List Nat}

theorem plain_of_mark (h : punctuation? c = some t) : isSpace c = false ∧ c ≠ '"' := by
  rw [punctuation?] at h
  split_ifs at h with h₁ h₂ h₃ h₄ h₅ h₆ <;> simp [*, isSpace]

theorem scan_mark (h : punctuation? c = some t) :
    scanFrom .between (c :: rest) = (scanFrom .between rest).map (t :: ·) := by
  obtain ⟨space, quote⟩ := plain_of_mark h
  rw [scanFrom, if_neg (by simp [space]), if_neg quote, h]

theorem scan_quote : scanFrom .between ('"' :: rest) = scanFrom (.inString []) rest := rfl

theorem isWordChar_iff :
    isWordChar c ↔ isSpace c = false ∧ c ≠ '"' ∧ punctuation? c = none := by
  simp [isWordChar, and_assoc]

theorem scan_inWord (plain : ∀ c ∈ w, isWordChar c) :
    scanFrom (.inWord read) (w ++ rest) = scanFrom (.inWord (w.reverse ++ read)) rest := by
  induction w generalizing read with
  | nil => rfl
  | cons c w ih =>
    obtain ⟨here, plain⟩ := List.forall_mem_cons.1 plain
    obtain ⟨space, quote, mark⟩ := isWordChar_iff.1 here
    rw [List.cons_append, scanFrom, if_neg (by simp [space]), if_neg quote, mark, ih plain,
      List.reverse_cons, List.append_assoc]
    rfl

theorem scan_wordStart (plain : ∀ c ∈ w, isWordChar c) (nonempty : w ≠ []) :
    scanFrom .between (w ++ rest) = scanFrom (.inWord w.reverse) rest := by
  obtain ⟨c, w, rfl⟩ := List.exists_cons_of_ne_nil nonempty
  obtain ⟨here, plain⟩ := List.forall_mem_cons.1 plain
  obtain ⟨space, quote, mark⟩ := isWordChar_iff.1 here
  rw [List.cons_append, scanFrom, if_neg (by simp [space]), if_neg quote, mark, scan_inWord plain,
    List.reverse_cons]

theorem scan_wordEnd (h : WordEnd rest) :
    scanFrom (.inWord read) rest =
      (word? read.reverse).bind fun t => (scanFrom .between rest).map (t :: ·) := by
  cases rest with
  | nil =>
    rw [scanFrom, scanFrom]
    cases word? read.reverse <;> rfl
  | cons c rest =>
    by_cases space : isSpace c
    · rw [scan_space space, scanFrom, if_pos space]
      rfl
    · obtain ⟨t, mark⟩ := Option.isSome_iff_exists.1 ((h c rfl).resolve_left space)
      rw [scan_mark mark, scanFrom, if_neg space, if_neg (plain_of_mark mark).2, mark]
      simp only [Option.map_map]
      rfl

theorem scan_hex {missing value : Nat} (enough : digits.length = missing + 1) :
    scanFrom (.inUnit (missing + 1) value units) (digits ++ rest) =
      (hex? value digits).bind fun unit => scanFrom (.inString (unit :: units)) rest := by
  induction missing generalizing digits value with
  | zero =>
    obtain ⟨c, rfl⟩ := List.length_eq_one_iff.1 enough
    rw [List.singleton_append, scanFrom, hex?]
    cases hexValue? c <;> rfl
  | succ missing ih =>
    obtain ⟨c, digits, rfl⟩ := List.exists_cons_of_length_eq_add_one enough
    rw [List.cons_append, scanFrom, hex?]
    cases hexValue? c with
    | none => rfl
    | some d => exact ih (Nat.succ.inj enough)

theorem scan_units (h : Units body us) :
    scanFrom (.inString units) (body ++ rest) = scanFrom (.inString (us.reverse ++ units)) rest := by
  induction h generalizing units with
  | nil => rfl
  | plain quote slash printable _ ih =>
    rw [List.cons_append, scanFrom, if_neg quote, if_neg slash, if_neg (by omega), ih]
    simp
  | @escaped c unit body us known _ ih =>
    have other : c ≠ 'u' := by
      rintro rfl
      simp [escaped?] at known
    rw [List.cons_append, List.cons_append, scanFrom, if_neg (by decide), if_pos rfl, scanFrom,
      if_neg other, known]
    simp [ih]
  | hex enough known _ ih =>
    rw [List.cons_append, List.cons_append, scanFrom, if_neg (by decide), if_pos rfl, scanFrom,
      if_pos rfl, List.append_assoc, scan_hex enough, known]
    simp [ih]

theorem scan_closing :
    scanFrom (.inString units) ('"' :: rest) =
      (string? units).bind fun t => (scanFrom .between rest).map (t :: ·) := rfl

end Steps

theorem scan?_of_spelled {cs : List Char} {ts : List Token} (h : Spelled cs ts) :
    scan? cs = some ts := by
  induction h with
  | nil => rfl
  | space blank _ ih => exact (scan_space blank).trans ih
  | mark known _ ih =>
    rw [scan?] at ih ⊢
    rw [scan_mark known, ih]
    rfl
  | text inside joined _ ih =>
    rw [scan?] at ih ⊢
    rw [scan_quote, scan_units inside, scan_closing, ih]
    simp [string?, joined]
  | word nonempty plain known ends _ ih =>
    rw [scan?] at ih ⊢
    rw [scan_wordStart plain nonempty, scan_wordEnd ends, List.reverse_reverse, known, ih]
    rfl

/-! ### What is accepted is spelled -/

theorem exists_hex {cs : List Char} {ts : List Token} {missing value : Nat} {units : List Nat}
    (h : scanFrom (.inUnit (missing + 1) value units) cs = some ts) :
    ∃ digits rest, cs = digits ++ rest ∧ digits.length = missing + 1 := by
  induction missing generalizing cs value with
  | zero =>
    cases cs with
    | nil => simp [scanFrom] at h
    | cons c rest => exact ⟨[c], rest, rfl, rfl⟩
  | succ missing ih =>
    cases cs with
    | nil => simp [scanFrom] at h
    | cons c cs =>
      rw [scanFrom] at h
      cases known : hexValue? c with
      | none => simp [known] at h
      | some d =>
        simp only [known] at h
        obtain ⟨digits, rest, rfl, enough⟩ := ih h
        exact ⟨c :: digits, rest, rfl, by simp [enough]⟩

/-- The inside of a string goes up to the first quote that is not escaped. -/
theorem exists_units {cs : List Char} {ts : List Token} {units : List Nat}
    (h : scanFrom (.inString units) cs = some ts) :
    ∃ body us rest, Units body us ∧ cs = body ++ '"' :: rest := by
  generalize size : cs.length = n
  induction n using Nat.strongRecOn generalizing cs units with
  | ind n ih =>
    cases cs with
    | nil => simp [scanFrom] at h
    | cons c cs =>
      rw [scanFrom] at h
      split_ifs at h with quote slash printable
      · exact ⟨[], [], cs, .nil, by rw [quote]; rfl⟩
      · cases cs with
        | nil => simp [scanFrom] at h
        | cons d cs =>
          rw [scanFrom] at h
          split_ifs at h with unit
          · obtain ⟨digits, rest, rfl, enough⟩ := exists_hex h
            rw [scan_hex enough, Option.bind_eq_some_iff] at h
            obtain ⟨value, known, h⟩ := h
            have shorter : rest.length < n := by
              rw [← size, List.length_cons, List.length_cons, List.length_append]
              omega
            obtain ⟨body, us, rest, inside, rfl⟩ := ih rest.length shorter h rfl
            exact ⟨_, _, rest, .hex enough known inside, by simp [slash, unit]⟩
          · cases known : escaped? d with
            | none => simp [known] at h
            | some value =>
              simp only [known] at h
              have shorter : cs.length < n := by
                rw [← size, List.length_cons, List.length_cons]
                omega
              obtain ⟨body, us, rest, inside, rfl⟩ := ih cs.length shorter h rfl
              exact ⟨_, _, rest, .escaped known inside, by simp [slash]⟩
      · obtain ⟨body, us, rest, inside, rfl⟩ := ih cs.length (by simp [← size]) h rfl
        exact ⟨c :: body, _, rest, .plain quote slash (by omega) inside, rfl⟩

/-- What begins with no blank, quote or mark begins with a word. -/
theorem exists_word {c : Char} {cs : List Char} {ts : List Token} (here : isWordChar c)
    (h : scan? (c :: cs) = some ts) :
    ∃ w rest, c :: cs = w ++ rest ∧ w ≠ [] ∧ (∀ c ∈ w, isWordChar c) ∧ WordEnd rest := by
  have split : c :: cs = (c :: cs).takeWhile isWordChar ++ (c :: cs).dropWhile isWordChar :=
    List.takeWhile_append_dropWhile.symm
  have nonempty : (c :: cs).takeWhile isWordChar ≠ [] := by simp [here]
  have plain : ∀ d ∈ (c :: cs).takeWhile isWordChar, isWordChar d :=
    fun d hd => List.mem_takeWhile_imp hd
  have border := List.head?_dropWhile_not isWordChar (c :: cs)
  generalize (c :: cs).takeWhile isWordChar = w, (c :: cs).dropWhile isWordChar = rest
    at split nonempty plain border
  refine ⟨w, rest, split, nonempty, plain, ?_⟩
  cases rest with
  | nil => simp [WordEnd]
  | cons d rest =>
    rintro _ ⟨⟩
    have other : isSpace d ∨ d = '"' ∨ (punctuation? d).isSome := by
      have border : isWordChar d = false := border
      simp only [isWordChar, Bool.and_eq_false_iff, Bool.not_eq_false', bne_eq_false_iff_eq,
        Option.isNone_eq_false_iff, or_assoc] at border
      exact border
    obtain space | rfl | mark := other
    · exact .inl space
    · rw [split, scan?, scan_wordStart plain nonempty] at h
      simp [scanFrom, isSpace] at h
    · exact .inr mark

theorem spelled_of_scan? {cs : List Char} {ts : List Token} (h : scan? cs = some ts) :
    Spelled cs ts := by
  generalize size : cs.length = n
  induction n using Nat.strongRecOn generalizing cs ts with
  | ind n ih =>
    cases cs with
    | nil =>
      obtain rfl : [] = ts := Option.some.inj h
      exact .nil
    | cons c rest =>
      by_cases space : isSpace c
      · rw [scan?, scan_space space] at h
        exact .space space (ih rest.length (by simp [← size]) h rfl)
      by_cases quote : c = '"'
      · subst quote
        rw [scan?, scan_quote] at h
        obtain ⟨body, units, rest, inside, rfl⟩ := exists_units h
        rw [scan_units inside, scan_closing, Option.bind_eq_some_iff] at h
        obtain ⟨t, closing, after⟩ := h
        obtain ⟨ts, later, rfl⟩ := Option.map_eq_some_iff.1 after
        rw [List.append_nil, string?, List.reverse_reverse] at closing
        obtain ⟨s, joined, rfl⟩ := Option.map_eq_some_iff.1 closing
        exact .text inside joined (ih rest.length (by simp [← size]; omega) later rfl)
      cases mark : punctuation? c with
      | some t =>
        rw [scan?, scan_mark mark] at h
        obtain ⟨ts, later, rfl⟩ := Option.map_eq_some_iff.1 h
        exact .mark mark (ih rest.length (by simp [← size]) later rfl)
      | none =>
        have here : isWordChar c := isWordChar_iff.2 ⟨by simpa using space, quote, mark⟩
        obtain ⟨w, rest, split, nonempty, plain, ends⟩ := exists_word here h
        rw [split] at h size ⊢
        rw [scan?, scan_wordStart plain nonempty, scan_wordEnd ends, Option.bind_eq_some_iff] at h
        obtain ⟨t, known, after⟩ := h
        obtain ⟨ts, later, rfl⟩ := Option.map_eq_some_iff.1 after
        rw [List.reverse_reverse] at known
        have shorter : rest.length < n := by
          have := List.length_pos_iff.2 nonempty
          rw [← size, List.length_append]
          omega
        exact .word nonempty plain known ends (ih rest.length shorter later rfl)

/-- The scan answers with the tokens that a text spells, and refuses every other text. -/
theorem scan?_eq_some_iff {cs : List Char} {ts : List Token} :
    scan? cs = some ts ↔ Spelled cs ts :=
  ⟨spelled_of_scan?, scan?_of_spelled⟩

end Scion.Json.Token
