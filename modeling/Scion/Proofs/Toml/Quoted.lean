import Mathlib.Data.List.Basic
import Scion.Toml.Quoted

/-!
Strings that are written and read again. Each of the four forms is read back as the text that was
written in it, whatever comes on the next line: between double quotes because every character is read
as it is spelled, between single quotes because the form is only chosen for characters that may stand
there. Between tripled quotes the reader counts the quotes that it has just met, as the writer does.
-/

namespace Scion.Toml.Quoted

variable {c q : Char} {cs text tail rest : List Char} {n : Nat}

/-! ### Characters -/

theorem hexValue?_upperHexDigit (small : n < 16) : hexValue? (upperHexDigit n) = some n := by
  have digits : ∀ n : Fin 16, hexValue? (upperHexDigit n) = some n.val := by decide
  exact digits ⟨n, small⟩

theorem scalar?_toNat (c : Char) : scalar? c.toNat = some c := by
  have valid : c.toNat.isValidChar := c.valid
  rw [scalar?, if_pos valid]
  exact congrArg some c.ofNat_toNat

theorem isPlain_of_not_control (printable : ¬ (c.toNat < 0x20 ∨ c.toNat = 0x7f)) : isPlain c := by
  rw [not_or, Nat.not_lt] at printable
  simp [isPlain, printable]

/-- A character stands between double quotes as it is, as a letter behind a backslash or by its
code. -/
inductive Spelled (c : Char) : List Char → Prop
  | plain : c ≠ '"' → c ≠ '\\' → isPlain c → Spelled c [c]
  | marked {e : Char} : escaped? e = some c → Spelled c ['\\', e]
  | coded {d e : Char} {high low : Nat} : hexValue? d = some high → hexValue? e = some low →
      scalar? (high * 16 + low) = some c → Spelled c ['\\', 'u', '0', '0', d, e]

theorem spelled_escape (c : Char) : Spelled c (escape c) := by
  unfold escape
  split_ifs with backspace tab line feed carriage self control
  · exact .marked (backspace ▸ rfl)
  · exact .marked (tab ▸ rfl)
  · exact .marked (line ▸ rfl)
  · exact .marked (feed ▸ rfl)
  · exact .marked (carriage ▸ rfl)
  · simp only [Bool.or_eq_true, decide_eq_true_eq] at self
    exact .marked (by obtain rfl | rfl := self <;> rfl)
  · simp only [Bool.or_eq_true, decide_eq_true_eq] at control
    have high : c.toNat / 16 < 16 := by omega
    have low : c.toNat % 16 < 16 := Nat.mod_lt _ (by decide)
    refine .coded (hexValue?_upperHexDigit high) (hexValue?_upperHexDigit low) ?_
    rw [Nat.div_add_mod']
    exact scalar?_toNat c
  · simp only [Bool.or_eq_true, decide_eq_true_eq] at self control
    rw [not_or] at self
    exact .plain self.1 self.2 (isPlain_of_not_control control)

theorem Spelled.exists_cons (h : Spelled c text) :
    ∃ d more, text = d :: more ∧ d ≠ '"' ∧ isPlain d := by
  cases h with
  | plain noQuote _ plain => exact ⟨c, [], rfl, noQuote, plain⟩
  | marked _ => exact ⟨'\\', _, rfl, by decide, by decide⟩
  | coded _ _ _ => exact ⟨'\\', _, rfl, by decide, by decide⟩

/-- The letters of escapes differ from those that begin a code and from blanks. -/
theorem letter_of_escaped? {e : Char} (h : escaped? e = some c) :
    (e ≠ 'u' ∧ e ≠ 'U') ∧ e ≠ ' ' ∧ e ≠ '\t' ∧ e ≠ '\r' ∧ e ≠ '\n' := by
  refine ⟨⟨?_, ?_⟩, ?_, ?_, ?_, ?_⟩ <;> rintro rfl <;> simp [escaped?] at h

/-! ### Between double quotes -/

theorem basic_spelled (h : Spelled c text) (tail : List Char) :
    basic .plain (text ++ tail) = prepend c (basic .plain tail) := by
  cases h with
  | plain noQuote noBackslash plain => simp [basic, noQuote, noBackslash, plain]
  | marked he => simp [basic, letter_of_escaped? he, he]
  | coded hd he hc =>
    have zero : hexValue? '0' = some 0 := by decide
    simp [basic, zero, hd, he, hc]

theorem basic_escape (cs rest : List Char) :
    basic .plain (cs.flatMap escape ++ '"' :: rest) = some (cs, rest) := by
  induction cs with
  | nil => rfl
  | cons c cs ih =>
    rw [List.flatMap_cons, List.append_assoc, basic_spelled (spelled_escape c), ih]
    rfl

/-- A text between double quotes that is not empty does not look like one between tripled quotes. -/
theorem read?_of_ne {d : Char} (noQuote : d ≠ '"') (more : List Char) :
    read? ('"' :: d :: more) = basic .plain (d :: more) := by
  unfold read?
  split
  · rename_i same
    exact absurd (List.cons.inj (List.cons.inj same).2).1 noQuote
  · rename_i same
    rw [(List.cons.inj same).2]
  · rename_i other
    cases other
  · rename_i other
    cases other
  · rename_i _ other _ _
    exact absurd rfl (other (d :: more))

theorem read?_basic (cs rest : List Char) :
    read? ('"' :: cs.flatMap escape ++ ['"'] ++ '\n' :: rest) = some (cs, '\n' :: rest) := by
  have closed := basic_escape cs ('\n' :: rest)
  rw [List.cons_append, List.cons_append, List.append_assoc, List.singleton_append]
  cases cs with
  | nil => rfl
  | cons c cs =>
    obtain ⟨d, more, first, noQuote, -⟩ := (spelled_escape c).exists_cons
    rw [List.flatMap_cons, first, List.cons_append, List.cons_append] at closed ⊢
    rw [read?_of_ne noQuote, closed]

/-! ### Between single quotes -/

theorem literal_append (plain : ∀ c ∈ cs, isPlain c) (noQuote : '\'' ∉ cs) (rest : List Char) :
    literal (cs ++ '\'' :: rest) = some (cs, rest) := by
  induction cs with
  | nil => rfl
  | cons c cs ih =>
    obtain ⟨hc, later⟩ := List.forall_mem_cons.1 plain
    rw [List.mem_cons, not_or] at noQuote
    rw [List.cons_append, literal, if_neg (Ne.symm noQuote.1), if_pos hc, ih later noQuote.2]
    rfl

theorem read?_literal (plain : ∀ c ∈ cs, isPlain c) (noQuote : '\'' ∉ cs) (rest : List Char) :
    read? ('\'' :: cs ++ ['\''] ++ '\n' :: rest) = some (cs, '\n' :: rest) := by
  have closed := literal_append plain noQuote ('\n' :: rest)
  rw [List.cons_append, List.cons_append, List.append_assoc, List.singleton_append]
  cases cs with
  | nil => rfl
  | cons c cs =>
    rw [List.mem_cons, not_or] at noQuote
    rw [List.cons_append] at closed ⊢
    unfold read?
    split
    · rename_i other
      cases other
    · rename_i other
      cases other
    · rename_i same
      exact absurd (List.cons.inj (List.cons.inj same).2).1.symm noQuote.1
    · rename_i same
      rw [← (List.cons.inj same).2, closed]
    · rename_i other
      exact absurd rfl (other (c :: (cs ++ '\'' :: '\n' :: rest)))

/-! ### Between tripled double quotes -/

theorem multilineBasic_spelled (h : Spelled c text) (few : n ≤ 2) (tail : List Char) :
    multilineBasic n .plain (text ++ tail) =
      prependAll (List.replicate n '"') (prepend c (multilineBasic 0 .plain tail)) := by
  have notClosed : ¬ 3 ≤ n := by omega
  cases h with
  | plain noQuote noBackslash plain => simp [multilineBasic, noQuote, noBackslash, plain, notClosed]
  | marked he => simp [multilineBasic, letter_of_escaped? he, he, notClosed]
  | coded hd he hc =>
    have zero : hexValue? '0' = some 0 := by decide
    simp [multilineBasic, zero, hd, he, hc, notClosed]

theorem multilineBasic_quote (few : n ≤ 2) (tail : List Char) :
    multilineBasic n .plain ('"' :: tail) = multilineBasic (n + 1) .plain tail := by
  rw [multilineBasic, if_pos rfl, if_neg (by omega)]

theorem multilineBasic_break (few : n ≤ 2) (tail : List Char) :
    multilineBasic n .plain ('\n' :: tail) =
      prependAll (List.replicate n '"') (prepend '\n' (multilineBasic 0 .plain tail)) := by
  have notClosed : ¬ 3 ≤ n := by omega
  simp [multilineBasic, notClosed]

/-- The quotes that were read last are those that were written last. -/
theorem multilineBasic_escape (cs rest : List Char) (few : n ≤ 2) :
    multilineBasic n .plain (escapeMultiline n cs ++ (tripled '"' ++ '\n' :: rest)) =
      some (List.replicate n '"' ++ cs, '\n' :: rest) := by
  induction cs generalizing n with
  | nil =>
    match n, few with
    | 0, _ => rfl
    | 1, _ => rfl
    | 2, _ => rfl
  | cons c cs ih =>
    have fresh := ih (n := 0) (Nat.zero_le _)
    rw [escapeMultiline]
    split_ifs with line quote room
    · rw [line, List.cons_append, multilineBasic_break few, fresh]
      rfl
    · rw [quote, List.cons_append, multilineBasic_quote few, ih room, List.replicate_succ',
        List.append_assoc]
      rfl
    · have spelled : Spelled '"' ['\\', '"'] := .marked rfl
      have read := multilineBasic_spelled spelled few
        (escapeMultiline 0 cs ++ (tripled '"' ++ '\n' :: rest))
      rw [fresh] at read
      rw [quote]
      exact read
    · rw [List.append_assoc, multilineBasic_spelled (spelled_escape c) few, fresh]
      rfl

/-! ### Between tripled single quotes -/

theorem le_longestRun (q : Char) (n : Nat) (cs : List Char) : n ≤ longestRun q n cs := by
  induction cs generalizing n with
  | nil => exact Nat.le_refl n
  | cons c cs ih =>
    rw [longestRun]
    split
    · exact Nat.le_of_succ_le (ih (n + 1))
    · exact Nat.le_max_left _ _

theorem not_mem_of_longestRun (none : longestRun q n cs = 0) : q ∉ cs := by
  induction cs generalizing n with
  | nil => exact List.not_mem_nil
  | cons c cs ih =>
    rw [longestRun] at none
    split at none
    · have := le_longestRun q (n + 1) cs
      omega
    · rename_i differ
      rw [List.mem_cons, not_or]
      exact ⟨Ne.symm differ, ih (Nat.max_eq_zero_iff.1 none).2⟩

/-- The quotes that were read last belong to a run of quotes in the text. -/
theorem multilineLiteral_append (plain : ∀ c ∈ cs, c = '\n' ∨ isPlain c)
    (runs : longestRun '\'' n cs ≤ 2) (rest : List Char) :
    multilineLiteral n (cs ++ (tripled '\'' ++ '\n' :: rest)) =
      some (List.replicate n '\'' ++ cs, '\n' :: rest) := by
  have few : n ≤ 2 := Nat.le_trans (le_longestRun '\'' n cs) runs
  induction cs generalizing n with
  | nil =>
    match n, few with
    | 0, _ => rfl
    | 1, _ => rfl
    | 2, _ => rfl
  | cons c cs ih =>
    obtain ⟨hc, later⟩ := List.forall_mem_cons.1 plain
    rw [longestRun] at runs
    rw [List.cons_append, multilineLiteral]
    by_cases quote : c = '\''
    · rw [if_pos quote] at runs
      have more : n + 1 ≤ 2 := Nat.le_trans (le_longestRun '\'' (n + 1) cs) runs
      rw [if_pos quote, if_neg (by omega), ih later runs more, List.replicate_succ',
        List.append_assoc, quote]
      rfl
    · rw [if_neg quote] at runs
      have shown : (decide (c = '\n') || isPlain c) = true := by simpa using hc
      have fresh := ih later (Nat.le_trans (Nat.le_max_right _ _) runs) (Nat.zero_le _)
      rw [if_neg quote, if_neg (by omega), if_pos shown, fresh]
      rfl

/-! ### Any text -/

/-- Without control characters a text consists of plain characters and line breaks. -/
theorem isPlain_of_not_hasControl (printable : hasControl cs = false) :
    ∀ c ∈ cs, c = '\n' ∨ isPlain c := by
  intro c hc
  have here := List.any_eq_false.1 printable c hc
  by_cases tab : c = '\t'
  · exact .inr (tab ▸ rfl)
  · by_cases line : c = '\n'
    · exact .inl line
    · refine .inr (isPlain_of_not_control ?_)
      simpa [tab, line] using here

/-- A line break behind the opening quotes is put there when the text has one; otherwise the text
does not begin with one. -/
theorem skipBreak_multiline {body : List Char} (solid : '\n' ∉ cs → lineBreak? body = none) :
    skipBreak ((if cs.contains '\n' then ['\n'] else []) ++ body) = body := by
  split
  · rfl
  · rename_i noBreak
    have starts := solid (by simpa using noBreak)
    rw [List.nil_append, skipBreak, starts]
    rfl

theorem lineBreak?_of_isPlain (plain : isPlain c) (more : List Char) :
    lineBreak? (c :: more) = none := by
  unfold lineBreak?
  split
  · rename_i same
    rw [(List.cons.inj same).1] at plain
    exact absurd plain (by decide)
  · rename_i same
    rw [(List.cons.inj same).1] at plain
    exact absurd plain (by decide)
  · rfl

theorem multiline_append (delimiter body cs tail : List Char) :
    multiline delimiter body cs ++ tail =
      delimiter ++ ((if cs.contains '\n' then ['\n'] else []) ++ (body ++ (delimiter ++ tail))) := by
  simp only [multiline, List.append_assoc]

theorem read?_multilineBasic (cs rest : List Char) :
    read? (multiline (tripled '"') (escapeMultiline 0 cs) cs ++ '\n' :: rest) =
      some (cs, '\n' :: rest) := by
  have solid : '\n' ∉ cs → lineBreak? (escapeMultiline 0 cs ++ (tripled '"' ++ '\n' :: rest)) =
      none := by
    intro noBreak
    cases cs with
    | nil => rfl
    | cons c cs =>
      rw [List.mem_cons, not_or] at noBreak
      rw [escapeMultiline, if_neg (Ne.symm noBreak.1)]
      split
      · rename_i quote
        rw [quote]
        rfl
      · obtain ⟨d, more, first, -, plain⟩ := (spelled_escape c).exists_cons
        rw [first]
        exact lineBreak?_of_isPlain plain _
  rw [multiline_append, tripled, List.cons_append, List.cons_append, List.cons_append,
    List.nil_append, read?]
  exact (congrArg _ (skipBreak_multiline solid)).trans (multilineBasic_escape cs rest (Nat.zero_le 2))

theorem read?_multilineLiteral (plain : ∀ c ∈ cs, c = '\n' ∨ isPlain c)
    (runs : longestRun '\'' 0 cs ≤ 2) (rest : List Char) :
    read? (multiline (tripled '\'') cs cs ++ '\n' :: rest) = some (cs, '\n' :: rest) := by
  have solid : '\n' ∉ cs → lineBreak? (cs ++ (tripled '\'' ++ '\n' :: rest)) = none := by
    intro noBreak
    cases cs with
    | nil => rfl
    | cons c cs =>
      rw [List.mem_cons, not_or] at noBreak
      have hc := (plain c List.mem_cons_self).resolve_left (Ne.symm noBreak.1)
      exact lineBreak?_of_isPlain hc _
  rw [multiline_append, tripled, List.cons_append, List.cons_append, List.cons_append,
    List.nil_append, read?]
  exact (congrArg _ (skipBreak_multiline solid)).trans (multilineLiteral_append plain runs rest)

/-- The forms in which a text is written, with what the choice of a form says about the text. -/
inductive Written (cs : List Char) : List Char → Prop
  | basic : Written cs ('"' :: cs.flatMap escape ++ ['"'])
  | literal : (∀ c ∈ cs, isPlain c) → '\'' ∉ cs → Written cs ('\'' :: cs ++ ['\''])
  | multilineBasic : Written cs (multiline (tripled '"') (escapeMultiline 0 cs) cs)
  | multilineLiteral : (∀ c ∈ cs, c = '\n' ∨ isPlain c) → longestRun '\'' 0 cs ≤ 2 →
      Written cs (multiline (tripled '\'') cs cs)

theorem written_write (cs : List Char) : Written cs (write cs) := by
  simp only [write]
  split_ifs with bare single double triple broken
  · exact .basic
  · simp only [Bool.and_eq_true, Bool.not_eq_true', decide_eq_true_eq] at single
    obtain ⟨⟨printable, none⟩, noBreak⟩ := single
    refine .literal (fun c hc => ?_) (not_mem_of_longestRun none)
    refine (isPlain_of_not_hasControl printable c hc).resolve_left ?_
    rintro rfl
    rw [List.contains_iff_mem.2 hc] at noBreak
    cases noBreak
  · exact .multilineBasic
  · simp only [Bool.and_eq_true, Bool.not_eq_true', decide_eq_true_eq] at triple
    exact .multilineLiteral (isPlain_of_not_hasControl triple.1) triple.2
  · exact .multilineBasic
  · exact .basic

theorem Written.exists_cons (h : Written cs text) :
    ∃ q more, text = q :: more ∧ (q = '"' ∨ q = '\'') := by
  cases h with
  | basic => exact ⟨_, _, rfl, .inl rfl⟩
  | literal _ _ => exact ⟨_, _, rfl, .inr rfl⟩
  | multilineBasic => exact ⟨_, _, rfl, .inl rfl⟩
  | multilineLiteral _ _ => exact ⟨_, _, rfl, .inr rfl⟩

theorem Written.read? (h : Written cs text) (rest : List Char) :
    read? (text ++ '\n' :: rest) = some (cs, '\n' :: rest) := by
  cases h with
  | basic => exact read?_basic cs rest
  | literal plain noQuote => exact read?_literal plain noQuote rest
  | multilineBasic => exact read?_multilineBasic cs rest
  | multilineLiteral plain runs => exact read?_multilineLiteral plain runs rest

/-- Whichever form is chosen for a text, it is read back. -/
theorem read?_write (cs rest : List Char) :
    Quoted.read? (write cs ++ '\n' :: rest) = some (cs, '\n' :: rest) :=
  (written_write cs).read? rest

end Scion.Toml.Quoted
