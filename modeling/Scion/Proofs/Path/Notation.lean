import Mathlib.Data.List.Forall2
import Mathlib.Data.List.TakeWhile
import Scion.Path.Notation

/-!
Reading paths off the command line. A text is cut at its commas; it is a path when every part is the
decimal numeral of an index with blanks around it, perhaps behind a plus sign, or when there is
nothing but blanks. So the indices of a path, written one after the other, are read as the path.
-/

namespace Scion

namespace Text

variable {c : Char} {cs core before after : List Char}

/-! ### Blanks at the ends -/

theorem not_isBlank_of_isDigit (digit : c.isDigit) : ¬ isBlank c := by
  have low : 48 ≤ c.toNat ∧ c.toNat ≤ 57 := by
    simpa [Char.isDigit, UInt32.le_iff_toNat_le] using digit
  simp only [isBlank, CharRanges.contains, blankRanges, List.any_cons, List.any_nil,
    Bool.or_eq_true, Bool.and_eq_true, decide_eq_true_eq, Bool.false_eq_true, or_false]
  omega

theorem dropWhile_blank (blanks : ∀ c ∈ before, isBlank c)
    (solid : ∀ c ∈ core.head?, ¬ isBlank c) : (before ++ core).dropWhile isBlank = core := by
  rw [List.dropWhile_append_of_pos blanks]
  cases core with
  | nil => rfl
  | cons c core => exact List.dropWhile_cons_of_neg (solid c rfl)

/-- Blanks at the ends are cut off. -/
theorem trim_between (blanks : ∀ c ∈ before, isBlank c) (blanks' : ∀ c ∈ after, isBlank c)
    (nonempty : core ≠ []) (solid : ∀ c ∈ core, ¬ isBlank c) :
    trim (before ++ core ++ after) = core := by
  have front : ∀ c ∈ (core ++ after).head?, ¬ isBlank c := by
    intro c hc
    rw [List.head?_append_of_ne_nil _ nonempty] at hc
    exact solid c (List.mem_of_head? hc)
  have back : ∀ c ∈ core.reverse.head?, ¬ isBlank c := by
    intro c hc
    exact solid c (List.mem_reverse.1 (List.mem_of_head? hc))
  have blanks' : ∀ c ∈ after.reverse, isBlank c := by simpa using blanks'
  rw [trim, List.append_assoc, dropWhile_blank blanks front, List.reverse_append,
    dropWhile_blank blanks' back, List.reverse_reverse]

/-- Nothing but blanks is cut off. -/
theorem exists_trim (cs : List Char) : ∃ before after, cs = before ++ trim cs ++ after ∧
    (∀ c ∈ before, isBlank c) ∧ ∀ c ∈ after, isBlank c := by
  refine ⟨cs.takeWhile isBlank, ((cs.dropWhile isBlank).reverse.takeWhile isBlank).reverse,
    ?_, ?_, ?_⟩
  · have back := @List.takeWhile_append_dropWhile _ isBlank (cs.dropWhile isBlank).reverse
    rw [trim, List.append_assoc, ← List.reverse_append, back, List.reverse_reverse,
      List.takeWhile_append_dropWhile]
  · intro c hc
    exact List.mem_takeWhile_imp hc
  · intro c hc
    exact List.mem_takeWhile_imp (List.mem_reverse.1 hc)

theorem trim_isEmpty_iff : (trim cs).isEmpty ↔ ∀ c ∈ cs, isBlank c := by
  rw [List.isEmpty_iff]
  constructor
  · intro empty
    obtain ⟨before, after, split, blanks, blanks'⟩ := exists_trim cs
    rw [empty, List.append_nil] at split
    rw [split]
    exact List.forall_mem_append.2 ⟨blanks, blanks'⟩
  · intro blanks
    rw [trim, List.dropWhile_eq_nil_iff.2 blanks]
    rfl

theorem splitAt_eq_splitOn (separator : Char) (cs : List Char) :
    splitAt separator cs = cs.splitOn separator := by
  induction cs with
  | nil => rfl
  | cons c rest ih =>
    obtain ⟨part, more, parts⟩ := List.exists_cons_of_ne_nil (splitAt_ne_nil separator rest)
    rw [splitAt, List.splitOn_cons_eq_if_modifyHead, ← ih, parts]
    by_cases same : c = separator <;> simp [same]

end Text

namespace Path

variable {cs part : List Char} {n : Nat} {parts : List (List Char)} {indices : List Nat}

/-- The numeral of an index: decimal digits, perhaps behind a plus sign and behind zeros. -/
def IsIndex (cs : List Char) (n : Nat) : Prop :=
  ∃ ds, (cs = ds ∨ cs = '+' :: ds) ∧ ds ≠ [] ∧ (∀ c ∈ ds, c.isDigit) ∧
    Nat.ofDigitChars 10 ds 0 = n ∧ n < indexLimit

/-- A numeral with blanks around it. -/
def Spells (part : List Char) (n : Nat) : Prop :=
  ∃ before cs after, part = before ++ cs ++ after ∧ (∀ c ∈ before, Text.isBlank c) ∧
    (∀ c ∈ after, Text.isBlank c) ∧ IsIndex cs n

theorem decimal?_eq_some_iff :
    decimal? cs = some n ↔ cs ≠ [] ∧ (∀ c ∈ cs, c.isDigit) ∧
      Nat.ofDigitChars 10 cs 0 = n ∧ n < indexLimit := by
  have value : cs.foldl (fun n c => n * 10 + (c.toNat - '0'.toNat)) 0 =
      Nat.ofDigitChars 10 cs 0 := by
    simp only [Nat.ofDigitChars_eq_foldl, Nat.mul_comm]
  rw [decimal?, value]
  split
  · rename_i refused
    simp only [Bool.or_eq_true, List.isEmpty_iff, Bool.not_eq_true', List.all_eq_false] at refused
    grind
  · rename_i digits
    simp only [Bool.or_eq_true, List.isEmpty_iff, Bool.not_eq_true', List.all_eq_false] at digits
    grind

theorem index?_eq_some_iff : index? cs = some n ↔ IsIndex cs n := by
  have plus : ¬ '+'.isDigit := by decide
  unfold index?
  split
  · rename_i ds
    rw [decimal?_eq_some_iff]
    constructor
    · intro digits
      exact ⟨ds, .inr rfl, digits⟩
    · rintro ⟨_, rfl | same, nonempty, digits, value⟩
      · exact absurd (digits '+' List.mem_cons_self) plus
      · rw [List.cons.inj same |>.2]
        exact ⟨nonempty, digits, value⟩
  · rename_i unsigned
    rw [decimal?_eq_some_iff]
    constructor
    · intro digits
      exact ⟨cs, .inl rfl, digits⟩
    · rintro ⟨ds, rfl | signed, digits⟩
      · exact digits
      · exact absurd signed (unsigned ds)

theorem IsIndex.solid (h : IsIndex cs n) : cs ≠ [] ∧ ∀ c ∈ cs, ¬ Text.isBlank c := by
  have plus : ¬ Text.isBlank '+' := by decide
  obtain ⟨ds, rfl | rfl, nonempty, digits, -⟩ := h
  · exact ⟨nonempty, fun c hc => Text.not_isBlank_of_isDigit (digits c hc)⟩
  · refine ⟨List.cons_ne_nil _ _, List.forall_mem_cons.2 ⟨plus, fun c hc => ?_⟩⟩
    exact Text.not_isBlank_of_isDigit (digits c hc)

theorem index?_trim_eq_some_iff : index? (Text.trim part) = some n ↔ Spells part n := by
  rw [index?_eq_some_iff]
  constructor
  · intro numeral
    obtain ⟨before, after, split, blanks, blanks'⟩ := Text.exists_trim part
    exact ⟨before, _, after, split, blanks, blanks', numeral⟩
  · rintro ⟨before, cs, after, rfl, blanks, blanks', numeral⟩
    obtain ⟨nonempty, solid⟩ := numeral.solid
    rwa [Text.trim_between blanks blanks' nonempty solid]

theorem indices?_eq_some_iff : indices? parts = some indices ↔ List.Forall₂ Spells parts indices := by
  induction parts generalizing indices with
  | nil =>
    rw [indices?, List.forall₂_nil_left_iff, Option.some.injEq, eq_comm]
  | cons part rest ih =>
    rw [indices?, List.forall₂_cons_left_iff]
    constructor
    · intro read
      split at read
      · rename_i i is first later
        cases read
        exact ⟨i, is, index?_trim_eq_some_iff.1 first, ih.1 later, rfl⟩
      · cases read
    · rintro ⟨i, is, first, later, rfl⟩
      rw [index?_trim_eq_some_iff.2 first, ih.2 later]

/-- A part that holds an index is not blank. -/
theorem Spells.not_blank (h : Spells part n) : ¬ ∀ c ∈ part, Text.isBlank c := by
  obtain ⟨before, cs, after, rfl, -, -, numeral⟩ := h
  obtain ⟨nonempty, solid⟩ := numeral.solid
  obtain ⟨c, cs, rfl⟩ := List.exists_cons_of_ne_nil nonempty
  intro blanks
  exact solid c List.mem_cons_self (blanks c (by simp))

theorem isIndex_toString {i : Nat} (small : i < indexLimit) : IsIndex (toString i).toList i := by
  rw [Nat.toString_eq_repr, Nat.toList_repr]
  refine ⟨Nat.toDigits 10 i, .inl rfl, Nat.toDigits_ne_nil, ?_, Nat.ofDigitChars_ten_toDigits, small⟩
  intro c hc
  exact Nat.isDigit_of_mem_toDigits (by decide) (by decide) hc

/-- The decimal numeral of an index, with blanks around it. -/
def Pads (part : List Char) (i : Nat) : Prop :=
  ∃ before after, part = before ++ (toString i).toList ++ after ∧
    (∀ c ∈ before, Text.isBlank c) ∧ ∀ c ∈ after, Text.isBlank c

theorem spells_of_pads (small : ∀ i ∈ indices, i < indexLimit)
    (padded : List.Forall₂ Pads parts indices) : List.Forall₂ Spells parts indices := by
  induction padded with
  | nil => exact .nil
  | cons first _ ih =>
    obtain ⟨before, after, rfl, blanks, blanks'⟩ := first
    obtain ⟨here, later⟩ := List.forall_mem_cons.1 small
    exact .cons ⟨before, _, after, rfl, blanks, blanks', isIndex_toString here⟩ (ih later)

theorem Spells.comma_not_mem (h : Spells part n) : ',' ∉ part := by
  obtain ⟨before, cs, after, rfl, blanks, blanks', ds, sign, -, digits, -⟩ := h
  have solid : ¬ Text.isBlank ',' := by decide
  have other : ',' ∉ ds := fun inside => absurd (digits ',' inside) (by decide)
  have outside : ',' ∉ cs := by
    obtain rfl | rfl := sign
    · exact other
    · simpa using other
  simp only [List.mem_append, not_or]
  exact ⟨⟨fun inside => solid (blanks _ inside), outside⟩, fun inside => solid (blanks' _ inside)⟩

theorem comma_not_mem (spelled : List.Forall₂ Spells parts indices) :
    ∀ part ∈ parts, ',' ∉ part := by
  induction spelled with
  | nil => simp
  | cons first _ ih => exact List.forall_mem_cons.2 ⟨first.comma_not_mem, ih⟩

/-- The first part of a text is where the text begins. -/
theorem exists_first_part (cs : List Char) :
    ∃ part rest, cs.splitOn ',' = part :: rest ∧ part <+: cs := by
  obtain ⟨part, rest, parts⟩ := List.exists_cons_of_ne_nil (List.splitOn_ne_nil ',' cs)
  have joined : [','].intercalate (cs.splitOn ',') = cs := List.intercalate_splitOn ','
  rw [parts] at joined
  refine ⟨part, rest, parts, ?_⟩
  cases rest with
  | nil =>
    rw [List.intercalate_singleton] at joined
    exact joined ▸ List.prefix_refl part
  | cons next rest =>
    rw [← joined, List.intercalate_cons_cons, List.append_assoc]
    exact List.prefix_append part _

/-- A text is read as the root when it is blank, and otherwise index by index. -/
theorem parse?_eq_some_iff {text : String} {p : Path} : parse? text = some p ↔
    (∀ c ∈ text.toList, Text.isBlank c) ∧ p = root ∨
      List.Forall₂ Spells (text.toList.splitOn ',') p.toList := by
  rw [parse?]
  split
  · rename_i empty
    have blanks := Text.trim_isEmpty_iff.1 empty
    have unspelled : ¬ List.Forall₂ Spells (text.toList.splitOn ',') p.toList := by
      obtain ⟨part, rest, parts, start⟩ := exists_first_part text.toList
      rw [parts, List.forall₂_cons_left_iff]
      rintro ⟨n, ns, spelled, -⟩
      exact spelled.not_blank fun c hc => blanks c (start.subset hc)
    rw [or_iff_left unspelled, Option.some.injEq, eq_comm]
    exact (and_iff_right blanks).symm
  · rename_i solid
    rw [Text.trim_isEmpty_iff] at solid
    rw [or_iff_right fun blank => solid blank.1, ← indices?_eq_some_iff, Text.splitAt_eq_splitOn,
      Option.map_eq_some_iff]
    constructor
    · rintro ⟨indices, read, rfl⟩
      exact read
    · intro read
      exact ⟨p.toList, read, rfl⟩

/-- A text is read as a path when it is blank, which gives the root, or when each of its parts
between commas is the numeral of an index with blanks around it, and then the indices are theirs. So
the decimal numerals of the indices of any path, joined by commas with any blanks around each, are
read as the path. -/
theorem parse?_exact (text : String) (p : Path) :
    (parse? text = some p ↔ (∀ c ∈ text.toList, Text.isBlank c) ∧ p = root ∨
      List.Forall₂ Spells (text.toList.splitOn ',') p.toList) ∧
    ((∀ i ∈ p.toList, i < indexLimit) → ∀ parts : List (List Char),
      List.Forall₂ Pads parts p.toList →
        parse? (String.ofList ([','].intercalate parts)) = some p) := by
  refine ⟨parse?_eq_some_iff, fun small parts padded => parse?_eq_some_iff.2 ?_⟩
  rw [String.toList_ofList]
  cases parts with
  | nil =>
    refine .inl ⟨by simp, ?_⟩
    rw [root, ← List.forall₂_nil_left_iff.1 padded]
  | cons part rest =>
    have spelled := spells_of_pads small padded
    rw [List.splitOn_intercalate ',' (comma_not_mem spelled) (List.cons_ne_nil _ _)]
    exact .inr spelled

/-- A blank before the first index and one behind the second, which is the greatest there is. -/
theorem parse?_exact_blanks :
    (∀ i ∈ [7, 18446744073709551615], i < indexLimit) ∧
      List.Forall₂ Pads ["\u20037".toList, "18446744073709551615 ".toList]
        [7, 18446744073709551615] ∧
      parse? "\u20037,18446744073709551615 " = some ⟨[7, 18446744073709551615]⟩ := by
  have small : ∀ i ∈ [7, 18446744073709551615], i < indexLimit := by decide
  have padded : List.Forall₂ Pads ["\u20037".toList, "18446744073709551615 ".toList]
      [7, 18446744073709551615] := by
    have blank {cs : List Char} (h : cs.all Text.isBlank) : ∀ c ∈ cs, Text.isBlank c :=
      List.all_eq_true.1 h
    refine .cons ⟨['\u2003'], [], by decide, blank (by decide), by simp⟩ (.cons ?_ .nil)
    exact ⟨[], [' '], by decide +kernel, by simp, blank (by decide)⟩
  have text : String.ofList ([','].intercalate ["\u20037".toList, "18446744073709551615 ".toList]) =
      "\u20037,18446744073709551615 " := by decide
  refine ⟨small, padded, ?_⟩
  rw [← text]
  exact (parse?_exact "" ⟨[7, 18446744073709551615]⟩).2 small _ padded

end Path

end Scion
