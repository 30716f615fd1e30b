import Scion.Json.Value
import Scion.Proofs.Json.Spelling

/-!
The tokens of a value, and the texts that are written for it. The compact form of a value without
numbers spells its tokens, whatever characters its strings hold.
-/

namespace Scion.Json

namespace Token

variable {body cs : List Char} {units : List Nat} {ts : List Token}

theorem wordEnd_mark {c : Char} {t : Token} (h : punctuation? c = some t) : WordEnd (c :: cs) := by
  rintro _ ⟨⟩
  exact .inr (by rw [h]; rfl)

/-! ### Strings -/

theorem hexValue?_hexDigit {n : Nat} (h : n < 16) : hexValue? (hexDigit n) = some n := by
  revert n
  decide

theorem units_control {c : Char} (h : c.toNat < 0x20) (inside : Units body units) :
    Units ('\\' :: 'u' :: '0' :: '0' :: hexDigit (c.toNat / 16) :: hexDigit (c.toNat % 16) :: body)
      (c.toNat :: units) := by
  have value : hex? 0 ['0', '0', hexDigit (c.toNat / 16), hexDigit (c.toNat % 16)] =
      some c.toNat := by
    have zero : hexValue? '0' = some 0 := rfl
    have high := hexValue?_hexDigit (show c.toNat / 16 < 16 by omega)
    have low := hexValue?_hexDigit (Nat.mod_lt c.toNat (show 0 < 16 by decide))
    simp only [hex?, zero, high, low, Option.bind_some, Option.some.injEq]
    omega
  exact .hex rfl value inside

/-- Escaping a character spells its code point. -/
theorem units_escapeChar (c : Char) (inside : Units body units) :
    Units (escapeChar c ++ body) (c.toNat :: units) := by
  rw [escapeChar]
  split_ifs with h₁ h₂ h₃ h₄ h₅ h₆ h₇ control
  · subst h₁
    exact .escaped rfl inside
  · subst h₂
    exact .escaped rfl inside
  · subst h₃
    exact .escaped rfl inside
  · subst h₄
    exact .escaped rfl inside
  · subst h₅
    exact .escaped rfl inside
  · subst h₆
    exact .escaped rfl inside
  · subst h₇
    exact .escaped rfl inside
  · exact units_control control inside
  · exact .plain h₁ h₂ (by omega) inside

theorem units_flatMap_escapeChar (s : List Char) :
    Units (s.flatMap escapeChar) (s.map Char.toNat) := by
  induction s with
  | nil => exact .nil
  | cons c s ih => exact units_escapeChar c ih

/-- No character is a surrogate, so the code points of a text are read as they stand. -/
theorem joinUnits?_map_toNat (s : List Char) : joinUnits? (s.map Char.toNat) = some s := by
  induction s with
  | nil => rfl
  | cons c s ih =>
    have valid : c.toNat < 0xd800 ∨ 0xe000 ≤ c.toNat := by
      have := c.valid
      simp only [UInt32.isValidChar, Nat.isValidChar, Char.toNat_val] at this
      omega
    have high : isHighSurrogate c.toNat = false := by
      simp only [isHighSurrogate, Bool.and_eq_false_iff, decide_eq_false_iff_not]
      omega
    have low : isLowSurrogate c.toNat = false := by
      simp only [isLowSurrogate, Bool.and_eq_false_iff, decide_eq_false_iff_not]
      omega
    rw [List.map_cons, joinUnits?.eq_def]
    simp [high, low, ih]

theorem spelled_writeString (s : String) (h : Spelled cs ts) :
    Spelled (writeString s ++ cs) (string s :: ts) := by
  have spelled := Spelled.text (units_flatMap_escapeChar s.toList) (joinUnits?_map_toNat _) h
  rw [String.ofList_toList] at spelled
  simpa [writeString] using spelled

theorem spelled_word {w : List Char} {t : Token} (known : word? w = some t) (nonempty : w ≠ [])
    (plain : w.all isWordChar) (ends : WordEnd cs) (h : Spelled cs ts) :
    Spelled (w ++ cs) (t :: ts) :=
  .word nonempty (List.all_eq_true.1 plain) known ends h

end Token

namespace Value

mutual

/-- The tokens of a value, an object's members in order and with repetitions. -/
def tokens : Value → List Token
  | null => [.null]
  | bool b => [.bool b]
  | number n => [.number n]
  | string s => [.string s]
  | array items => .openArray :: (itemTokens items ++ [.closeArray])
  | object members => .openObject :: (memberTokens members ++ [.closeObject])

def itemTokens : List Value → List Token
  | [] => []
  | [v] => tokens v
  | v :: w :: rest => tokens v ++ .comma :: itemTokens (w :: rest)

def memberTokens : List (String × Value) → List Token
  | [] => []
  | [(key, v)] => .string key :: .colon :: tokens v
  | (key, v) :: m :: rest => .string key :: .colon :: (tokens v ++ .comma :: memberTokens (m :: rest))

end

/-- The text is one of those that stand for the value: it spells its tokens. -/
def Written (v : Value) (text : String) : Prop := Token.Spelled text.toList v.tokens

/-- Without numbers. -/
inductive Textual : Value → Prop
  | null : Textual null
  | bool {b : Bool} : Textual (bool b)
  | string {s : String} : Textual (string s)
  | array {items : List Value} : (∀ v ∈ items, Textual v) → Textual (array items)
  | object {members : List (String × Value)} : (∀ m ∈ members, Textual m.2) →
      Textual (object members)

open Token (Spelled WordEnd spelled_writeString spelled_word wordEnd_mark)

/-- The text spells the tokens in front of everything that may stand behind a value. -/
def Spells (text : List Char) (tokens : List Token) : Prop :=
  ∀ cs ts, WordEnd cs → Spelled cs ts → Spelled (text ++ cs) (tokens ++ ts)

theorem spells_writeItems {items : List Value}
    (h : ∀ v ∈ items, Spells v.writeCompact v.tokens) :
    Spells (writeItems items) (itemTokens items) := by
  induction items with
  | nil => exact fun cs ts _ later => later
  | cons v items ih =>
    obtain ⟨here, behind⟩ := List.forall_mem_cons.1 h
    cases items with
    | nil => exact here
    | cons w items =>
      intro cs ts ends later
      rw [writeItems, itemTokens, List.append_assoc, List.append_assoc]
      exact here _ _ (wordEnd_mark rfl) (.mark rfl (ih behind cs ts ends later))

theorem spells_writeMembers {members : List (String × Value)}
    (h : ∀ m ∈ members, Spells m.2.writeCompact m.2.tokens) :
    Spells (writeMembers members) (memberTokens members) := by
  induction members with
  | nil => exact fun cs ts _ later => later
  | cons m members ih =>
    obtain ⟨here, behind⟩ := List.forall_mem_cons.1 h
    cases members with
    | nil =>
      intro cs ts ends later
      rw [writeMembers, memberTokens, List.append_assoc]
      exact spelled_writeString _ (.mark rfl (here cs ts ends later))
    | cons m' members =>
      intro cs ts ends later
      rw [writeMembers, memberTokens]
      simp only [List.append_assoc, List.cons_append]
      refine spelled_writeString _ (.mark rfl (here _ _ (wordEnd_mark rfl) (.mark rfl ?_)))
      exact ih behind cs ts ends later

theorem Textual.spells {v : Value} (h : v.Textual) : Spells v.writeCompact v.tokens := by
  induction h with
  | null => exact fun cs ts ends later => spelled_word rfl (by decide) (by decide) ends later
  | @bool b =>
    cases b <;>
      exact fun cs ts ends later => spelled_word rfl (by decide) (by decide) ends later
  | @string s => exact fun cs ts _ later => spelled_writeString s later
  | @array items _ ih =>
    intro cs ts ends later
    rw [writeCompact, tokens]
    simp only [List.cons_append, List.append_assoc, List.nil_append]
    exact .mark rfl (spells_writeItems ih _ _ (wordEnd_mark rfl) (.mark rfl later))
  | @object members _ ih =>
    intro cs ts ends later
    rw [writeCompact, tokens]
    simp only [List.cons_append, List.append_assoc, List.nil_append]
    exact .mark rfl (spells_writeMembers ih _ _ (wordEnd_mark rfl) (.mark rfl later))

/-- The compact form is one of the texts for the value. -/
theorem Textual.written_compact {v : Value} (h : v.Textual) : v.Written v.compact := by
  have spelled := h.spells [] [] (by simp [WordEnd]) .nil
  simpa [Written, compact] using spelled

end Value

end Scion.Json
