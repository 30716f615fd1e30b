/-!
Grammar symbols. A symbol is known by its text; it is a nonterminal when the whole text is one
bracketed name such as `<stmt>`, and a terminal otherwise. The reader of bracketed names is shared
with the compact notation of alternatives, so both agree on what a nonterminal looks like.
-/

namespace Scion

structure Symbol where
  text : String
deriving DecidableEq, Hashable, Repr, Inhabited

namespace Symbol

/-- The rest of a bracketed name up to its closing bracket, and what follows it. -/
def closing? : List Char → Option (List Char × List Char)
  | [] => none
  | c :: rest =>
    if c = '>' then some ([c], rest)
    else if c = '<' ∨ c = ' ' then none
    else (closing? rest).map fun (name, rest) => (c :: name, rest)

/-- The bracketed name that opens a text, and what follows it. -/
def bracketed? : List Char → Option (List Char × List Char)
  | [] => none
  | c :: rest =>
    if c = '<' then (closing? rest).map fun (name, rest) => (c :: name, rest) else none

def isNonterminal (s : Symbol) : Bool :=
  match bracketed? s.text.toList with
  | some (_, []) => true
  | _ => false

def isTerminal (s : Symbol) : Bool := !s.isNonterminal

/-- Symbols are ordered by the code points of their texts, which is the order of their encodings. -/
def le (a b : Symbol) : Bool := !(b.text < a.text)

def sort (symbols : List Symbol) : List Symbol := symbols.mergeSort le

theorem closing?_append {cs name rest : List Char} (h : closing? cs = some (name, rest)) :
    name ++ rest = cs := by
  induction cs generalizing name with
  | nil => simp [closing?] at h
  | cons c cs ih =>
    rw [closing?] at h
    split at h
    · rename_i hc
      simp only [Option.some.injEq, Prod.mk.injEq] at h
      obtain ⟨rfl, rfl⟩ := h
      simp [hc]
    · split at h
      · simp at h
      · obtain ⟨⟨n, r⟩, hr, he⟩ := Option.map_eq_some_iff.1 h
        simp only [Prod.mk.injEq] at he
        obtain ⟨rfl, rfl⟩ := he
        simp [ih hr]

/-- Reading a bracketed name loses nothing. -/
theorem bracketed?_append {cs name rest : List Char} (h : bracketed? cs = some (name, rest)) :
    name ++ rest = cs := by
  cases cs with
  | nil => simp [bracketed?] at h
  | cons c cs =>
    rw [bracketed?] at h
    split at h
    · obtain ⟨⟨n, r⟩, hr, he⟩ := Option.map_eq_some_iff.1 h
      simp only [Prod.mk.injEq] at he
      obtain ⟨rfl, rfl⟩ := he
      simp [closing?_append hr]
    · simp at h

end Symbol

end Scion
