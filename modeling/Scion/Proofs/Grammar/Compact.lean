import Mathlib.Data.List.Chain
import Scion.Grammar.Compact

/-!
The compact notation is exact. Its nonterminals are the names that a scan from left to right finds,
and between them stand terminals in which no name occurs. A sequence of such symbols is the only one
that its concatenation is split into.
-/

namespace Scion

namespace Symbol

/-- An opening bracket, characters other than brackets and blanks, and a closing bracket. -/
def IsName (cs : List Char) : Prop :=
  ∃ body, cs = '<' :: (body ++ ['>']) ∧ ∀ c ∈ body, c ≠ '<' ∧ c ≠ '>' ∧ c ≠ ' '

theorem closing?_eq_some {cs name rest : List Char} :
    closing? cs = some (name, rest) ↔
      ∃ body, name = body ++ ['>'] ∧ cs = name ++ rest ∧
        ∀ c ∈ body, c ≠ '<' ∧ c ≠ '>' ∧ c ≠ ' ' := by
  induction cs generalizing name with
  | nil =>
    simp only [closing?, reduceCtorEq, false_iff]
    rintro ⟨body, rfl, split, -⟩
    simp at split
  | cons c cs ih =>
    rw [closing?]
    constructor
    · intro h
      split at h
      · rename_i close
        obtain ⟨rfl, rfl⟩ := Prod.mk.inj (Option.some.inj h)
        exact ⟨[], by simp [close], rfl, by simp⟩
      · rename_i inside
        split at h
        · simp at h
        · rename_i plain
          obtain ⟨⟨name, rest⟩, found, same⟩ := Option.map_eq_some_iff.1 h
          obtain ⟨rfl, rfl⟩ := Prod.mk.inj same
          obtain ⟨body, rfl, rfl, free⟩ := ih.1 found
          refine ⟨c :: body, rfl, rfl, ?_⟩
          rw [List.forall_mem_cons]
          exact ⟨⟨fun h => plain (.inl h), inside, fun h => plain (.inr h)⟩, free⟩
    · rintro ⟨body, rfl, split, free⟩
      cases body with
      | nil =>
        obtain ⟨rfl, rfl⟩ := List.cons.inj split
        simp
      | cons d body =>
        obtain ⟨rfl, rfl⟩ := List.cons.inj split
        obtain ⟨⟨open', close, blank⟩, free⟩ := List.forall_mem_cons.1 free
        rw [if_neg close, if_neg (by simp [open', blank]), ih.2 ⟨body, rfl, rfl, free⟩]
        rfl

theorem bracketed?_eq_some {cs name rest : List Char} :
    bracketed? cs = some (name, rest) ↔ IsName name ∧ cs = name ++ rest := by
  cases cs with
  | nil =>
    simp only [bracketed?, reduceCtorEq, false_iff, IsName]
    rintro ⟨⟨body, rfl, -⟩, split⟩
    simp at split
  | cons c cs =>
    rw [bracketed?]
    constructor
    · intro h
      split at h
      · rename_i opened
        obtain ⟨⟨name, rest⟩, found, same⟩ := Option.map_eq_some_iff.1 h
        obtain ⟨rfl, rfl⟩ := Prod.mk.inj same
        obtain ⟨body, rfl, rfl, free⟩ := closing?_eq_some.1 found
        exact ⟨⟨body, by rw [opened], free⟩, rfl⟩
      · simp at h
    · rintro ⟨⟨body, rfl, free⟩, split⟩
      obtain ⟨rfl, inner⟩ := List.cons.inj split
      rw [if_pos rfl, closing?_eq_some.2 ⟨body, rfl, inner, free⟩]
      rfl

theorem bracketed?_eq_none {cs : List Char} :
    bracketed? cs = none ↔ ∀ name, IsName name → ¬ name <+: cs := by
  rw [Option.eq_none_iff_forall_ne_some]
  constructor
  · rintro h name known ⟨rest, rfl⟩
    exact h (name, rest) (bracketed?_eq_some.2 ⟨known, rfl⟩)
  · rintro h ⟨name, rest⟩ found
    obtain ⟨known, rfl⟩ := bracketed?_eq_some.1 found
    exact h name known (List.prefix_append name rest)

theorem isNonterminal_iff {s : Symbol} : s.isNonterminal ↔ IsName s.text.toList := by
  rw [isNonterminal]
  constructor
  · intro h
    split at h
    · rename_i name found
      obtain ⟨known, whole⟩ := bracketed?_eq_some.1 found
      rwa [whole, List.append_nil]
    · simp at h
  · intro known
    have found : bracketed? s.text.toList = some (s.text.toList, []) :=
      bracketed?_eq_some.2 ⟨known, (List.append_nil _).symm⟩
    rw [found]

namespace IsName

variable {name : List Char}

theorem ne_nil (h : IsName name) : name ≠ [] := by
  obtain ⟨body, rfl, -⟩ := h
  simp

theorem exists_opening (h : IsName name) : ∃ rest, name = '<' :: rest ∧ '<' ∉ rest := by
  obtain ⟨body, rfl, free⟩ := h
  refine ⟨_, rfl, fun opened => ?_⟩
  obtain inside | last := List.mem_append.1 opened
  · exact (free _ inside).1 rfl
  · simp at last

end IsName

end Symbol

open Scion.Symbol (IsName)

namespace Compact

/-- The names that a scan finds in the text behind `start` characters, each with the place where it
opens. The scan takes a name wherever one opens and goes on behind it; it passes any other
character. -/
inductive Scan : Nat → List Char → List (Nat × String) → Prop
  | done {start : Nat} : Scan start [] []
  | take {start : Nat} {name rest : List Char} {found : List (Nat × String)} : IsName name →
      Scan (start + name.length) rest found →
      Scan start (name ++ rest) ((start, String.ofList name) :: found)
  | pass {start : Nat} {c : Char} {rest : List Char} {found : List (Nat × String)} :
      (∀ name, IsName name → ¬ name <+: c :: rest) → Scan (start + 1) rest found →
      Scan start (c :: rest) found

theorem Scan.exists_found (start : Nat) (cs : List Char) : ∃ found, Scan start cs found := by
  generalize size : cs.length = n
  induction n using Nat.strongRecOn generalizing start cs with
  | ind n ih =>
    cases cs with
    | nil => exact ⟨[], .done⟩
    | cons c rest =>
      cases opened : Symbol.bracketed? (c :: rest) with
      | none =>
        obtain ⟨found, scan⟩ := ih rest.length (by simp [← size]) (start + 1) rest rfl
        exact ⟨found, .pass (Symbol.bracketed?_eq_none.1 opened) scan⟩
      | some cut =>
        obtain ⟨name, behind⟩ := cut
        obtain ⟨known, split⟩ := Symbol.bracketed?_eq_some.1 opened
        have shorter : behind.length < n := by
          have := List.length_pos_of_ne_nil known.ne_nil
          rw [← size, split, List.length_append]
          omega
        obtain ⟨found, scan⟩ := ih behind.length shorter (start + name.length) behind rfl
        exact ⟨(start, String.ofList name) :: found, split ▸ Scan.take known scan⟩

variable {run text name rest : List Char}

/-! ### Texts in which no name opens -/

/-- No name opens in a text that `rest` follows. -/
def Closed : List Char → List Char → Prop
  | [], _ => True
  | c :: text, rest => (∀ name, IsName name → ¬ name <+: c :: (text ++ rest)) ∧ Closed text rest

theorem closed_append {text' : List Char} :
    Closed (text ++ text') rest ↔ Closed text (text' ++ rest) ∧ Closed text' rest := by
  induction text with
  | nil => simp [Closed]
  | cons c text ih => rw [List.cons_append, Closed, Closed, ih, List.append_assoc, and_assoc]

theorem Closed.not_infix (h : Closed text rest) (known : IsName name) : ¬ name <:+: text := by
  induction text with
  | nil => exact fun within => known.ne_nil (List.infix_nil.1 within)
  | cons c text ih =>
    intro within
    obtain opened | later := List.infix_cons_iff.1 within
    · exact h.1 name known (opened.trans (List.prefix_append (c :: text) rest))
    · exact ih h.2 later

/-- The text has come to its end, or a name opens. -/
def Border (rest : List Char) : Prop := rest = [] ∨ ∃ name, IsName name ∧ name <+: rest

theorem Border.head_eq {c : Char} (h : Border (c :: rest)) : c = '<' := by
  obtain empty | ⟨name, known, opened⟩ := h
  · simp at empty
  · obtain ⟨inner, rfl, -⟩ := known.exists_opening
    exact ((List.cons_prefix_cons.1 opened).1).symm

/-- A name that opens in front of a border closes there too, for it has only one opening bracket. -/
theorem closed_of_not_infix (plain : ∀ name, IsName name → ¬ name <:+: text)
    (border : Border rest) : Closed text rest := by
  induction text with
  | nil => trivial
  | cons c text ih =>
    refine ⟨fun name known => ?_, ih fun name known later =>
      plain name known (List.infix_cons_iff.2 (.inr later))⟩
    rintro ⟨behind, split⟩
    rw [← List.cons_append, List.append_eq_append_iff] at split
    obtain ⟨left, within, -⟩ | ⟨left, beyond, split⟩ := split
    · exact plain name known (within ▸ (List.prefix_append name left).isInfix)
    · obtain ⟨inner, opened, free⟩ := known.exists_opening
      cases left with
      | nil =>
        rw [List.append_nil] at beyond
        exact plain name known (beyond ▸ List.infix_rfl)
      | cons d left =>
        rw [split, List.cons_append] at border
        obtain rfl := border.head_eq
        obtain ⟨-, rfl⟩ := List.cons.inj (opened.symm.trans beyond)
        exact free (by simp)

/-! ### One step of the splitting -/

theorem piecesFrom_pass {c : Char} (passed : ∀ name, IsName name → ¬ name <+: c :: rest) :
    piecesFrom false run (c :: rest) = piecesFrom false (c :: run) rest := by
  rw [piecesFrom, Symbol.bracketed?_eq_none.2 passed]
  rfl

theorem piecesFrom_closed (h : Closed text rest) :
    piecesFrom false run (text ++ rest) = piecesFrom false (text.reverse ++ run) rest := by
  induction text generalizing run with
  | nil => rfl
  | cons c text ih =>
    rw [List.cons_append, piecesFrom_pass h.1, ih h.2, List.reverse_cons, List.append_assoc]
    rfl

theorem piecesFrom_inside (run rest : List Char) {body : List Char} (free : '>' ∉ body) :
    piecesFrom true run (body ++ '>' :: rest) =
      (run.reverse ++ (body ++ ['>'])) :: pieces rest := by
  induction body generalizing run with
  | nil => simp [piecesFrom, pieces]
  | cons c body ih =>
    rw [List.mem_cons, not_or] at free
    rw [List.cons_append, piecesFrom, if_pos rfl, if_neg (Ne.symm free.1), ih (c :: run) free.2]
    simp

theorem piecesFrom_take (known : IsName name) :
    piecesFrom false run (name ++ rest) = flush run ++ name :: pieces rest := by
  have opened : Symbol.bracketed? (name ++ rest) = some (name, rest) :=
    Symbol.bracketed?_eq_some.2 ⟨known, rfl⟩
  obtain ⟨body, rfl, free⟩ := known
  have inner : body ++ ['>'] ++ rest = body ++ '>' :: rest := by simp
  rw [List.cons_append, inner] at opened ⊢
  have read := piecesFrom_inside ['<'] rest fun close => (free _ close).2.1 rfl
  rw [piecesFrom, opened, read]
  simp

theorem piecesFrom_border (border : Border rest) :
    piecesFrom false run rest = flush run ++ pieces rest := by
  obtain rfl | ⟨name, known, behind, rfl⟩ := border
  · simp [piecesFrom, pieces, flush]
  · rw [pieces, piecesFrom_take known, piecesFrom_take known]
    rfl

/-! ### Separated pieces -/

/-- Pieces that cannot be taken for others: none is empty, a name stands between any two terminals,
and no name occurs in a terminal. -/
structure Separated (pieces : List String) : Prop where
  nonempty : "" ∉ pieces
  apart : pieces.IsChain fun p q =>
    (Symbol.mk p).isNonterminal ∨ (Symbol.mk q).isNonterminal
  plain : ∀ p ∈ pieces, (Symbol.mk p).isTerminal → ∀ name, IsName name → ¬ name <:+: p.toList

namespace Separated

variable {pieces : List String} {p : String}

theorem tail (h : Separated (p :: pieces)) : Separated pieces where
  nonempty member := h.nonempty (List.mem_cons_of_mem p member)
  apart := h.apart.tail
  plain q hq := h.plain q (List.mem_cons_of_mem p hq)

theorem cons_of_isName (h : Separated pieces) (known : IsName p.toList) :
    Separated (p :: pieces) := by
  have nonterminal : (Symbol.mk p).isNonterminal := Symbol.isNonterminal_iff.2 known
  refine ⟨?_, List.isChain_cons.2 ⟨fun _ _ => .inl nonterminal, h.apart⟩, ?_⟩
  · rw [List.mem_cons, not_or]
    refine ⟨?_, h.nonempty⟩
    rintro rfl
    exact known.ne_nil rfl
  · rw [List.forall_mem_cons]
    exact ⟨fun terminal => by simp [Symbol.isTerminal, nonterminal] at terminal, h.plain⟩

/-- The run in front of a name, or at the end, is a terminal unless it is empty. -/
theorem flush_append (h : Separated pieces) (closed : Closed run.reverse rest)
    (next : ∀ q ∈ pieces.head?, (Symbol.mk q).isNonterminal) :
    Separated ((flush run).map String.ofList ++ pieces) := by
  by_cases empty : run = []
  · rw [empty]
    exact h
  · have flushed : flush run = [run.reverse] := by simp [flush, empty]
    rw [flushed, List.map_singleton, List.singleton_append]
    refine ⟨?_, List.isChain_cons.2 ⟨fun q hq => .inr (next q hq), h.apart⟩, ?_⟩
    · rw [List.mem_cons, not_or]
      exact ⟨fun same => empty (by simpa using congrArg String.toList same.symm), h.nonempty⟩
    · rw [List.forall_mem_cons, String.toList_ofList]
      exact ⟨fun _ name known => closed.not_infix known, h.plain⟩

theorem of_scan {start : Nat} {cs : List Char} {found : List (Nat × String)}
    (h : Scan start cs found) (closed : Closed run.reverse cs) :
    Separated ((piecesFrom false run cs).map String.ofList) := by
  induction h generalizing run with
  | done =>
    rw [piecesFrom, ← List.append_nil ((flush run).map String.ofList)]
    exact flush_append ⟨by simp, .nil, by simp⟩ closed (by simp)
  | @take _ name rest _ known _ ih =>
    have later : Separated ((Compact.pieces rest).map String.ofList) := @ih [] trivial
    have named : IsName (String.ofList name).toList := by rwa [String.toList_ofList]
    rw [piecesFrom_take known, List.map_append, List.map_cons]
    refine flush_append (later.cons_of_isName named) closed fun q hq => ?_
    obtain rfl := Option.some.inj hq
    exact Symbol.isNonterminal_iff.2 named
  | pass passed _ ih =>
    rw [piecesFrom_pass passed]
    refine ih ?_
    rw [List.reverse_cons, closed_append]
    exact ⟨closed, passed, trivial⟩

/-- Behind a terminal the next symbol opens, or the text ends. -/
theorem border_flatten (h : Separated (p :: pieces)) (terminal : ¬ IsName p.toList) :
    Border (pieces.map String.toList).flatten := by
  cases pieces with
  | nil => exact .inl rfl
  | cons q pieces =>
    rw [List.map_cons, List.flatten_cons]
    refine .inr ⟨q.toList, ?_, List.prefix_append _ _⟩
    obtain left | right := (List.isChain_cons_cons.1 h.apart).1
    · exact absurd (Symbol.isNonterminal_iff.1 left) terminal
    · exact Symbol.isNonterminal_iff.1 right

theorem pieces_flatten (h : Separated pieces) :
    (Compact.pieces (pieces.map String.toList).flatten).map String.ofList = pieces := by
  induction pieces with
  | nil => rfl
  | cons p pieces ih =>
    have later := ih h.tail
    rw [List.map_cons, List.flatten_cons, Compact.pieces]
    by_cases known : IsName p.toList
    · rw [piecesFrom_take known, List.map_append, List.map_cons, later, String.ofList_toList]
      rfl
    · have border := h.border_flatten known
      have terminal : (Symbol.mk p).isTerminal := by
        simpa [Symbol.isTerminal, ← Symbol.isNonterminal_iff (s := ⟨p⟩)] using known
      have closed := closed_of_not_infix (h.plain p List.mem_cons_self terminal) border
      have nonempty : p ≠ "" := fun same => h.nonempty (same ▸ List.mem_cons_self)
      rw [piecesFrom_closed closed, piecesFrom_border border, List.map_append, later]
      simp [flush, nonempty]

end Separated

/-! ### Pieces at their places -/

/-- Pieces with the places where they begin. -/
def located (start : Nat) : List String → List (Nat × String)
  | [] => []
  | p :: pieces => (start, p) :: located (start + p.length) pieces

/-- Those pieces that are nonterminals. -/
def nonterminals (pieces : List (Nat × String)) : List (Nat × String) :=
  pieces.filter fun (_, p) => (Symbol.mk p).isNonterminal

theorem nonterminals_flush (origin : Nat) {pieces : List String}
    (closed : Closed run.reverse rest) :
    nonterminals (located origin ((flush run).map String.ofList ++ pieces)) =
      nonterminals (located (origin + run.length) pieces) := by
  by_cases empty : run = []
  · rw [empty]
    rfl
  · have terminal : (Symbol.mk (String.ofList run.reverse)).isNonterminal = false := by
      rw [← Bool.not_eq_true, Symbol.isNonterminal_iff, String.toList_ofList]
      exact fun known => closed.not_infix known List.infix_rfl
    simp [flush, empty, located, nonterminals, terminal]

/-- The nonterminals among the pieces are what a scan finds. -/
theorem Scan.eq_nonterminals {start origin : Nat} {cs : List Char} {found : List (Nat × String)}
    (h : Scan start cs found) (closed : Closed run.reverse cs)
    (behind : start = origin + run.length) :
    found = nonterminals (located origin ((piecesFrom false run cs).map String.ofList)) := by
  induction h generalizing run origin with
  | done =>
    rw [piecesFrom, ← List.append_nil ((flush run).map String.ofList), nonterminals_flush _ closed]
    rfl
  | @take start name rest found known _ ih =>
    have named : (Symbol.mk (String.ofList name)).isNonterminal := by
      rwa [Symbol.isNonterminal_iff, String.toList_ofList]
    have later := @ih [] (start + name.length) trivial rfl
    rw [piecesFrom_take known, List.map_append, nonterminals_flush _ closed, ← behind, later]
    simp [located, nonterminals, named, pieces]
  | pass passed _ ih =>
    rw [piecesFrom_pass passed]
    refine ih ?_ ?_
    · rw [List.reverse_cons, closed_append]
      exact ⟨closed, passed, trivial⟩
    · rw [behind, List.length_cons, Nat.add_assoc]

/-- Splitting a text loses nothing and yields separated pieces; its nonterminals are the names that
a scan of the text finds, each at its place. Symbols are read back from their concatenation exactly
if they are separated. -/
theorem split_exact (text : String) (symbols : List String) :
    (String.join (split text) = text ∧ Separated (split text) ∧
      ∀ found, Scan 0 text.toList found ↔ found = nonterminals (located 0 (split text))) ∧
    (split (String.join symbols) = symbols ↔ Separated symbols) := by
  have separated (text : String) : Separated (split text) := by
    obtain ⟨found, scan⟩ := Scan.exists_found 0 text.toList
    exact @Separated.of_scan [] _ _ _ scan trivial
  have located_eq {found : List (Nat × String)} (scan : Scan 0 text.toList found) :
      found = nonterminals (located 0 (split text)) :=
    @Scan.eq_nonterminals [] _ _ _ _ scan trivial rfl
  refine ⟨⟨?_, separated text, fun found => ⟨located_eq, ?_⟩⟩, fun same => ?_, fun h => ?_⟩
  · rw [← String.toList_inj, String.toList_join, List.flatMap_def, split, List.map_map]
    simp [Function.comp_def, flatten_pieces]
  · rintro rfl
    obtain ⟨found, scan⟩ := Scan.exists_found 0 text.toList
    exact located_eq scan ▸ scan
  · rw [← same]
    exact separated _
  · rw [split, String.toList_join, List.flatMap_def, h.pieces_flatten]

example : split "<<a> <b c>" = ["<", "<a>", " <b c>"] := by decide

end Compact

end Scion
