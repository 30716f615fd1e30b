import Scion.Symbol

/-!
The compact notation of an alternative: a single text in which bracketed names stand between runs of
other characters. Splitting it yields the names and the runs from left to right; nothing is lost.
-/

namespace Scion.Compact

def flush (run : List Char) : List (List Char) := if run.isEmpty then [] else [run.reverse]

/-- The pieces of a text. `run` holds the characters of the piece being read, last first, and
`inside` says that the piece is a bracketed name. -/
def piecesFrom (inside : Bool) (run : List Char) : List Char → List (List Char)
  | [] => flush run
  | c :: rest =>
    if inside then
      if c = '>' then (c :: run).reverse :: piecesFrom false [] rest
      else piecesFrom true (c :: run) rest
    else if (Symbol.bracketed? (c :: rest)).isSome then flush run ++ piecesFrom true [c] rest
    else piecesFrom false (c :: run) rest

def pieces (cs : List Char) : List (List Char) := piecesFrom false [] cs

def split (text : String) : List String := (pieces text.toList).map String.ofList

theorem flatten_flush (run : List Char) : (flush run).flatten = run.reverse := by
  unfold flush
  split <;> simp_all

theorem flatten_piecesFrom (inside : Bool) (run cs : List Char) :
    (piecesFrom inside run cs).flatten = run.reverse ++ cs := by
  fun_induction piecesFrom inside run cs <;> simp_all [flatten_flush]

/-- The pieces make up the text. -/
theorem flatten_pieces (cs : List Char) : (pieces cs).flatten = cs := by
  simp [pieces, flatten_piecesFrom]

end Scion.Compact
