import Scion.Derivation

/-!
Following a production path through a tree. The path names the symbols from the start node down to
the symbol that is to be inserted; the walk ends at the node for the last symbol but one. Nonterminal
children that the walk passes by are queued for later, also at the node where it fails.
-/

namespace Scion

/-- Where a walk ends: the node, and its first child that has the symbol to be inserted. -/
structure Arrival where
  parent : DerivationTree
  sibling? : Option DerivationTree

structure Walk where
  queued : List DerivationTree
  outcome : Except GraftError Arrival

namespace Walk

def sideBranches (ts : List DerivationTree) : List DerivationTree :=
  ts.filter fun t => t.symbol.isNonterminal

/-- Takes a child for each symbol of the path; the first child that has it is the one. -/
def follow (insert : Symbol) (current : DerivationTree) : List Symbol → Walk
  | [] =>
    { queued := sideBranches current.children
      outcome := .ok ⟨current, current.children.find? fun c => c.symbol = insert⟩ }
  | expected :: rest =>
    match current.children.span fun c => c.symbol ≠ expected with
    | (_, []) =>
      { queued := sideBranches current.children
        outcome := .error (.structuralMismatch current.symbol expected) }
    | (left, next :: right) =>
      let walk := follow insert next rest
      { walk with queued := sideBranches (left ++ right) ++ walk.queued }

/-- The path has to begin with the symbol of the start node and to make at least one step. -/
def along (start : DerivationTree) (path : List Symbol) (insert : Symbol) : Walk :=
  match path with
  | first :: second :: rest =>
    if first = start.symbol then follow insert start (second :: rest).dropLast
    else { queued := [], outcome := .error (.structuralMismatch start.symbol first) }
  | [first] => { queued := [], outcome := .error (.structuralMismatch start.symbol first) }
  | [] => { queued := [], outcome := .error (.structuralMismatch start.symbol ⟨""⟩) }

end Walk

end Scion
