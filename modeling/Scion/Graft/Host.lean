import Scion.Derivation
import Scion.Graft.Alternatives

/-!
New nodes that hold the inserted tree. First each slot of the chosen alternative gets its role, by
symbols alone; then the roles are filled with trees, and whatever has no tree yet receives fresh
identities from left to right, the new node itself last.
-/

namespace Scion

/-- What a slot of an alternative is used for. -/
inductive Role where
  | insert
  | host
  | copy (sibling : DerivationTree)
  | filler (symbol : Symbol)

namespace Role

/-- The trees that still wait for a slot. -/
structure Waiting where
  insert : Bool
  host : Bool
  sibling? : Option DerivationTree

/-- Goes through the slots from left to right: the inserted tree takes the first slot with its
symbol, the old subtree the first one with its own that is left, a sibling the next slot with the
symbol of the inserted tree. -/
def assign (insert host : Symbol) (waiting : Waiting) : Alternative → List Role
  | [] => []
  | s :: rest =>
    if waiting.insert && s == insert then
      .insert :: assign insert host { waiting with insert := false } rest
    else if waiting.host && s == host then
      .host :: assign insert host { waiting with host := false } rest
    else
      match waiting.sibling? with
      | some sibling =>
        if s = insert then
          .copy sibling :: assign insert host { waiting with sibling? := none } rest
        else .filler s :: assign insert host waiting rest
      | none => .filler s :: assign insert host waiting rest

end Role

namespace Host

/-- The tree for a slot that nothing waits for. -/
def fillerShape (g : Grammar) (expandTrivial : Bool) (s : Symbol) : ParseTree :=
  if s.isTerminal then .leaf s
  else if expandTrivial then
    match g.trivialExpansion? s with
    | some alternative => .node s (alternative.map Tree.leaf)
    | none => .hole s
  else .hole s

def filler (g : Grammar) (expandTrivial : Bool) (s : Symbol) (next : NodeId) :
    DerivationTree × NodeId :=
  (fillerShape g expandTrivial s).instantiate next

def fill (g : Grammar) (expandTrivial : Bool) (insert host : DerivationTree) :
    List Role → NodeId → List DerivationTree × NodeId
  | [], next => ([], next)
  | role :: rest, next =>
    let (child, next) :=
      match role with
      | .insert => (insert, next)
      | .host => (host, next)
      | .copy sibling => sibling.duplicate next
      | .filler s => filler g expandTrivial s next
    let (children, next) := fill g expandTrivial insert host rest next
    (child :: children, next)

/-- A node in place of `host`, with its symbol, that realizes an alternative with both trees. -/
def build (g : Grammar) (expandTrivial : Bool) (a : Alternative) (host insert : DerivationTree)
    (sibling? : Option DerivationTree) (next : NodeId) : DerivationTree × NodeId :=
  let roles := Role.assign insert.symbol host.symbol ⟨true, true, sibling?⟩ a
  let (children, next) := fill g expandTrivial insert host roles next
  (.node ⟨next, host.symbol⟩ children, next + 1)

/-- A node of the given symbol around the inserted tree; all other nonterminal slots stay open. -/
def wrap (g : Grammar) (parent : Symbol) (insert : DerivationTree) (next : NodeId) :
    Except GraftError (DerivationTree × NodeId) :=
  match Alternatives.shortestContaining g parent insert.symbol with
  | .error e => .error e
  | .ok a =>
    let roles := Role.assign insert.symbol parent ⟨true, false, none⟩ a
    let (children, next) := fill g false insert insert roles next
    .ok (.node ⟨next, parent⟩ children, next + 1)

end Host

end Scion
