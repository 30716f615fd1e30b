import Scion.Grammar.Reachability
import Scion.Graft.Host
import Scion.Graft.Walk

/-!
The search for grafts. While seeking, nodes of the target are examined in the order in which they
were queued; each may yield one candidate. When the queue is empty, the inserted tree is wrapped in
a symbol that can contain it, and the target is searched again. Nothing here judges a candidate.
-/

namespace Scion

/-- What a search works on, and never changes. -/
structure Site where
  grammar : Grammar
  paths : ProductionPaths
  target : DerivationTree
  expandTrivial : Bool
  maxExtensions : Option Nat

inductive Phase where
  | seek
  | extend
  | done
deriving DecidableEq, Repr

structure Search where
  phase : Phase
  /-- The tree to be inserted, with the wrappers it has got so far. -/
  insert : DerivationTree
  /-- The symbol that is looked for, noted with the tree. -/
  insertSymbol : Symbol
  frontier : List DerivationTree
  /-- Identities examined since the last wrapping. -/
  visited : List NodeId
  wrappers : List DerivationTree
  /-- Pairs of a symbol and the parent it has been wrapped in. -/
  tried : List (Symbol × Symbol)
  extensions : Nat
  /-- The next free identity. -/
  next : NodeId

/-- What one unit of work brought to light. -/
inductive Finding where
  | candidate (tree : DerivationTree)
  | discarded
  /-- The node had been examined before, or the search moved on to its next phase. -/
  | idle
  | exhausted

namespace Site

def start (site : Site) (insert : DerivationTree) (next : NodeId) : Search where
  phase := .seek
  insert := insert
  insertSymbol := insert.symbol
  frontier := [site.target]
  visited := []
  wrappers := []
  tried := []
  extensions := 0
  next := next

/-- The target with the node of the given identity exchanged. -/
def exchange (site : Site) (id : NodeId) (replacement : DerivationTree) :
    Except GraftError DerivationTree :=
  match site.target.find? id with
  | none => .error (.unknownNode id)
  | some path => site.target.replaceAt path replacement

/-- Builds a host at the end of a walk and puts it into the target. -/
def hostAt (site : Site) (s : Search) (arrival : Arrival) :
    Except GraftError DerivationTree × NodeId :=
  match Alternatives.shortestMatching site.grammar arrival.parent.symbol s.insertSymbol with
  | .error e => (.error e, s.next)
  | .ok alternative =>
    let (node, next) := Host.build site.grammar site.expandTrivial alternative arrival.parent
      s.insert arrival.sibling? s.next
    (site.exchange arrival.parent.id node, next)

/-- Tries to attach the inserted tree below a node; no production path leads to no candidate. -/
def attach (site : Site) (s : Search) (node : DerivationTree) :
    Except GraftError (Option DerivationTree) × Search :=
  match site.paths node.symbol s.insertSymbol with
  | none => (.ok none, s)
  | some path =>
    let walk := Walk.along node path s.insertSymbol
    let s := { s with frontier := s.frontier ++ walk.queued }
    match walk.outcome with
    | .error e => (.error e, s)
    | .ok arrival =>
      let (result, next) := site.hostAt s arrival
      (result.map some, { s with next := next })

/-- An open node with the symbol that is looked for is simply filled. -/
def produce (site : Site) (s : Search) (node : DerivationTree) :
    Except GraftError (Option DerivationTree) × Search :=
  if node.isOpen && node.symbol == s.insertSymbol then
    ((site.exchange node.id s.insert).map some, s)
  else site.attach s node

def examine (site : Site) (s : Search) (node : DerivationTree) : Finding × Search :=
  if s.visited.contains node.id then (.idle, s)
  else
    match site.produce { s with visited := node.id :: s.visited } node with
    | (.ok (some tree), s) => (.candidate tree, s)
    | (.ok none, s) => (.discarded, s)
    | (.error _, s) => (.discarded, s)

/-- Queues the inserted tree wrapped in a parent, unless this was done before. -/
def queueWrapper (site : Site) (s : Search) (parent : Symbol) : Search :=
  if s.tried.contains (s.insertSymbol, parent) then s
  else
    let s := { s with tried := (s.insertSymbol, parent) :: s.tried }
    match Host.wrap site.grammar parent s.insert s.next with
    | .ok (wrapper, next) => { s with wrappers := s.wrappers ++ [wrapper], next := next }
    | .error _ => s

/-- Beyond the root symbol of the target no wrapper can help. -/
def queueWrappers (site : Site) (s : Search) : Search :=
  if s.insertSymbol = site.target.symbol then s
  else (site.grammar.possibleParents s.insertSymbol).foldl site.queueWrapper s

def mayExtend (site : Site) (s : Search) : Bool :=
  match site.maxExtensions with
  | some max => s.extensions < max
  | none => true

def extend (site : Site) (s : Search) : Finding × Search :=
  let s := site.queueWrappers s
  match site.mayExtend s, s.wrappers with
  | true, wrapper :: rest =>
    (.idle, { s with
      phase := .seek
      insert := wrapper
      insertSymbol := wrapper.symbol
      frontier := [site.target]
      visited := []
      wrappers := rest
      extensions := s.extensions + 1 })
  | _, _ => (.exhausted, { s with phase := .done })

/-- One unit of work. -/
def step (site : Site) (s : Search) : Finding × Search :=
  match s.phase with
  | .done => (.exhausted, s)
  | .extend => site.extend s
  | .seek =>
    match s.frontier with
    | [] => (.idle, { s with phase := .extend })
    | node :: rest => site.examine { s with frontier := rest } node

/-- More units of work than a search can still do: each phase examines every node of the target at
most once, each examination queues at most as many nodes as there are, and there is one phase for
each queued wrapper and for each pair of a symbol and a possible parent. -/
def stepBound (site : Site) (s : Search) : Nat :=
  let pairs := (site.grammar.parentIndex.flatMap (·.2)).length
  let size := site.target.size
  s.frontier.length + (size * size + 3) * (s.wrappers.length + pairs + 2)

end Site

end Scion
