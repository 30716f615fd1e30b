import Scion.Grammar

/-!
The production graph of a grammar: an edge leads from a head to each symbol of its alternatives. A
search in breadth finds the shortest production path of at least one step; successors are tried in
the order in which the alternatives name them.
-/

namespace Scion

/-- A source of production paths. The search for grafts asks nothing else of a grammar's graph. -/
abbrev ProductionPaths := Symbol → Symbol → Option (List Symbol)

structure ProductionGraph where
  nodes : List Symbol
  adjacency : List (Symbol × List Symbol)
deriving Repr

namespace ProductionGraph

/-- The elements of a list, each where it occurs first. -/
def distinct (seen : List Symbol) : List Symbol → List Symbol
  | [] => []
  | s :: rest => if seen.contains s then distinct seen rest else s :: distinct (s :: seen) rest

def ofGrammar (g : Grammar) : ProductionGraph where
  nodes := distinct [] (g.rules.flatMap fun r => r.head :: r.symbols)
  adjacency := g.rules.map fun r => (r.head, distinct [] r.symbols)

def successors (graph : ProductionGraph) (s : Symbol) : List Symbol :=
  match graph.adjacency.find? (·.1 = s) with
  | some (_, successors) => successors
  | none => []

def nodeCount (graph : ProductionGraph) : Nat := graph.nodes.length

def edgeCount (graph : ProductionGraph) : Nat := (graph.adjacency.flatMap (·.2)).length

/-- The symbols that a search has met, each with the one from which it was met, and those that it
has still to take. The start has an entry only when it was met again. -/
structure Wave where
  predecessors : List (Symbol × Symbol)
  queue : List Symbol
deriving Repr

/-- Only the first meeting with a symbol is entered. -/
def Wave.meet (source : Symbol) (wave : Wave) (s : Symbol) : Wave :=
  if (wave.predecessors.lookup s).isSome then wave
  else ⟨wave.predecessors ++ [(s, source)], wave.queue ++ [s]⟩

def explore (graph : ProductionGraph) (wave : Wave) (s : Symbol) : Wave :=
  (graph.successors s).foldl (Wave.meet s) wave

/-- The symbols on the way back to the start, nearest first. The way breaks off at a symbol without
an entry, and it never ends when it takes more steps than there are entries. -/
def wayBack? (predecessors : List (Symbol × Symbol)) (start : Symbol) :
    Nat → Symbol → Option (List Symbol)
  | 0, _ => none
  | steps + 1, s =>
    match predecessors.lookup s with
    | some source =>
      if source = start then some [source]
      else (wayBack? predecessors start steps source).map (source :: ·)
    | none => none

/-- How a search ends. It is stuck when the way back from the goal breaks off or never ends. -/
inductive Answer where
  | path (symbols : List Symbol)
  | unreachable
  | stuck
deriving DecidableEq, Repr

/-- One round takes the oldest symbol of the queue. -/
def search (graph : ProductionGraph) (start goal : Symbol) : Nat → Wave → Answer
  | 0, _ => .stuck
  | _ + 1, ⟨_, []⟩ => .unreachable
  | rounds + 1, ⟨predecessors, s :: queue⟩ =>
    if s = goal then
      match wayBack? predecessors start predecessors.length s with
      | some before => .path (s :: before).reverse
      | none => .stuck
    else search graph start goal rounds (graph.explore ⟨predecessors, queue⟩ s)

/-- The search begins with the successors of the start, so a path has at least one step. Every round
takes another symbol of the graph, so there are no more rounds than symbols. -/
def answer (graph : ProductionGraph) (start goal : Symbol) : Answer :=
  if start ∈ graph.nodes ∧ goal ∈ graph.nodes then
    search graph start goal (graph.nodes.length + 1) (graph.explore ⟨[], []⟩ start)
  else .unreachable

def shortestPath? (graph : ProductionGraph) : ProductionPaths := fun start goal =>
  match graph.answer start goal with
  | .path symbols => some symbols
  | .unreachable => none
  | .stuck => none

/-- Whether one or more production steps lead from one symbol to the other. -/
def reaches (graph : ProductionGraph) (start goal : Symbol) : Bool :=
  (graph.shortestPath? start goal).isSome

end ProductionGraph

end Scion
