import Scion.Grammar.Rule

/-!
The reverse view of a list of rules: for each symbol, the heads that have an alternative with it.
The index is filled in one pass; a head is entered once for each symbol, in declaration order.
-/

namespace Scion

abbrev ParentIndex := List (Symbol × List Symbol)

namespace ParentIndex

/-- Empty for a symbol that no rule mentions. -/
def parents : ParentIndex → Symbol → List Symbol
  | [], _ => []
  | (t, heads) :: rest, s => if t = s then heads else parents rest s

/-- Enters a head among the parents of a symbol, unless it is there. -/
def enter (head : Symbol) : ParentIndex → Symbol → ParentIndex
  | [], s => [(s, [head])]
  | (t, heads) :: rest, s =>
    if t = s then (t, if heads.contains head then heads else heads ++ [head]) :: rest
    else (t, heads) :: enter head rest s

def addRule (index : ParentIndex) (r : Rule) : ParentIndex :=
  r.symbols.foldl (enter r.head) index

def ofRules (rules : List Rule) : ParentIndex := rules.foldl addRule []

theorem parents_enter (head : Symbol) (index : ParentIndex) (s t : Symbol) :
    parents (enter head index s) t =
      if t = s then
        if (parents index s).contains head then parents index s else parents index s ++ [head]
      else parents index t := by
  induction index with
  | nil => by_cases h : t = s <;> grind [enter, parents]
  | cons entry rest ih =>
    obtain ⟨u, heads⟩ := entry
    by_cases hu : u = s <;> by_cases ht : t = u <;> grind [enter, parents]

end ParentIndex

end Scion
