/-!
Settings of a run: bounds on results and on wrappings, and two switches.
-/

namespace Scion

structure GraftSettings where
  /-- Stop after this many results. -/
  maxSolutions : Option Nat := none
  /-- Wrap the inserted tree at most this often. -/
  maxExtensions : Option Nat := none
  checkValidity : Bool := true
  /-- Fill free slots whose nonterminal has a single alternative of terminals only. -/
  expandTrivial : Bool := true
deriving DecidableEq, Repr, Inhabited

end Scion
