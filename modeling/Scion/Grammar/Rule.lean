import Scion.Symbol

/-!
Production rules: a head and its alternatives, each a sequence of symbols.
-/

namespace Scion

abbrev Alternative := List Symbol

structure Rule where
  head : Symbol
  alternatives : List Alternative
deriving DecidableEq, Repr, Inhabited

/-- The symbols of all alternatives, with repetitions. -/
def Rule.symbols (r : Rule) : List Symbol := r.alternatives.flatten

end Scion
