/-!
Sets of characters given by ranges of code points.
-/

namespace Scion.Text

abbrev CharRanges := List (Nat × Nat)

/-- Both ends of a range belong to it. -/
def CharRanges.contains (ranges : CharRanges) (c : Char) : Bool :=
  ranges.any fun (first, last) => first ≤ c.toNat && c.toNat ≤ last

end Scion.Text
