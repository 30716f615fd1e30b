import Scion.Symbol

/-!
Nodes of a derivation tree. A node carries an identity beside its symbol: identities are issued in
increasing order and survive every rewriting, so the same node can be found again in a later tree.
-/

namespace Scion

abbrev NodeId := Nat

structure Node where
  id : NodeId
  symbol : Symbol
deriving DecidableEq, Repr, Inhabited

end Scion
