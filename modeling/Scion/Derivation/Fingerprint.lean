import Scion.Derivation

/-!
A hash of shape and symbols in 64-bit words. Identities do not enter it, so a tree and its copy have
the same fingerprint.
-/

namespace Scion

namespace Fingerprint

def offset : UInt64 := 0xcbf29ce484222325

def prime : UInt64 := 0x100000001b3

def mix (acc word : UInt64) : UInt64 := (acc ^^^ word * prime) * prime

def ofSymbol (s : Symbol) : UInt64 :=
  s.text.toUTF8.data.toList.foldl (fun acc byte => mix acc byte.toUInt64) offset

mutual

def ofTree : ParseTree → UInt64
  | .hole s => mix (ofSymbol s) 1
  | .node s cs =>
    if cs.isEmpty then mix (ofSymbol s) 2
    else ofTrees (mix (mix (ofSymbol s) 3) cs.length.toUInt64) cs

def ofTrees (acc : UInt64) : List ParseTree → UInt64
  | [] => acc
  | c :: cs => ofTrees (mix acc (ofTree c)) cs

end

end Fingerprint

/-- Depends on the shape alone. -/
def Tree.fingerprint (t : DerivationTree) : UInt64 := Fingerprint.ofTree t.shape

theorem Tree.fingerprint_congr {t u : DerivationTree} (h : t.shape = u.shape) :
    t.fingerprint = u.fingerprint := by
  rw [Tree.fingerprint, Tree.fingerprint, h]

end Scion
