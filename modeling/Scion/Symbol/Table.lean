import Scion.Symbol

/-!
A table of the symbols met so far. Interning a text enters its symbol unless it is there already,
so the table never holds a symbol twice.
-/

namespace Scion

structure SymbolTable where
  symbols : List Symbol := []
  nodup : symbols.Nodup := by simp

namespace SymbolTable

def empty : SymbolTable := {}

def isEmpty (t : SymbolTable) : Bool := t.symbols.isEmpty

def size (t : SymbolTable) : Nat := t.symbols.length

def contains (t : SymbolTable) (text : String) : Bool := t.symbols.contains ⟨text⟩

def intern (t : SymbolTable) (text : String) : SymbolTable :=
  if h : t.contains text then t
  else
    { symbols := ⟨text⟩ :: t.symbols
      nodup := List.nodup_cons.2 ⟨by simpa [contains] using h, t.nodup⟩ }

theorem contains_intern (t : SymbolTable) (text : String) : (t.intern text).contains text := by
  unfold intern
  split
  · assumption
  · simp [contains]

theorem size_intern (t : SymbolTable) (text : String) :
    (t.intern text).size = if t.contains text then t.size else t.size + 1 := by
  unfold intern
  split <;> simp [size, *]

end SymbolTable

end Scion
