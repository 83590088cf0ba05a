import Std.Data.ExtTreeMap

/-! # Symbol tables

The symbols of a program by name.  A symbol gets the next ordinal when its name first comes up and
keeps it from then on; what changes is its kind.

The map is ordered by name.  A table that is read from elsewhere may hold a symbol under a name
other than its own and may repeat ordinals; `toList` then gives symbols of the same ordinal in the
order of the names they are held under. -/

namespace X64Asm

/-- How a symbol is linked. -/
inductive SymbolKind where
  | normal
  | imported
  | exported
  deriving DecidableEq, Repr

/-- The word for a kind of symbol. -/
def SymbolKind.render : SymbolKind → String
  | normal => "Normal"
  | imported => "Imported"
  | exported => "Exported"

/-- A name with its ordinal and its kind. -/
structure Symbol where
  name : String
  index : Nat
  kind : SymbolKind
  deriving DecidableEq, Repr

/-- The symbols of a program. -/
structure SymbolTable where
  symbols : Std.ExtTreeMap String Symbol := ∅
  deriving DecidableEq, Repr

namespace SymbolTable

/-- The symbol held under a name. -/
def get? (t : SymbolTable) (name : String) : Option Symbol := t.symbols[name]?

/-- The number of symbols. -/
def size (t : SymbolTable) : Nat := t.symbols.size

/-- The symbols by ordinal. -/
def toList (t : SymbolTable) : List Symbol :=
  (t.symbols.toList.map (·.2)).mergeSort fun a b => a.index ≤ b.index

/-- The symbol held under a name, or else a new one. -/
def getOrNew (t : SymbolTable) (name : String) : Symbol :=
  (t.get? name).getD ⟨name, t.size, .normal⟩

/-- Puts a symbol under a name. -/
def insert (t : SymbolTable) (name : String) (symbol : Symbol) : SymbolTable :=
  ⟨t.symbols.insert name symbol⟩

@[simp] theorem get?_insert (t : SymbolTable) (name other : String) (symbol : Symbol) :
    (t.insert name symbol).get? other = if name = other then some symbol else t.get? other := by
  simp [get?, insert, Std.ExtTreeMap.getElem?_insert]

/-- Makes a name known. -/
def intern (t : SymbolTable) (name : String) : SymbolTable :=
  if name ∈ t.symbols then t else t.insert name (t.getOrNew name)

/-- Makes a name known as a symbol of the given kind. -/
def declare (t : SymbolTable) (name : String) (kind : SymbolKind) : SymbolTable :=
  t.insert name { t.getOrNew name with kind }

/-- Replaces the symbol under its own name; the ordinal is that of the name. -/
def update (t : SymbolTable) (symbol : Symbol) : SymbolTable :=
  t.insert symbol.name { symbol with index := (t.getOrNew symbol.name).index }

end SymbolTable

end X64Asm
