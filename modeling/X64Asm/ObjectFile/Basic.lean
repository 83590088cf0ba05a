import X64Asm.Bytes
import X64Asm.SymbolTable

/-! # Object files

What an object file says: the code, and the symbols that linking is concerned with.  A symbol that
the program exports is defined at the offset of its first label, if it has one; all others are left
to be found elsewhere. -/

namespace X64Asm

/-- How far a symbol can be seen. -/
inductive Binding where
  | localScope
  | globalScope
  deriving DecidableEq, Repr

/-- The number of a binding. -/
def Binding.code : Binding → Nat
  | localScope => 0
  | globalScope => 1

/-- The binding of a kind of symbol. -/
def SymbolKind.binding : SymbolKind → Binding
  | normal => .localScope
  | imported | exported => .globalScope

/-- The offset of the first label of the given name. -/
def labelAddress? (labels : List (String × Nat)) (name : String) : Option Nat :=
  (labels.find? (·.1 = name)).map (·.2)

/-- Where in the code a symbol is defined. -/
def Symbol.definedAt? (symbol : Symbol) (labels : List (String × Nat)) : Option Nat :=
  match symbol.kind with
  | .exported => labelAddress? labels symbol.name
  | _ => none

/-- A symbol of an object file. -/
structure ObjectSymbol where
  name : String
  binding : Binding
  definedAt : Option Nat
  deriving DecidableEq, Repr

/-- Code with its symbols. -/
structure ObjectFile where
  code : Bytes
  symbols : List ObjectSymbol
  deriving DecidableEq, Repr

/-- The symbols of a table that linking is concerned with. -/
def SymbolTable.linked (t : SymbolTable) : List Symbol := t.toList.filter (·.kind ≠ .normal)

/-- The object file of assembled code. -/
def ObjectFile.make (code : Bytes) (labels : List (String × Nat)) (t : SymbolTable) : ObjectFile :=
  ⟨code, t.linked.map fun s => ⟨s.name, s.kind.binding, s.definedAt? labels⟩⟩

end X64Asm
