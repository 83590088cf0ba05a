import X64Asm.Listing.Basic
import X64Asm.MachineCode.Encode
import X64Asm.ObjectFile.Image

/-! # The assembler's state

An assembler holds the code and labels put out so far, the symbols met, and how many statements and
labels it has been given, failed ones included.  Options and limits can be changed between steps.

A finished assembler gives an `Assembly`: the code, its labels and its symbols. -/

namespace X64Asm

/-- Bounds on what an assembler takes and gives. -/
structure Limits where
  statements : Nat := 1000000
  labels : Nat := 100000
  outputBytes : Nat := 16 * 1024 * 1024
  sourceBytes : Nat := 64 * 1024 * 1024
  deriving DecidableEq, Repr

/-- What changes the outcome of assembling. -/
structure Options where
  imm16 : Imm16Layout := .fourBytes
  /-- Whether data directives put out their bytes. -/
  emitData : Bool := false
  limits : Limits := {}
  deriving DecidableEq, Repr

/-- A program being assembled. -/
structure Assembler where
  options : Options := {}
  code : Array UInt8 := #[]
  labels : Array (String × Nat) := #[]
  symbols : SymbolTable := {}
  /-- The number of section entries given. -/
  statementCount : Nat := 0
  /-- The number of labels given. -/
  labelCount : Nat := 0
  deriving DecidableEq, Repr

/-- An assembled program. -/
structure Assembly where
  bytes : Bytes
  labels : List (String × Nat)
  symbols : SymbolTable
  deriving DecidableEq, Repr

namespace Assembly

/-- The offset of the first label of the given name. -/
def labelAddress? (a : Assembly) (name : String) : Option Nat :=
  X64Asm.labelAddress? a.labels name

/-- The object file of the program. -/
def objectFile (a : Assembly) : ObjectFile := .make a.bytes a.labels a.symbols

end Assembly

namespace Assembler

/-- Whether putting out more bytes would pass the limit. -/
def outputFull (s : Assembler) (more : Nat) : Bool :=
  s.options.limits.outputBytes < s.code.size + more

/-- The report of a passed output limit. -/
def outputExhausted (s : Assembler) : Diagnostic :=
  .exhausted .outputBytes s.options.limits.outputBytes

/-- The assembled program.  The limit on the output may have been lowered since it was put out. -/
def finish (s : Assembler) : Except Diagnostic Assembly :=
  if s.outputFull 0 then .error s.outputExhausted
  else .ok ⟨s.code.toList, s.labels.toList, s.symbols⟩

end Assembler

end X64Asm
