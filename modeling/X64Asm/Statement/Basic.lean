import X64Asm.Bytes
import X64Asm.Operand

/-! # Statements

What one line of source text says.  A line may define labels and then holds at most one other
statement, which a word in front introduces: a `Keyword`, or else the mnemonic of an instruction. -/

namespace X64Asm

/-- One statement of a source line. -/
inductive Statement where
  | label (name : String)
  /-- Sets the processor mode for the instructions that follow. -/
  | mode (bits : UInt8)
  /-- Begins a stretch of the named section. -/
  | enter (name : String)
  | imports (names : List String)
  | exports (names : List String)
  /-- Data, one run of bytes for each value. -/
  | data (values : List Bytes)
  | instruction (mnemonic : String) (operands : List Operand)
  deriving DecidableEq, Repr

/-- A word that introduces a statement other than an instruction. -/
inductive Keyword where
  | mode
  | enter
  | imports
  | exports
  /-- Data whose numbers take the given number of bytes. -/
  | data (width : UInt8)
  deriving DecidableEq, Repr

/-- The keyword that a word in lower case is. -/
def Keyword.ofString? : String → Option Keyword
  | "bits" => some mode
  | "section" | "segment" => some enter
  | "extern" => some imports
  | "global" => some exports
  | "db" => some (data 1)
  | "dw" => some (data 2)
  | "dd" => some (data 4)
  | "dq" => some (data 8)
  | _ => none

end X64Asm
