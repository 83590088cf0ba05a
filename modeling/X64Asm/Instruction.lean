import X64Asm.Operand

/-! # Instructions

A mnemonic with its operands, and the processor mode in which it was written. -/

namespace X64Asm

/-- One instruction of a program. -/
structure Instruction where
  bits : UInt8
  mnemonic : String
  operands : List Operand
  deriving DecidableEq, Repr

namespace Instruction

/-- A 64-bit instruction; the mnemonic may be in any mix of upper and lower case. -/
def make (mnemonic : String) (operands : List Operand) : Instruction :=
  ⟨64, mnemonic.toLower, operands⟩

/-- The instruction as it is written in a program: mnemonic, blank, operands with commas. -/
def render (i : Instruction) : String :=
  match i.operands with
  | [] => i.mnemonic
  | _ :: _ => i.mnemonic ++ " " ++ ", ".intercalate (i.operands.map Operand.render)

end Instruction

end X64Asm
