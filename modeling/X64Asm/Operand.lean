import X64Asm.Immediate
import X64Asm.Register

/-! # Operands

An operand is a register, a place in memory or a constant.  A place in memory is named by a base
register or by a displacement alone, and counts as 64 bits wide. -/

namespace X64Asm

/-- A place in memory. -/
inductive Address where
  | base (register : Register)
  | displacement (value : Immediate)
  deriving DecidableEq, Repr

/-- The address in brackets. -/
def Address.render : Address → String
  | base register => "[" ++ register.name ++ "]"
  | displacement value => "[" ++ value.render ++ "]"

/-- What an instruction works on. -/
inductive Operand where
  | register (register : Register)
  | memory (address : Address)
  | immediate (value : Immediate)
  deriving DecidableEq, Repr

namespace Operand

/-- Where the operand lives. -/
def kind : Operand → Kind
  | register _ => .register
  | memory _ => .memory
  | immediate _ => .immediate

/-- The width of the operand. -/
def width : Operand → Width
  | register r => r.width
  | memory _ => .qword
  | immediate imm => imm.width

/-- Whether the operand is a place in memory. -/
def isMemory : Operand → Bool
  | memory _ => true
  | _ => false

/-- The register that the operand mentions: itself, or the base of its address. -/
def base? : Operand → Option Register
  | register r | memory (.base r) => some r
  | _ => none

/-- The constant, if the operand is one. -/
def immediate? : Operand → Option Immediate
  | immediate imm => some imm
  | _ => none

/-- The operand as it is written in a program. -/
def render : Operand → String
  | register r => r.name
  | memory address => address.render
  | immediate imm => imm.render

/-- The constant of the given value, as narrow as it can be. -/
def constant (value : Int64) : Operand := .immediate (.fit value)

/-- The place in memory at a displacement, which is always held in 32 bits. -/
def atDisplacement (value : Int32) : Operand := .memory (.displacement (.imm32 value))

/-- The register that the text names. -/
def named? (text : String) : Option Operand := (Register.parse? text).map .register

end Operand

end X64Asm
