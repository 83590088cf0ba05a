import X64Asm.Form.Basic
import X64Asm.SortedTable

/-! # The built-in forms

The forms of each mnemonic in the order in which they are tried.  A form with an 8-bit constant
stands ahead of the wider ones, so short constants are encoded short. -/

namespace X64Asm.Form

/-! ### Slots -/

/-- A register of 16 bits. -/
def r16 : Slot := .typed .register .word
/-- A register of 32 bits. -/
def r32 : Slot := .typed .register .dword
/-- A register of 64 bits. -/
def r64 : Slot := .typed .register .qword
/-- Memory of 16 bits. -/
def m16 : Slot := .typed .memory .word
/-- Memory of 32 bits. -/
def m32 : Slot := .typed .memory .dword
/-- Memory of 64 bits. -/
def m64 : Slot := .typed .memory .qword
/-- A constant of 8 bits. -/
def imm8 : Slot := .typed .immediate .byte
/-- A constant of 16 bits. -/
def imm16 : Slot := .typed .immediate .word
/-- A constant of 32 bits. -/
def imm32 : Slot := .typed .immediate .dword

/-! ### Forms -/

/-- The forms of addition. -/
def add : List Form := [
  { opcode := [0x66, 0x83], slots := [r16, imm8] },
  { opcode := [0x83], slots := [r32, imm8] },
  { opcode := [0x83], slots := [r64, imm8], wide := true },
  { opcode := [0x04], slots := [.fixed "al" .byte, imm8] },
  { opcode := [0x66, 0x05], slots := [.fixed "ax" .word, imm16] },
  { opcode := [0x05], slots := [.fixed "eax" .dword, imm32] },
  { opcode := [0x05], slots := [.fixed "rax" .qword, imm32], wide := true },
  { opcode := [0x01], slots := [m64, r64], wide := true },
  { opcode := [0x01], slots := [m32, r32] },
  { opcode := [0x66, 0x01], slots := [m16, r16] },
  { opcode := [0x03], slots := [r64, m64], wide := true },
  { opcode := [0x03], slots := [r32, m32] },
  { opcode := [0x66, 0x03], slots := [r16, m16] }]

/-- The forms of a move. -/
def mov : List Form := [
  { opcode := [0xB8], slots := [r64, imm32], registerInOpcode := true },
  { opcode := [0x89], slots := [m64, r64], wide := true },
  { opcode := [0x8B], slots := [r64, m64], wide := true },
  { opcode := [0xC7], slots := [r64, imm32], wide := true },
  { opcode := [0xC7], slots := [r32, imm32] },
  { opcode := [0x66, 0xC7], slots := [r16, imm16] }]

/-- The forms of taking from the stack. -/
def pop : List Form := [
  { opcode := [0x66, 0x58], slots := [r16], registerInOpcode := true },
  { opcode := [0x58], slots := [r32], registerInOpcode := true },
  { opcode := [0x58], slots := [r64], registerInOpcode := true }]

/-- The forms of putting on the stack. -/
def push : List Form := [
  { opcode := [0x66, 0x50], slots := [r16], registerInOpcode := true },
  { opcode := [0x50], slots := [r32], registerInOpcode := true },
  { opcode := [0x50], slots := [r64], registerInOpcode := true },
  { opcode := [0x6A], slots := [imm8] },
  { opcode := [0x68], slots := [imm16] },
  { opcode := [0x68], slots := [imm32] }]

/-- The mnemonics with their forms. -/
def table : SortedTable (List Form) where
  rows := #[("add", add), ("mov", mov), ("pop", pop), ("push", push)]

/-- The forms of a mnemonic, none if it is not known. -/
def all (mnemonic : String) : List Form := (table.find? mnemonic).getD []

end X64Asm.Form
