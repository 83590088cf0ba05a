import X64Asm.Diagnostic
import X64Asm.SortedTable
import X64Asm.Width

/-! # Registers

The general-purpose registers by name.  A name stands for a number, which the encoder splits into
three low bits and an extension bit, and for a width.  The bytes above and beside each other
(`ah`, `spl`) share numbers, so a number and a width do not determine a name. -/

namespace X64Asm

/-- A register operand: a name and the width it is used at. -/
structure Register where
  name : String
  width : Width
  deriving DecidableEq, Repr

namespace Register

/-- The number that the machine knows a register by. -/
abbrev Number := Fin 16

namespace Number

/-- The three bits of the number that a field of an instruction holds. -/
def lowBits (n : Number) : Nat := n.val % 8

/-- Whether the number needs the extension bit beside the three low ones. -/
def isExtended (n : Number) : Bool := 8 ≤ n.val

end Number

/-- What a register name stands for. -/
structure Code where
  number : Number
  width : Width
  deriving DecidableEq, Repr

/-- The registers of the machine. -/
def table : SortedTable Code where
  rows := #[
    ("ah", ⟨4, .byte⟩), ("al", ⟨0, .byte⟩), ("ax", ⟨0, .word⟩), ("bh", ⟨7, .byte⟩),
    ("bl", ⟨3, .byte⟩), ("bp", ⟨5, .word⟩), ("bpl", ⟨5, .byte⟩), ("bx", ⟨3, .word⟩),
    ("ch", ⟨5, .byte⟩), ("cl", ⟨1, .byte⟩), ("cx", ⟨1, .word⟩), ("dh", ⟨6, .byte⟩),
    ("di", ⟨7, .word⟩), ("dil", ⟨7, .byte⟩), ("dl", ⟨2, .byte⟩), ("dx", ⟨2, .word⟩),
    ("eax", ⟨0, .dword⟩), ("ebp", ⟨5, .dword⟩), ("ebx", ⟨3, .dword⟩), ("ecx", ⟨1, .dword⟩),
    ("edi", ⟨7, .dword⟩), ("edx", ⟨2, .dword⟩), ("esi", ⟨6, .dword⟩), ("esp", ⟨4, .dword⟩),
    ("r10", ⟨10, .qword⟩), ("r10b", ⟨10, .byte⟩), ("r10d", ⟨10, .dword⟩), ("r10l", ⟨10, .byte⟩),
    ("r10w", ⟨10, .word⟩), ("r11", ⟨11, .qword⟩), ("r11b", ⟨11, .byte⟩), ("r11d", ⟨11, .dword⟩),
    ("r11l", ⟨11, .byte⟩), ("r11w", ⟨11, .word⟩), ("r12", ⟨12, .qword⟩), ("r12b", ⟨12, .byte⟩),
    ("r12d", ⟨12, .dword⟩), ("r12l", ⟨12, .byte⟩), ("r12w", ⟨12, .word⟩), ("r13", ⟨13, .qword⟩),
    ("r13b", ⟨13, .byte⟩), ("r13d", ⟨13, .dword⟩), ("r13l", ⟨13, .byte⟩), ("r13w", ⟨13, .word⟩),
    ("r14", ⟨14, .qword⟩), ("r14b", ⟨14, .byte⟩), ("r14d", ⟨14, .dword⟩), ("r14l", ⟨14, .byte⟩),
    ("r14w", ⟨14, .word⟩), ("r15", ⟨15, .qword⟩), ("r15b", ⟨15, .byte⟩), ("r15d", ⟨15, .dword⟩),
    ("r15l", ⟨15, .byte⟩), ("r15w", ⟨15, .word⟩), ("r8", ⟨8, .qword⟩), ("r8b", ⟨8, .byte⟩),
    ("r8d", ⟨8, .dword⟩), ("r8l", ⟨8, .byte⟩), ("r8w", ⟨8, .word⟩), ("r9", ⟨9, .qword⟩),
    ("r9b", ⟨9, .byte⟩), ("r9d", ⟨9, .dword⟩), ("r9l", ⟨9, .byte⟩), ("r9w", ⟨9, .word⟩),
    ("rax", ⟨0, .qword⟩), ("rbp", ⟨5, .qword⟩), ("rbx", ⟨3, .qword⟩), ("rcx", ⟨1, .qword⟩),
    ("rdi", ⟨7, .qword⟩), ("rdx", ⟨2, .qword⟩), ("rsi", ⟨6, .qword⟩), ("rsp", ⟨4, .qword⟩),
    ("si", ⟨6, .word⟩), ("sil", ⟨6, .byte⟩), ("sp", ⟨4, .word⟩), ("spl", ⟨4, .byte⟩)]

/-- The register that the text names, in any mix of upper and lower case. -/
def parse? (text : String) : Option Register :=
  (table.find? text.toLower).map fun code => ⟨text.toLower, code.width⟩

/-- The number of the register. -/
def number (r : Register) : Except Diagnostic Number :=
  match table.find? r.name with
  | some code => .ok code.number
  | none => .error (.unknownRegister r.name)

end Register

end X64Asm
