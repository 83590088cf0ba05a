import X64Asm.Diagnostic

/-! # Failures

An operation fails with a diagnostic about the program, or because an instruction outgrows the
buffer in which it is put together.  The second is kept apart from the first: it says nothing about
the program, and no program can bring it about through the built-in instruction forms. -/

namespace X64Asm

/-- Number of bytes that an instruction may take. -/
abbrev instructionCapacity : Nat := 24

/-- An attempt to put more bytes into an instruction than it may take. -/
inductive Overflow where
  /-- A single byte, when the instruction was full. -/
  | push
  /-- A run of `count` bytes after the first `size`. -/
  | append (size count : Nat)
  deriving DecidableEq, Repr

/-- The wording of an overflow. -/
def Overflow.message : Overflow → String
  | push => s!"InstrBytes overflow: cannot push beyond {instructionCapacity} bytes"
  | append size count =>
    s!"InstrBytes overflow: {size} + {count} exceeds {instructionCapacity}-byte capacity"

/-- Why an operation failed. -/
inductive Failure where
  | diagnostic (report : Diagnostic)
  | overflow (cause : Overflow)
  deriving DecidableEq, Repr

end X64Asm
