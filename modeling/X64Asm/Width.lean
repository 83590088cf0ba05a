/-! # Operand widths and kinds

The two attributes by which instruction forms tell operands apart.

* A `Width` is a number of bits: none, 8, 16, 32 or 64.
* A `Kind` says where the operand lives: in a register, in memory, in the instruction itself,
  or in one register that the form fixes by name.

Widths are ordered by their number of bits. -/

namespace X64Asm

/-- Width of an operand. -/
inductive Width where
  | unsized
  | byte
  | word
  | dword
  | qword
  deriving DecidableEq, Repr

namespace Width

/-- Number of bits. -/
def bits : Width → Nat
  | unsized => 0
  | byte => 8
  | word => 16
  | dword => 32
  | qword => 64

/-- The word for the width in running text. -/
def render : Width → String
  | unsized => "none"
  | byte => "byte"
  | word => "word"
  | dword => "dword"
  | qword => "qword"

instance : LE Width := ⟨fun a b => a.bits ≤ b.bits⟩

instance (a b : Width) : Decidable (a ≤ b) := inferInstanceAs (Decidable (a.bits ≤ b.bits))

end Width

/-- Where an operand lives. -/
inductive Kind where
  | register
  | memory
  | immediate
  | fixed
  deriving DecidableEq, Repr

end X64Asm
