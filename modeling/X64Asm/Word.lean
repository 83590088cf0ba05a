/-! # Ranges of machine words

A word of `n` bits has `2 ^ n` values (`wordCount`).  Read as a signed number it lies in
`FitsSigned n`, read as an unsigned number in `FitsUnsigned n`. -/

namespace X64Asm

/-- The number of values of a word. -/
def wordCount (bits : Nat) : Nat := Nat.pow 2 bits

/-- The signed numbers of a word. -/
def FitsSigned (bits : Nat) (v : Int) : Prop :=
  -(wordCount (bits - 1) : Int) ≤ v ∧ v < wordCount (bits - 1)

/-- The unsigned numbers of a word. -/
def FitsUnsigned (bits : Nat) (v : Int) : Prop := 0 ≤ v ∧ v < wordCount bits

instance (bits : Nat) (v : Int) : Decidable (FitsSigned bits v) :=
  inferInstanceAs (Decidable (_ ∧ _))

instance (bits : Nat) (v : Int) : Decidable (FitsUnsigned bits v) :=
  inferInstanceAs (Decidable (_ ∧ _))

theorem wordCount_succ (bits : Nat) : wordCount (bits + 1) = 2 * wordCount bits :=
  Nat.mul_comm (Nat.pow 2 bits) 2

/-- Eight more bits give 256 times as many values. -/
theorem wordCount_add_eight (bits : Nat) : wordCount (bits + 8) = 256 * wordCount bits := by
  simp only [wordCount_succ]
  omega

end X64Asm
