import X64Asm.Word

/-! # Byte sequences

Machine code and object files are lists of bytes.  A number is laid out in a fixed count of
bytes, the least significant byte first; what does not fit is cut off.

* `Bytes.littleEndian` lays out a natural number, `Bytes.littleEndianInt` an integer in two's
  complement.
* `Bytes.toNat` reads such a sequence back.
* `Bytes.ofString` is a text in UTF-8.
* `Bytes.hexByte` writes one byte as two upper-case hexadecimal digits. -/

namespace X64Asm

/-- A sequence of bytes. -/
abbrev Bytes := List UInt8

namespace Bytes

/-- The `width` low-order bytes of `value`, least significant first. -/
def littleEndian : (width value : Nat) → Bytes
  | 0, _ => []
  | width + 1, value => UInt8.ofNat value :: littleEndian width (value / 256)

/-- The two's complement of `value` in `width` bytes, least significant first. -/
def littleEndianInt (width : Nat) (value : Int) : Bytes :=
  littleEndian width (value % wordCount (8 * width)).toNat

/-- The number that the bytes spell, least significant first. -/
def toNat : Bytes → Nat
  | [] => 0
  | b :: bs => b.toNat + 256 * toNat bs

@[simp] theorem length_littleEndian (width value : Nat) :
    (littleEndian width value).length = width := by
  induction width generalizing value with
  | zero => rfl
  | succ width ih => simp [littleEndian, ih]

@[simp] theorem length_littleEndianInt (width : Nat) (value : Int) :
    (littleEndianInt width value).length = width := by
  simp [littleEndianInt]

/-- Reading back what was laid out gives the number, up to the part that was cut off. -/
theorem toNat_littleEndian (width value : Nat) :
    toNat (littleEndian width value) = value % wordCount (8 * width) := by
  induction width generalizing value with
  | zero => simp [littleEndian, toNat, wordCount, Nat.mod_one]
  | succ width ih =>
    have low : (UInt8.ofNat value).toNat = value % 256 := UInt8.toNat_ofNat'
    have grow : wordCount (8 * (width + 1)) = 256 * wordCount (8 * width) :=
      wordCount_add_eight (8 * width)
    rw [littleEndian, toNat, ih, low, grow, Nat.mod_mul]

/-- The bytes of a text in UTF-8. -/
def ofString (text : String) : Bytes := text.toList.flatMap String.utf8EncodeChar

/-- One upper-case hexadecimal digit. -/
def hexDigit (n : Nat) : Char :=
  if n < 10 then Char.ofNat (48 + n) else Char.ofNat (55 + n)

/-- A byte as two hexadecimal digits. -/
def hexByte (b : UInt8) : String :=
  String.ofList [hexDigit (b.toNat / 16), hexDigit (b.toNat % 16)]

end Bytes

end X64Asm
