import X64Asm.Width
import X64Asm.Word

/-! # Immediates

Signed constants of a definite width.  A constant written in a program gets the narrowest width
that holds it (`fit`); `widen` goes to the next width and keeps the value. -/

namespace X64Asm

/-- A signed constant of 8, 16, 32 or 64 bits. -/
inductive Immediate where
  | imm8 (value : Int8)
  | imm16 (value : Int16)
  | imm32 (value : Int32)
  | imm64 (value : Int64)
  deriving DecidableEq, Repr

namespace Immediate

/-- The constant as an integer. -/
def value : Immediate → Int
  | imm8 v => v.toInt
  | imm16 v => v.toInt
  | imm32 v => v.toInt
  | imm64 v => v.toInt

/-- The width of the constant. -/
def width : Immediate → Width
  | imm8 _ => .byte
  | imm16 _ => .word
  | imm32 _ => .dword
  | imm64 _ => .qword

/-- The narrowest constant of the given value. -/
def fit (v : Int64) : Immediate :=
  if FitsSigned 8 v.toInt then imm8 v.toInt8
  else if FitsSigned 16 v.toInt then imm16 v.toInt16
  else if FitsSigned 32 v.toInt then imm32 v.toInt32
  else imm64 v

/-- The same value at the next width; 64 bits is the last. -/
def widen : Immediate → Immediate
  | imm8 v => imm16 v.toInt16
  | imm16 v => imm32 v.toInt32
  | imm32 v => imm64 v.toInt64
  | imm64 v => imm64 v

/-- How often the constant can be widened. -/
def room : Immediate → Nat
  | imm8 _ => 3
  | imm16 _ => 2
  | imm32 _ => 1
  | imm64 _ => 0

/-- Whether there is a next width. -/
def canWiden (imm : Immediate) : Bool := imm.width ≠ .qword

/-- The constant in decimal. -/
def render (imm : Immediate) : String := toString imm.value

@[simp] theorem value_widen (imm : Immediate) : imm.widen.value = imm.value := by
  cases imm <;> simp [widen, value]

/-- Each widening uses up one of the widths that are left. -/
theorem room_widen {imm : Immediate} (h : imm.canWiden = true) :
    imm.widen.room + 1 = imm.room := by
  cases imm <;> simp_all [canWiden, width, widen, room]

/-- The value lies in the range of the width. -/
theorem fits_width (imm : Immediate) : FitsSigned imm.width.bits imm.value := by
  cases imm with
  | imm8 v => exact ⟨v.le_toInt, v.toInt_lt⟩
  | imm16 v => exact ⟨v.le_toInt, v.toInt_lt⟩
  | imm32 v => exact ⟨v.le_toInt, v.toInt_lt⟩
  | imm64 v => exact ⟨v.le_toInt, v.toInt_lt⟩

end Immediate

end X64Asm
