import X64Asm.Bytes
import X64Asm.Operand

/-! # Dumps of values

The text of a value in trace messages, which shows how the value is built: strings in quotes,
records with their fields, lists in brackets. -/

namespace X64Asm.Dump

/-- The digits of a number in lower-case hexadecimal. -/
def hex (n : Nat) : String := String.ofList (Nat.toDigits 16 n)

/-- An offset: `0x` and at least four hexadecimal digits. -/
def offset (n : Nat) : String :=
  "0x" ++ String.ofList (List.replicate (4 - (hex n).length) '0') ++ hex n

/-- A character of a quoted string.  Quotes, backslashes and control characters are escaped; all
others are taken to be printable. -/
def character (c : Char) : String :=
  match c with
  | '\x22' => "\\\x22"
  | '\\' => "\\\\"
  | '\n' => "\\n"
  | '\r' => "\\r"
  | '\t' => "\\t"
  | '\x00' => "\\0"
  | c =>
    if c.toNat < 0x20 ∨ 0x7F ≤ c.toNat ∧ c.toNat < 0xA0 then
      "\\u\x7b" ++ hex c.toNat ++ "\x7d"
    else String.singleton c

/-- A string in quotes. -/
def quoted (s : String) : String := "\x22" ++ String.join (s.toList.map character) ++ "\x22"

/-- A list in brackets. -/
def list (items : List String) : String := "[" ++ ", ".intercalate items ++ "]"

/-- Bytes in hexadecimal. -/
def bytes (bs : Bytes) : String := list (bs.map Bytes.hexByte)

/-- A width. -/
def width : Width → String
  | .unsized => "None"
  | .byte => "Byte"
  | .word => "Word"
  | .dword => "Dword"
  | .qword => "Qword"

/-- A register. -/
def register (r : Register) : String :=
  "Register \x7b name: " ++ quoted r.name ++ ", size: " ++ width r.width ++ " \x7d"

/-- A constant. -/
def immediate (imm : Immediate) : String :=
  let head := match imm with
    | .imm8 _ => "Imm8"
    | .imm16 _ => "Imm16"
    | .imm32 _ => "Imm32"
    | .imm64 _ => "Imm64"
  head ++ "(" ++ imm.render ++ ")"

/-- An address. -/
def address : Address → String
  | .base r => "Register(" ++ register r ++ ")"
  | .displacement imm => "Displacement(" ++ immediate imm ++ ")"

/-- An operand. -/
def operand : Operand → String
  | .register r => "Register(" ++ register r ++ ")"
  | .memory a => "Memory(" ++ address a ++ ")"
  | .immediate imm => "Immediate(" ++ immediate imm ++ ")"

/-- An offset that may be missing. -/
def offset? : Option Nat → String
  | none => "None"
  | some n => "Some(" ++ toString n ++ ")"

end X64Asm.Dump
