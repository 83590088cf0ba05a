import X64Asm.Diagnostic
import X64Asm.Word

/-! # Numerals

The spellings of a natural number:

* a marker `0x`, `0b` or `0o`, in either case, and digits of that base;
* hexadecimal digits that begin with a decimal one, and a final `h` in either case;
* decimal digits.

The spellings are tried in this order.  Each takes as many digits as there are.  A value of `2 ^ 127`
or more is refused. -/

namespace X64Asm

/-- The base of a numeral. -/
inductive Base where
  | binary
  | octal
  | decimal
  | hexadecimal
  deriving DecidableEq, Repr

namespace Base

/-- The number of digits that the base has. -/
def radix : Base → Nat
  | binary => 2
  | octal => 8
  | decimal => 10
  | hexadecimal => 16

/-- The value of a digit in bases up to sixteen. -/
def digitValue? (c : Char) : Option Nat :=
  if '0' ≤ c ∧ c ≤ '9' then some (c.toNat - '0'.toNat)
  else if 'a' ≤ c ∧ c ≤ 'f' then some (c.toNat - 'a'.toNat + 10)
  else if 'A' ≤ c ∧ c ≤ 'F' then some (c.toNat - 'A'.toNat + 10)
  else none

/-- Whether the character is a digit of the base. -/
def isDigit (base : Base) (c : Char) : Bool :=
  (digitValue? c).any (· < base.radix)

/-- The number that the digits spell. -/
def value (base : Base) (digits : List Char) : Nat :=
  digits.foldl (fun n c => n * base.radix + (digitValue? c).getD 0) 0

/-- The base that the second character of a marker stands for. -/
def ofMark? : Char → Option Base
  | 'x' | 'X' => some hexadecimal
  | 'b' | 'B' => some binary
  | 'o' | 'O' => some octal
  | _ => none

/-- The marker in lower case; decimal numerals have none. -/
def marker : Base → String
  | hexadecimal => "0x"
  | binary => "0b"
  | octal => "0o"
  | decimal => ""

end Base

/-- A numeral at the beginning of a text: its value and the number of characters it takes. -/
structure Numeral where
  value : Nat
  length : Nat
  deriving DecidableEq, Repr

/-- A numeral that cannot be read: the cause and the number of characters it takes. -/
structure BadNumeral where
  complaint : Complaint
  length : Nat
  deriving DecidableEq, Repr

namespace Numeral

/-- The first value that is refused. -/
def bound : Nat := wordCount 127

/-- The numeral of the given value and length, if the value is within the bound. -/
def bounded (value length : Nat) (complaint : Complaint) : Except BadNumeral Numeral :=
  if value < bound then .ok ⟨value, length⟩ else .error ⟨complaint, length⟩

/-- Reads the digits after a marker. -/
def readMarked (base : Base) (cs : List Char) : Except BadNumeral Numeral :=
  let digits := cs.takeWhile base.isDigit
  if digits.isEmpty then .error ⟨.missingDigits base.marker, 2⟩
  else bounded (base.value digits) (2 + digits.length)
    (.numberTooLarge (base.marker ++ String.ofList digits))

/-- Reads a numeral without a marker. -/
def readPlain (cs : List Char) : Except BadNumeral Numeral :=
  let hex := cs.takeWhile Base.hexadecimal.isDigit
  let digits := cs.takeWhile Base.decimal.isDigit
  match cs[hex.length]? with
  | some 'h' | some 'H' =>
    bounded (Base.hexadecimal.value hex) (hex.length + 1) (.hexNumberTooLarge (String.ofList hex))
  | _ => bounded (Base.decimal.value digits) digits.length (.numberTooLarge (String.ofList digits))

/-- Reads the numeral at the beginning of a text that begins with a decimal digit. -/
def read (cs : List Char) : Except BadNumeral Numeral :=
  match cs with
  | '0' :: mark :: rest =>
    match Base.ofMark? mark with
    | some base => readMarked base rest
    | none => readPlain cs
  | _ => readPlain cs

end Numeral

end X64Asm
