import X64Asm.Json.Value

/-! # Lexemes of JSON text

A lexeme is read at the character it begins with, and says how many more characters belong to it.

* A number is taken for an integer if it is written without a fraction and without a power of ten
  and fits a word of 64 bits, signed or unsigned.  A zero with a sign is not taken for an integer.
* A string is a sequence of code units.  An escape may spell half of a character, and then the
  other half follows. -/

namespace X64Asm

namespace Json

/-- A lexeme of JSON text. -/
inductive Lexeme where
  | openArray
  | closeArray
  | openObject
  | closeObject
  | comma
  | colon
  | str (value : String)
  /-- A value that is neither a string nor made of others. -/
  | atom (value : Json)

namespace Lexeme

/-- A character between lexemes. -/
def isBlank (c : Char) : Bool := c = ' ' || c = '\t' || c = '\n' || c = '\r'

/-! ### Numbers -/

/-- A character of a number. -/
def isNumeric (c : Char) : Bool :=
  c.isDigit || c = '-' || c = '+' || c = '.' || c = 'e' || c = 'E'

/-- The number that decimal digits spell. -/
def natural (digits : List Char) : Nat :=
  digits.foldl (fun n c => 10 * n + (c.toNat - '0'.toNat)) 0

/-- Whether the characters are digits, and at least one. -/
def isNatural (cs : List Char) : Bool := !cs.isEmpty && cs.all Char.isDigit

/-- Whether the characters are a power of ten, or none. -/
def isScale : List Char → Bool
  | [] => true
  | e :: '+' :: cs | e :: '-' :: cs | e :: cs => (e = 'e' || e = 'E') && isNatural cs

/-- Whether the characters are a fraction and a power of ten, either of which may be missing. -/
def isFraction : List Char → Bool
  | '.' :: cs => isNatural (cs.takeWhile Char.isDigit) && isScale (cs.dropWhile Char.isDigit)
  | cs => isScale cs

/-- The value of an integer, if it is taken for one. -/
def integer? (negative : Bool) (digits : List Char) : Option Int :=
  let size := natural digits
  if negative then
    if size ≠ 0 ∧ FitsSigned 64 (-size) then some (-size) else none
  else if FitsUnsigned 64 size then some size else none

/-- The number of which the characters are the text. -/
def number? (text : List Char) : Option Json :=
  let negative := text.head? = some '-'
  let body := if negative then text.tail else text
  let digits := body.takeWhile Char.isDigit
  let rest := body.dropWhile Char.isDigit
  if digits.isEmpty || (digits.head? = some '0' && digits.length ≠ 1) then none
  else if rest.isEmpty then
    some (((integer? negative digits).map Json.int).getD (.real (String.ofList text)))
  else if isFraction rest then some (.real (String.ofList text))
  else none

/-! ### Strings -/

/-- The number of characters up to the quote that ends a string, of which `n` have been counted. -/
def contentLength (n : Nat) : List Char → Nat
  | [] => n
  | '\x22' :: _ => n
  | '\\' :: _ :: cs => contentLength (n + 2) cs
  | _ :: cs => contentLength (n + 1) cs

/-- The value of a hexadecimal digit. -/
def hexDigit? (c : Char) : Option Nat :=
  if c.isDigit then some (c.toNat - '0'.toNat)
  else if 'a' ≤ c ∧ c ≤ 'f' then some (c.toNat - 'a'.toNat + 10)
  else if 'A' ≤ c ∧ c ≤ 'F' then some (c.toNat - 'A'.toNat + 10)
  else none

/-- The code unit that four hexadecimal digits spell. -/
def hexUnit? (a b c d : Char) : Option Nat := do
  return 16 * (16 * (16 * (← hexDigit? a) + (← hexDigit? b)) + (← hexDigit? c)) + (← hexDigit? d)

/-- The character that is escaped by a single character. -/
def escaped? : Char → Option Char
  | '\x22' => some '\x22'
  | '\\' => some '\\'
  | '/' => some '/'
  | 'b' => some '\x08'
  | 'f' => some '\x0c'
  | 'n' => some '\n'
  | 'r' => some '\r'
  | 't' => some '\t'
  | _ => none

/-- The code units of a string's content, after those already read, which stand in reverse. -/
def units? (before : List Nat) : List Char → Option (List Nat)
  | [] => some before.reverse
  | '\\' :: 'u' :: a :: b :: c :: d :: cs =>
    match hexUnit? a b c d with
    | some unit => units? (unit :: before) cs
    | none => none
  | '\\' :: c :: cs =>
    match escaped? c with
    | some c => units? (c.toNat :: before) cs
    | none => none
  | c :: cs => if c < ' ' || c = '\\' then none else units? (c.toNat :: before) cs

/-- Whether a code unit is the first half of a character. -/
def isFirstHalf (unit : Nat) : Bool := 0xD800 ≤ unit && unit < 0xDC00

/-- Whether a code unit is the second half of a character. -/
def isSecondHalf (unit : Nat) : Bool := 0xDC00 ≤ unit && unit < 0xE000

/-- The characters that code units spell, after those already read, which stand in reverse.  A half
that stands alone spells none. -/
def characters? (before : List Char) : List Nat → Option (List Char)
  | [] => some before.reverse
  | unit :: units =>
    if isSecondHalf unit then none
    else if isFirstHalf unit then
      match units with
      | second :: units =>
        if isSecondHalf second then
          characters? (Char.ofNat (0x10000 + 0x400 * (unit - 0xD800) + (second - 0xDC00)) :: before)
            units
        else none
      | [] => none
    else characters? (Char.ofNat unit :: before) units

/-- The string whose opening quote has been read, and its length with the closing quote. -/
def string? (cs : List Char) : Option (String × Nat) := do
  let length := contentLength 0 cs
  if cs[length]? = some '\x22' then
    let units ← units? [] (cs.take length)
    let content ← characters? [] units
    return (String.ofList content, length + 1)
  else none

/-! ### All lexemes -/

/-- The value that a word stands for. -/
def word? (cs : List Char) : Option Json :=
  match String.ofList cs with
  | "null" => some .null
  | "true" => some (.bool true)
  | "false" => some (.bool false)
  | _ => none

/-- The lexeme that begins with `c` and goes on in `cs`, and the number of characters that it takes
of `cs`. -/
def read? (c : Char) (cs : List Char) : Option (Lexeme × Nat) :=
  match c with
  | '[' => some (openArray, 0)
  | ']' => some (closeArray, 0)
  | '\x7b' => some (openObject, 0)
  | '\x7d' => some (closeObject, 0)
  | ',' => some (comma, 0)
  | ':' => some (colon, 0)
  | '\x22' => (string? cs).map fun (value, more) => (str value, more)
  | c =>
    let more := cs.takeWhile (if isNumeric c then isNumeric else Char.isAlpha)
    let value? := if isNumeric c then number? (c :: more) else word? (c :: more)
    value?.map fun value => (atom value, more.length)

end Lexeme

end Json

end X64Asm
