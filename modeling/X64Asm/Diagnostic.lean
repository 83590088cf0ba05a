import X64Asm.Source

/-! # Diagnostics

What can be wrong with a program, as a value.

* A `Complaint` is the cause of a syntax error, an `Expectation` what the reader hoped to find.
* A `Resource` is a quantity that limits bound.
* A `Diagnostic` is the report that leaves the library.  It holds text, so that a report can be
  stored and read again without the program it was made from.

The wording of each message stands in one `message` function per type. -/

namespace X64Asm

/-- What the reader of a line hoped to find. -/
inductive Expectation where
  | statement
  | endOfLine
  | identifier
  | operand
  | numberOrString
  | registerOrDisplacement
  | closeBracket
  deriving DecidableEq, Repr

/-- The words for an expectation. -/
def Expectation.render : Expectation → String
  | statement => "statement"
  | endOfLine => "end of line"
  | identifier => "identifier"
  | operand => "operand"
  | numberOrString => "number or string"
  | registerOrDisplacement => "register or displacement"
  | closeBracket => "']'"

/-- The cause of a syntax error. -/
inductive Complaint where
  | unexpectedCharacter (c : Char)
  | unterminatedString
  | missingDigits (marker : String)
  | numberTooLarge (text : String)
  | hexNumberTooLarge (digits : String)
  | expected (what : Expectation) (found : String)
  | badMode (found : String)
  | notARegister (name : String)
  | immediateTooWide (value : Int)
  | displacementTooWide (value : Int)
  deriving DecidableEq, Repr

/-- The wording of a cause. -/
def Complaint.message : Complaint → String
  | unexpectedCharacter c => s!"unexpected character '{c}'"
  | unterminatedString => "unterminated string literal"
  | missingDigits marker => s!"expected digits after '{marker}'"
  | numberTooLarge text => s!"invalid number '{text}'"
  | hexNumberTooLarge digits => s!"invalid hex number '{digits}h'"
  | expected what found => s!"expected {what.render}, found '{found}'"
  | badMode found => s!"bits expects 16, 32 or 64, found '{found}'"
  | notARegister name => s!"'{name}' is not a register; symbol operands are not supported"
  | immediateTooWide value => s!"immediate {value} does not fit in 64 bits"
  | displacementTooWide value => s!"displacement {value} does not fit in 32 bits"

/-- A quantity that limits bound. -/
inductive Resource where
  | sourceBytes
  | statements
  | labels
  | outputBytes
  deriving DecidableEq, Repr

/-- The words for a resource. -/
def Resource.render : Resource → String
  | sourceBytes => "source bytes"
  | statements => "statements"
  | labels => "labels"
  | outputBytes => "output bytes"

/-- A report of what is wrong. -/
inductive Diagnostic where
  /-- No form of the mnemonic takes the operands. -/
  | noEncoding (instruction : String)
  /-- A register that the machine does not have. -/
  | unknownRegister (name : String)
  /-- A memory operand whose displacement cannot be written. -/
  | missingDisplacement (detail : String)
  /-- A node that does not stand on its own. -/
  | unsupportedNode (node : String)
  /-- Text that is no program. -/
  | malformed (message : String) (span : Span)
  /-- A value that is too wide for its data directive. -/
  | dataOverflow (value : Int) (size : UInt8) (span : Span)
  /-- More of a resource than the limits allow. -/
  | limitExceeded (resource : String) (limit : Nat)
  deriving DecidableEq, Repr

namespace Diagnostic

/-- The report of a syntax error. -/
def complain (complaint : Complaint) (span : Span) : Diagnostic :=
  malformed complaint.message span

/-- The report of a limit passed. -/
def exhausted (resource : Resource) (limit : Nat) : Diagnostic :=
  limitExceeded resource.render limit

/-- The wording of a report. -/
def message : Diagnostic → String
  | noEncoding instruction => s!"instruction `{instruction}` not supported"
  | unknownRegister name => s!"invalid register name '{name}'"
  | missingDisplacement detail => s!"missing displacement: {detail}"
  | unsupportedNode node => s!"unsupported AST node: {node}"
  | malformed text span => s!"{span.render}: syntax error: {text}"
  | dataOverflow value size span =>
    s!"{span.render}: value {value} does not fit in {size.toNat} byte(s)"
  | limitExceeded resource limit => s!"resource limit exceeded: {resource} (limit: {limit})"

/-- A report about a value that no source text can spell: its maker went wrong, not the program. -/
def isFatal : Diagnostic → Bool
  | unknownRegister _ | missingDisplacement _ => true
  | _ => false

/-- The stretch of source text that the report points at. -/
def span? : Diagnostic → Option Span
  | malformed _ span | dataOverflow _ _ span => some span
  | _ => none

end Diagnostic

end X64Asm
