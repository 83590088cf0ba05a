import X64Asm.Statement.Basic
import X64Asm.Statement.Segment

/-! # Reading statements

A statement is read from the segment of tokens that it fills.  Each reader takes its value off the
front; `complete` then asks that nothing is left over.  Reading stops at the first token that is out
of place, and the report names it. -/

namespace X64Asm

/-- The words for a token where another was hoped for. -/
def Token.found (t : Token) : String :=
  match t.kind with
  | .newline => "end of line"
  | .eof => "end of input"
  | _ => t.text

/-- The report of a token out of place. -/
def Token.unexpected (t : Token) (hoped : Expectation) : Diagnostic :=
  .complain (.expected hoped t.found) t.span

/-- The register that an identifier names. -/
def Token.register (t : Token) : Except Diagnostic Register :=
  match Register.parse? t.text with
  | some r => .ok r
  | none => .error (.complain (.notARegister t.text) t.span)

/-- The 64-bit constant that a number stands for.  The numbers from `2 ^ 63` up to `2 ^ 64` stand for
the negative constants of the same bits. -/
def Token.constant (t : Token) (value : Int) : Except Diagnostic Int64 :=
  if FitsSigned 64 value ∨ FitsUnsigned 64 value then .ok (Int64.ofInt value)
  else .error (.complain (.immediateTooWide value) t.span)

/-- The 32-bit displacement that a number stands for. -/
def Token.displacement (t : Token) (value : Int) : Except Diagnostic Int32 :=
  if FitsSigned 32 value then .ok (Int32.ofInt value)
  else .error (.complain (.displacementTooWide value) t.span)

/-- The address that stands between brackets. -/
def Token.address (t : Token) : Except Diagnostic Address :=
  match t.kind with
  | .ident => t.register.map .base
  | .number value => (t.displacement value).map fun disp => .displacement (.imm32 disp)
  | _ => .error (t.unexpected .registerOrDisplacement)

/-- The bytes of a value of a data directive.  A number may be written in the signed or in the
unsigned range of its width. -/
def Token.dataBytes (t : Token) (width : UInt8) : Except Diagnostic Bytes :=
  match t.kind with
  | .stringLit => .ok (Bytes.ofString t.text)
  | .number value =>
    if FitsSigned (8 * width.toNat) value ∨ FitsUnsigned (8 * width.toNat) value then
      .ok (Bytes.littleEndianInt width.toNat value)
    else .error (.dataOverflow value width t.span)
  | _ => .error (t.unexpected .numberOrString)

/-- The processor mode that a token names. -/
def Token.mode (t : Token) : Except Diagnostic UInt8 :=
  match t.kind with
  | .number 16 => .ok 16
  | .number 32 => .ok 32
  | .number 64 => .ok 64
  | _ => .error (.complain (.badMode t.text) t.span)

/-- The name that a token is. -/
def Token.name (t : Token) : Except Diagnostic String :=
  if t.kind = .ident then .ok t.text else .error (t.unexpected .identifier)

namespace Segment

/-- The value read, if nothing is left over. -/
def complete {α : Type} (rest : Segment) (value : α) : Except Diagnostic α :=
  match rest.tokens with
  | [] => .ok value
  | t :: _ => .error (t.unexpected .endOfLine)

/-- The one token of the segment, read by `f`. -/
def only {α : Type} (s : Segment) (f : Token → Except Diagnostic α) : Except Diagnostic α := do
  let value ← f s.head
  s.tail.complete value

/-- The operand that fills the segment. -/
def operand (s : Segment) : Except Diagnostic Operand :=
  match s.head.kind with
  | .number value => do
    let constant ← s.head.constant value
    s.tail.complete (.constant constant)
  | .ident => do
    let r ← s.head.register
    s.tail.complete (.register r)
  | .openBracket => do
    let address ← s.tail.head.address
    if s.tail.tail.head.kind = .closeBracket then s.tail.tail.tail.complete (.memory address)
    else .error (s.tail.tail.head.unexpected .closeBracket)
  | _ => .error (s.head.unexpected .operand)

/-- The operands that fill the segment, with commas between them. -/
def operands (s : Segment) : Except Diagnostic (List Operand) :=
  if s.tokens.isEmpty then .ok [] else (s.splitOn .comma).mapM operand

/-- The names that fill the segment, with commas between them. -/
def names (s : Segment) : Except Diagnostic (List String) :=
  (s.splitOn .comma).mapM (·.only Token.name)

/-- The data values that fill the segment, with commas between them. -/
def dataValues (s : Segment) (width : UInt8) : Except Diagnostic (List Bytes) :=
  (s.splitOn .comma).mapM (·.only (Token.dataBytes · width))

/-- The statement that a word introduces; the segment is what follows the word. -/
def statement (word : Token) (s : Segment) : Except Diagnostic Statement :=
  match Keyword.ofString? word.text.toLower with
  | some .mode => (s.only Token.mode).map .mode
  | some .enter => (s.only Token.name).map .enter
  | some .imports => s.names.map .imports
  | some .exports => s.names.map .exports
  | some (.data width) => (s.dataValues width).map .data
  | none => s.operands.map (.instruction word.text.toLower)

/-- The statements of a line: label definitions, then at most one other. -/
def lineStatements (stop : Token) : List Token → Except Diagnostic (List Statement)
  | [] => .ok []
  | t :: ts =>
    match t.kind with
    | .labelDef => (lineStatements stop ts).map (.label t.text :: ·)
    | .ident => (statement t ⟨ts, stop⟩).map fun s => [s]
    | _ => .error (t.unexpected .statement)

/-- The statements of all lines. -/
def statements (s : Segment) : Except Diagnostic (List Statement) :=
  ((s.splitOn .newline).mapM fun line => lineStatements line.stop line.tokens).map List.flatten

end Segment

/-- The statements of a token sequence. -/
def readStatements (tokens : List Token) : Except Diagnostic (List Statement) :=
  match Segment.ofTokens? tokens with
  | none => .ok []
  | some s => s.statements

end X64Asm
