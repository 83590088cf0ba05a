import X64Asm.Token.Basic
import X64Asm.Token.Numeral

/-! # Reading tokens

The source text is cut into pieces: runs of blanks, comments, and tokens.  `Piece.read` reads one
piece off the front and knows nothing of positions; `scan` puts the pieces at their places and keeps
the tokens.

A piece begins with a character at which reading stands, so it is never empty, and what remains is
shorter. -/

namespace X64Asm

/-- One piece of the source text. -/
structure Piece where
  /-- The kind of token that the piece is; none for blanks and comments. -/
  kind : Option TokenKind
  /-- The text of the token. -/
  text : String
  /-- The number of characters of the piece after its first. -/
  more : Nat
  deriving DecidableEq, Repr

/-- A piece that cannot be read. -/
structure BadPiece where
  complaint : Complaint
  /-- The number of bytes of the piece ahead of the stretch to be reported. -/
  skipped : Nat := 0
  /-- The number of bytes to be reported. -/
  len : Nat
  deriving DecidableEq, Repr

/-- The report of a piece that stands at `p`.  The line and column are those of the piece. -/
def BadPiece.report (bad : BadPiece) (p : Position) : Diagnostic :=
  .complain bad.complaint ⟨p.line, p.col, p.offset + bad.skipped, bad.len⟩

/-- A character between tokens. -/
def isBlank (c : Char) : Bool := c = ' ' || c = '\t' || c = '\r'

/-- A character that begins an identifier. -/
def isIdentStart (c : Char) : Bool := c.isAlpha || c = '_' || c = '.'

/-- A character that continues an identifier. -/
def isIdentRest (c : Char) : Bool := c.isAlphanum || c = '_' || c = '.'

/-- A character that begins and ends a string. -/
def isQuote (c : Char) : Bool := c = '\x22' || c = '\x27'

namespace Piece

/-- A token of one character. -/
def single (kind : TokenKind) (c : Char) : Piece := ⟨some kind, String.singleton c, 0⟩

/-- The string whose opening quote has been read.  It ends at the next quote of that sort, which
stands on the same line. -/
def readString (quote : Char) (cs : List Char) : Except BadPiece Piece :=
  let content := cs.takeWhile fun c => c ≠ quote && c ≠ '\n'
  if cs[content.length]? = some quote then
    .ok ⟨some .stringLit, String.ofList content, content.length + 1⟩
  else .error { complaint := .unterminatedString, len := 1 + byteLength content }

/-- The identifier that begins with `c`, or the label definition if a colon follows. -/
def readName (c : Char) (cs : List Char) : Piece :=
  let rest := cs.takeWhile isIdentRest
  let name := String.ofList (c :: rest)
  if cs[rest.length]? = some ':' then ⟨some .labelDef, name, rest.length + 1⟩
  else ⟨some .ident, name, rest.length⟩

/-- The number that begins with the digit `c`. -/
def readNumber (c : Char) (cs : List Char) : Except BadPiece Piece :=
  match Numeral.read (c :: cs) with
  | .ok n =>
    .ok ⟨some (.number n.value), String.ofList ((c :: cs).take n.length), n.length - 1⟩
  | .error bad => .error { complaint := bad.complaint, len := bad.length }

/-- The negative number whose sign has been read.  Of a faulty one the digits are reported. -/
def readNegative (cs : List Char) : Except BadPiece Piece :=
  match Numeral.read cs with
  | .ok n =>
    .ok ⟨some (.number (-n.value)), String.ofList ('-' :: cs.take n.length), n.length⟩
  | .error bad => .error { complaint := bad.complaint, skipped := 1, len := bad.length }

/-- Reads the piece that begins with `c` and goes on in `cs`. -/
def read (c : Char) (cs : List Char) : Except BadPiece Piece :=
  if isBlank c then .ok ⟨none, "", (cs.takeWhile isBlank).length⟩
  else if c = '\n' then .ok (single .newline c)
  else if c = ';' then .ok ⟨none, "", (cs.takeWhile (· ≠ '\n')).length⟩
  else if c = ',' then .ok (single .comma c)
  else if c = '[' then .ok (single .openBracket c)
  else if c = ']' then .ok (single .closeBracket c)
  else if isQuote c then readString c cs
  else if c.isDigit then readNumber c cs
  else if c = '-' && cs.head?.any Char.isDigit then readNegative cs
  else if isIdentStart c then .ok (readName c cs)
  else .error { complaint := .unexpectedCharacter c, len := c.utf8Size }

/-- The token that the piece is, put at its place. -/
def token? (piece : Piece) (p : Position) (len : Nat) : Option Token :=
  piece.kind.map fun kind => ⟨kind, piece.text, p.span len⟩

end Piece

/-- Reads the tokens of the text that begins at `p`.  The end of the text is a token too. -/
def scan (p : Position) (cs : List Char) : Except Diagnostic (List Token) :=
  match cs with
  | [] => .ok [⟨.eof, "", p.span 0⟩]
  | c :: cs =>
    match Piece.read c cs with
    | .error bad => .error (bad.report p)
    | .ok piece =>
      let chars := c :: cs.take piece.more
      match scan (p.advance chars) (cs.drop piece.more) with
      | .error report => .error report
      | .ok tokens => .ok ((piece.token? p (byteLength chars)).toList ++ tokens)
termination_by cs.length

/-- The tokens of a source text. -/
def tokenize (source : String) : Except Diagnostic (List Token) := scan {} source.toList

end X64Asm
