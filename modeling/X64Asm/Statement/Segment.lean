import X64Asm.Token.Basic

/-! # Segments of a token sequence

A segment is a run of tokens together with the token at which it stops.  Whoever reads on past the
run is shown that token.

A token sequence is one segment, which stops at the first end mark.  It falls into lines, which
stop at line ends, and a line into arguments, which stop at commas.  The last part of a segment
stops where the whole does.  A sequence without an end mark stops at its own last token. -/

namespace X64Asm

/-- A run of tokens and the token at which it stops. -/
structure Segment where
  tokens : List Token
  stop : Token
  deriving DecidableEq, Repr

namespace Segment

/-- The token that comes next. -/
def head (s : Segment) : Token := s.tokens.headD s.stop

/-- What remains after the next token. -/
def tail (s : Segment) : Segment := ⟨s.tokens.tail, s.stop⟩

/-- The segment of a whole token sequence, up to its first end mark. -/
def ofTokens? (tokens : List Token) : Option Segment :=
  tokens.getLast?.map fun last =>
    ⟨tokens.takeWhile (·.kind ≠ .eof), (tokens.find? (·.kind = .eof)).getD last⟩

/-- The first part of a run that is cut at the tokens of a kind, and the other parts. -/
def cut (separator : TokenKind) (stop : Token) : List Token → Segment × List Segment
  | [] => (⟨[], stop⟩, [])
  | t :: ts =>
    let (first, others) := cut separator stop ts
    if t.kind = separator then (⟨[], t⟩, first :: others)
    else (⟨t :: first.tokens, first.stop⟩, others)

/-- The parts of a segment that is cut at the tokens of a kind; there is at least one. -/
def splitOn (separator : TokenKind) (s : Segment) : List Segment :=
  let (first, others) := cut separator s.stop s.tokens
  first :: others

theorem splitOn_ne_nil (separator : TokenKind) (s : Segment) : s.splitOn separator ≠ [] :=
  List.cons_ne_nil _ _

end Segment

end X64Asm
