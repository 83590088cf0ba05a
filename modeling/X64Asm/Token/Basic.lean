import X64Asm.Source

/-! # Tokens

Source text is read as a sequence of tokens.  A token has a kind, a text, and the stretch of source
it was read from.  The text of a string is what stands between the quotes, the text of a label
definition is the name without its colon; all other tokens have the text as it was written.  A line
ends with a token of its own, and so does the source. -/

namespace X64Asm

/-- What a token is. -/
inductive TokenKind where
  | ident
  | number (value : Int)
  | stringLit
  | labelDef
  | comma
  | openBracket
  | closeBracket
  | newline
  | eof
  deriving DecidableEq, Repr

/-- One token of the source text. -/
structure Token where
  kind : TokenKind
  text : String
  span : Span
  deriving DecidableEq, Repr

end X64Asm
