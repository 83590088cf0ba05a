/-! # Places in source text

A `Position` is a point of the text: line and column, both counted from one, and the offset,
counted from zero.  Columns and offsets count UTF-8 bytes.  A `Span` is a stretch of the text that
starts at a position and is a number of bytes long.

Lines and columns are words of 32 bits.  Behind the greatest of them counting goes on at zero. -/

namespace X64Asm

/-- A stretch of source text. -/
structure Span where
  line : UInt32
  col : UInt32
  offset : Nat
  len : Nat
  deriving DecidableEq, Repr

/-- Line and column, as they stand in front of a message. -/
def Span.render (s : Span) : String := s!"{s.line}:{s.col}"

/-- Number of bytes that the characters take. -/
def byteLength : List Char → Nat
  | [] => 0
  | c :: cs => c.utf8Size + byteLength cs

@[simp] theorem byteLength_append (cs ds : List Char) :
    byteLength (cs ++ ds) = byteLength cs + byteLength ds := by
  induction cs with
  | nil => simp [byteLength]
  | cons c cs ih => simp only [List.cons_append, byteLength, ih, Nat.add_assoc]

/-- A point of the source text. -/
structure Position where
  line : UInt32 := 1
  col : UInt32 := 1
  offset : Nat := 0
  deriving DecidableEq, Repr

namespace Position

/-- The point after a character. -/
def step (p : Position) (c : Char) : Position :=
  if c = '\n' then ⟨p.line + 1, 1, p.offset + 1⟩
  else ⟨p.line, p.col + UInt32.ofNat c.utf8Size, p.offset + c.utf8Size⟩

/-- The point after a run of characters. -/
def advance (p : Position) (cs : List Char) : Position := cs.foldl step p

/-- The stretch of `len` bytes from here. -/
def span (p : Position) (len : Nat) : Span := ⟨p.line, p.col, p.offset, len⟩

@[simp] theorem advance_nil (p : Position) : p.advance [] = p := rfl

@[simp] theorem advance_cons (p : Position) (c : Char) (cs : List Char) :
    p.advance (c :: cs) = (p.step c).advance cs := rfl

theorem advance_append (p : Position) (cs ds : List Char) :
    p.advance (cs ++ ds) = (p.advance cs).advance ds := List.foldl_append

@[simp] theorem offset_step (p : Position) (c : Char) :
    (p.step c).offset = p.offset + c.utf8Size := by
  unfold step
  split
  · next newline => rw [newline]; rfl
  · rfl

/-- The offset moves by the bytes read, whatever the lines. -/
theorem offset_advance (p : Position) (cs : List Char) :
    (p.advance cs).offset = p.offset + byteLength cs := by
  induction cs generalizing p with
  | nil => rfl
  | cons c cs ih => rw [advance_cons, ih, offset_step, byteLength, Nat.add_assoc]

end Position

end X64Asm
