import X64Asm.Proofs.SourcePlaces

/-! # Reading tokens by bytes

`Checked.tokenize` reads a text by offsets.  It has no result if it cuts the text within a character,
takes a difference below zero, negates a number so that the result is not one of 128 bits, or stands
still.  Lines and columns are counted in words, and what comes after the greatest word is a matter of
the `Counting`: there is no next one, or it is zero.

Where counting does not come to its end, or goes on at zero, the reader has a result for every text,
and this is what the text reads as (`Checked.tokenize_eq`).  Where it does come to its end there is
none (`Checked.tokenize_blanks`): a text of as many blanks as the greatest word says is too long by
one.

Between two pieces the offset is that of a character, and the line begins as far back as the column
says (`Cursor.at`).  Each piece is read there as it is among the characters (`readPiece_eq`); blanks
are read one by one here, which comes to the same (`scan_blank`). -/

namespace X64Asm

namespace Checked

/-! ### The reader -/

/-- The negative of a number, which has to be one of 128 bits. -/
def negative (n : Int) : Checked Int := guarded (FitsSigned 128 (-n)) (-n)

/-- Reads the digits after the marker that stands at `start`. -/
def readMarked (bytes : List Char) (base : Base) (start : Nat) :
    Checked (Except BadNumeral Numeral) := do
  let stop := skip bytes base.isDigit (start + 2)
  let digits ← between bytes (start + 2) stop
  let length ← minus stop start
  if digits.isEmpty then pure (.error ⟨.missingDigits base.marker, length⟩)
  else pure (Numeral.bounded (base.value digits) length
    (.numberTooLarge (base.marker ++ String.ofList digits)))

/-- Reads the numeral without a marker that stands at `start`. -/
def readPlain (bytes : List Char) (start : Nat) : Checked (Except BadNumeral Numeral) := do
  let hexStop := skip bytes Base.hexadecimal.isDigit start
  if bytes[hexStop]? = some 'h' ∨ bytes[hexStop]? = some 'H' then
    let digits ← between bytes start hexStop
    let length ← minus (hexStop + 1) start
    pure (Numeral.bounded (Base.hexadecimal.value digits) length
      (.hexNumberTooLarge (String.ofList digits)))
  else
    let stop := skip bytes Base.decimal.isDigit start
    let digits ← between bytes start stop
    let length ← minus stop start
    pure (Numeral.bounded (Base.decimal.value digits) length
      (.numberTooLarge (String.ofList digits)))

/-- Reads the numeral that stands at `start`. -/
def readNumeral (bytes : List Char) (start : Nat) : Checked (Except BadNumeral Numeral) :=
  if bytes[start]? = some '0' then
    match bytes[start + 1]?.bind Base.ofMark? with
    | some base => readMarked bytes base start
    | none => readPlain bytes start
  else readPlain bytes start

/-- How lines and columns are counted: behind the greatest word there is no next one, or it is
zero. -/
inductive Counting where
  | checked
  | wrapping
  deriving DecidableEq

/-- The next line or column. -/
def Counting.next (counting : Counting) (n : UInt32) : Checked UInt32 :=
  match counting with
  | checked => guarded (n.toNat + 1 < UInt32.size) (n + 1)
  | wrapping => pure (n + 1)

/-- Where the reader stands: an offset with its line and column, and the offset at which the line
begins. -/
structure Cursor where
  pos : Nat := 0
  line : UInt32 := 1
  col : UInt32 := 1
  lineStart : Nat := 0

namespace Cursor

variable (counting : Counting) (c : Cursor)

/-- The stretch from the cursor to an offset. -/
def span (stop : Nat) : Checked Span := do
  let len ← minus stop c.pos
  pure ⟨c.line, c.col, c.pos, len⟩

/-- The cursor behind a byte. -/
def step : Checked Cursor := do
  let col ← counting.next c.col
  pure { c with pos := c.pos + 1, col }

/-- The cursor behind the end of a line. -/
def newLine : Checked Cursor := do
  let line ← counting.next c.line
  pure ⟨c.pos + 1, line, 1, c.pos + 1⟩

/-- The cursor at an offset further on in the line.  The width is cut to a word. -/
def moveTo (pos : Nat) : Checked Cursor := do
  let width ← minus pos c.lineStart
  let col ← counting.next (UInt32.ofNat width)
  pure { c with pos, col }

end Cursor

section reader

variable (counting : Counting) (source : String) (c : Cursor)

/-- The token up to an offset, and the cursor behind it. -/
def token (kind : TokenKind) (text : String) (stop : Nat) : Checked (Option Token × Cursor) := do
  let span ← c.span stop
  let next ← c.moveTo counting stop
  pure (some ⟨kind, text, span⟩, next)

/-- Reads a token of one character. -/
def readSingle (kind : TokenKind) : Checked (Option Token × Cursor) := do
  let text ← stretch source c.pos (c.pos + 1)
  let next ← c.step counting
  pure (some ⟨kind, text, ⟨c.line, c.col, c.pos, 1⟩⟩, next)

/-- Reads a string. -/
def readString (quote : Char) : Checked (Option Token × Cursor) := do
  let stop := skip (units source.toList) (fun b => b ≠ quote && b ≠ '\n') (c.pos + 1)
  if (units source.toList)[stop]? = some quote then
    let last ← minus (stop + 1) 1
    let text ← stretch source (c.pos + 1) last
    token counting c .stringLit text (stop + 1)
  else
    let span ← c.span stop
    throw (.complain .unterminatedString span)

/-- Reads a number, whose sign is at the cursor if it is negative. -/
def readNumber (isNegative : Bool) : Checked (Option Token × Cursor) := do
  let start := if isNegative then c.pos + 1 else c.pos
  match ← readNumeral (units source.toList) start with
  | .error bad => throw (.complain bad.complaint ⟨c.line, c.col, start, bad.length⟩)
  | .ok n =>
    let value ← if isNegative then negative n.value else pure (n.value : Int)
    let text ← stretch source c.pos (start + n.length)
    token counting c (.number value) text (start + n.length)

/-- Reads an identifier or a label definition. -/
def readName : Checked (Option Token × Cursor) := do
  let stop := skip (units source.toList) isIdentRest c.pos
  let text ← stretch source c.pos stop
  if (units source.toList)[stop]? = some ':' then token counting c .labelDef text (stop + 1)
  else token counting c .ident text stop

/-- Reports the character at the cursor. -/
def reportCharacter : Checked (Option Token × Cursor) := do
  let rest ← stretch source c.pos (units source.toList).length
  let bad := rest.toList.headD '?'
  throw (.complain (.unexpectedCharacter bad) ⟨c.line, c.col, c.pos, bad.utf8Size⟩)

/-- Reads what begins with the byte `b` at the cursor: a token, a blank or a comment. -/
def readPiece (b : Char) : Checked (Option Token × Cursor) :=
  if isBlank b then do
    let next ← c.step counting
    pure (none, next)
  else if b = '\n' then do
    let next ← c.newLine counting
    pure (some ⟨.newline, "\n", ⟨c.line, c.col, c.pos, 1⟩⟩, next)
  else if b = ';' then do
    let next ← c.moveTo counting (skip (units source.toList) (· ≠ '\n') c.pos)
    pure (none, next)
  else if b = ',' then readSingle counting source c .comma
  else if b = '[' then readSingle counting source c .openBracket
  else if b = ']' then readSingle counting source c .closeBracket
  else if isQuote b then readString counting source c b
  else if b.isDigit then readNumber counting source c false
  else if b = '-' && (units source.toList)[c.pos + 1]?.any Char.isDigit then
    readNumber counting source c true
  else if isIdentStart b then readName counting source c
  else reportCharacter source c

/-- Reads the tokens from the cursor on. -/
def scan (c : Cursor) : Checked (List Token) := do
  match (units source.toList)[c.pos]? with
  | none => pure [⟨.eof, "", ⟨c.line, c.col, c.pos, 0⟩⟩]
  | some b =>
    let (token, next) ← readPiece counting source c b
    let ⟨_⟩ ← further (units source.toList).length c.pos next.pos
    let tokens ← scan next
    pure (token.toList ++ tokens)
termination_by (units source.toList).length - c.pos
decreasing_by omega

/-- Reads the tokens of a text. -/
def tokenize : Checked (List Token) := scan counting source {}

end reader

/-! ### Numerals -/

section numerals

variable {source : String} {pre cs : List Char}

theorem ascii_of_mem_digits {base : Base} {c : Char} (h : c ∈ cs.takeWhile base.isDigit) :
    c.toNat < 128 :=
  toNat_lt_of_isAlphanum (isAlphanum_of_isDigit (List.mem_takeWhile_imp h))

/-- The digits at a place are found by offsets as they are among the characters. -/
theorem digits_units (base : Base) (h : source.toList = pre ++ cs) :
    skip (units source.toList) base.isDigit (byteLength pre) =
      byteLength pre + (cs.takeWhile base.isDigit).length ∧
    between (units source.toList) (byteLength pre)
      (byteLength pre + (cs.takeWhile base.isDigit).length) = pure (cs.takeWhile base.isDigit) := by
  have hascii : ∀ c ∈ cs.takeWhile base.isDigit, c.toNat < 128 := fun c hc => ascii_of_mem_digits hc
  have huniform : Uniform base.isDigit :=
    .of_ascii fun c hc => toNat_lt_of_isAlphanum (isAlphanum_of_isDigit hc)
  have hsplit : source.toList = pre ++ cs.takeWhile base.isDigit ++ cs.dropWhile base.isDigit := by
    rw [h, List.append_assoc, List.takeWhile_append_dropWhile]
  have hbetween := between_units hsplit
  rw [units_of_ascii hascii, byteLength_of_ascii hascii] at hbetween
  refine ⟨?_, hbetween⟩
  rw [skip_units huniform h, byteLength_of_ascii hascii]

theorem readMarked_eq {mark : Char} (base : Base) (hmark : mark.toNat < 128)
    (h : source.toList = pre ++ '0' :: mark :: cs) :
    readMarked (units source.toList) base (byteLength pre) = pure (Numeral.readMarked base cs) := by
  have hplace : byteLength (pre ++ ['0', mark]) = byteLength pre + 2 := by
    rw [List.append_cons, byteLength_append, byteLength_append, byteLength_singleton hmark]
    rfl
  have hsplit : source.toList = (pre ++ ['0', mark]) ++ cs := by
    rw [h, List.append_assoc]
    rfl
  obtain ⟨hskip, hbetween⟩ := digits_units base hsplit
  rw [hplace] at hskip hbetween
  unfold readMarked Numeral.readMarked
  dsimp only
  rw [hskip, hbetween, pure_bind, Nat.add_assoc, minus_add, pure_bind]
  split
  · next hempty => rw [List.isEmpty_iff.mp hempty]; rfl
  · rfl

theorem readPlain_eq (h : source.toList = pre ++ cs) :
    readPlain (units source.toList) (byteLength pre) = pure (Numeral.readPlain cs) := by
  obtain ⟨hskip, hbetween⟩ := digits_units Base.hexadecimal h
  obtain ⟨hskip', hbetween'⟩ := digits_units Base.decimal h
  have hbehind : ∀ x : Char, x.toNat < 128 →
      ((units source.toList)[byteLength pre + (cs.takeWhile Base.hexadecimal.isDigit).length]? =
        some x ↔ cs[(cs.takeWhile Base.hexadecimal.isDigit).length]? = some x) := by
    intro x hx
    rw [← getElem?_behind Base.hexadecimal.isDigit h hx,
      byteLength_of_ascii fun c hc => ascii_of_mem_digits hc]
  rw [Numeral.readPlain_eq]
  unfold readPlain
  dsimp only
  rw [hskip, hskip']
  simp only [hbehind 'h' (by decide), hbehind 'H' (by decide)]
  split
  · rw [hbetween, pure_bind, Nat.add_assoc, minus_add, pure_bind]
  · rw [hbetween', pure_bind, minus_add, pure_bind]

theorem ascii_of_mark {mark : Char} {base : Base} (h : Base.ofMark? mark = some base) :
    mark.toNat < 128 := by
  unfold Base.ofMark? at h
  split at h
  all_goals first | decide | cases h

theorem ofMark?_head?_units (cs : List Char) :
    (units cs).head?.bind Base.ofMark? = cs.head?.bind Base.ofMark? := by
  have hiff : ∀ base, (units cs).head?.bind Base.ofMark? = some base ↔
      cs.head?.bind Base.ofMark? = some base := by
    intro base
    rw [Option.bind_eq_some_iff, Option.bind_eq_some_iff]
    constructor
    · rintro ⟨mark, hhead, hmark⟩
      exact ⟨mark, (head?_units_eq_some_iff (ascii_of_mark hmark)).mp hhead, hmark⟩
    · rintro ⟨mark, hhead, hmark⟩
      exact ⟨mark, (head?_units_eq_some_iff (ascii_of_mark hmark)).mpr hhead, hmark⟩
  exact Option.ext hiff

theorem readNumeral_eq (h : source.toList = pre ++ cs) :
    readNumeral (units source.toList) (byteLength pre) = pure (Numeral.read cs) := by
  have hfirst : (units source.toList)[byteLength pre]? = some '0' ↔ cs.head? = some '0' := by
    rw [getElem?_units h, head?_units_eq_some_iff (by decide)]
  unfold readNumeral
  by_cases hzero : cs.head? = some '0'
  · obtain ⟨rest, rfl⟩ : ∃ rest, cs = '0' :: rest := List.head?_eq_some_iff.mp hzero
    have hnext : (units source.toList)[byteLength pre + 1]? = (units rest).head? := by
      have hplace : byteLength (pre ++ ['0']) = byteLength pre + 1 := byteLength_append _ _
      rw [← hplace, getElem?_units (h.trans (List.append_cons ..))]
    rw [if_pos (hfirst.mpr hzero), hnext, ofMark?_head?_units]
    cases rest with
    | nil => exact readPlain_eq h
    | cons mark rest =>
        rw [List.head?_cons, Option.bind_some, Numeral.read]
        cases hmark : Base.ofMark? mark with
        | none => exact readPlain_eq h
        | some base => exact readMarked_eq base (ascii_of_mark hmark) h
  · have hplain : Numeral.read cs = Numeral.readPlain cs := by
      unfold Numeral.read
      split
      · exact absurd rfl hzero
      · rfl
    rw [if_neg fun hbyte => hzero (hfirst.mp hbyte), hplain]
    exact readPlain_eq h

theorem numeral_chars {n : Numeral} (h : Numeral.read cs = .ok n) :
    byteLength (cs.take n.length) = n.length ∧ '\n' ∉ cs.take n.length := by
  obtain ⟨_, hchars, _⟩ := Numeral.facts_of_read h
  have hle : n.length ≤ cs.length := Numeral.length_le_of_read h
  constructor
  · rw [byteLength_of_ascii fun c hc => toNat_lt_of_isAlphanum (hchars c hc),
      List.length_take_of_le hle]
  · intro hmem
    exact absurd (hchars '\n' hmem) (by decide)

end numerals

/-! ### Cursors -/

/-- Counting does not come to its end in the text. -/
def Counting.Suffices (counting : Counting) (source : String) : Prop :=
  counting = .checked → source.utf8ByteSize + 1 < UInt32.size

theorem Counting.next_ofNat {counting : Counting} {n : Nat}
    (h : counting = .checked → n + 1 < UInt32.size) :
    counting.next (UInt32.ofNat n) = pure (UInt32.ofNat (n + 1)) := by
  cases counting with
  | wrapping =>
      rw [UInt32.ofNat_add]
      rfl
  | checked =>
      have hfits : (UInt32.ofNat n).toNat + 1 < UInt32.size := by
        rw [UInt32.toNat_ofNat_of_lt' (Nat.lt_of_succ_lt (h rfl))]
        exact h rfl
      rw [next, guarded_eq hfits, UInt32.ofNat_add]
      rfl

/-- The cursor behind the characters ahead. -/
def Cursor.at (pre : List Char) : Cursor where
  pos := byteLength pre
  line := UInt32.ofNat (lineBehind (units pre))
  col := UInt32.ofNat (columnBehind (units pre))
  lineStart := byteLength pre + 1 - columnBehind (units pre)

theorem Cursor.pos_at (pre : List Char) : (Cursor.at pre).pos = byteLength pre := rfl

section cursors

variable {counting : Counting} {source : String} {pre cs rest : List Char}

theorem columnBehind_bounds (pre : List Char) :
    1 ≤ columnBehind (units pre) ∧ columnBehind (units pre) ≤ byteLength pre + 1 := by
  refine ⟨Nat.le_add_right _ _, ?_⟩
  rw [← length_units]
  exact columnBehind_le _

/-- There is a word for each place of the text. -/
theorem Counting.Suffices.ahead (hs : counting.Suffices source) (h : source.toList = pre ++ rest)
    (hchecked : counting = .checked) : byteLength pre + 1 < UInt32.size := by
  have hbytes := hs hchecked
  rw [← byteLength_toList, h, byteLength_append] at hbytes
  omega

theorem Counting.Suffices.column (hs : counting.Suffices source) (h : source.toList = pre ++ rest)
    (hchecked : counting = .checked) : columnBehind (units pre) < UInt32.size :=
  Nat.lt_of_le_of_lt (columnBehind_bounds pre).2 (hs.ahead h hchecked)

/-- There is a column behind a character of the text. -/
theorem Counting.Suffices.next_column {c : Char} (hs : counting.Suffices source)
    (h : source.toList = pre ++ c :: rest) (hchecked : counting = .checked) :
    columnBehind (units pre) + 1 < UInt32.size := by
  have hle := (columnBehind_bounds pre).2
  have hsize := c.utf8Size_pos
  have hahead := hs.ahead (h.trans (List.append_cons ..)) hchecked
  rw [byteLength_append] at hahead
  simp only [byteLength] at hahead
  omega

theorem Counting.Suffices.line (hs : counting.Suffices source) (h : source.toList = pre ++ rest)
    (hchecked : counting = .checked) : lineBehind (units pre) < UInt32.size := by
  have hle := lineBehind_le (units pre)
  rw [length_units] at hle
  exact Nat.lt_of_le_of_lt hle (hs.ahead h hchecked)

/-- Within a line the line does not begin anew. -/
theorem Cursor.at_line (hcs : '\n' ∉ cs) :
    Cursor.at (pre ++ cs) = { Cursor.at pre with
      pos := byteLength pre + byteLength cs,
      col := UInt32.ofNat (columnBehind (units pre) + byteLength cs) } := by
  unfold Cursor.at
  rw [byteLength_append, lineBehind_line pre hcs, columnBehind_line pre hcs]
  dsimp only
  congr 1
  omega

theorem Cursor.moveTo_at (hs : counting.Suffices source)
    (h : source.toList = pre ++ cs ++ rest) (hcs : '\n' ∉ cs) :
    (Cursor.at pre).moveTo counting (byteLength pre + byteLength cs) =
      pure (Cursor.at (pre ++ cs)) := by
  obtain ⟨hone, hle⟩ := columnBehind_bounds pre
  have hbound := hs.column h
  rw [columnBehind_line pre hcs] at hbound
  have hwidth : byteLength pre + byteLength cs - (byteLength pre + 1 - columnBehind (units pre)) + 1
      = columnBehind (units pre) + byteLength cs := by omega
  have hnext := Counting.next_ofNat (hwidth ▸ hbound)
  rw [hwidth] at hnext
  unfold moveTo minus
  rw [guarded_eq (by show byteLength pre + 1 - columnBehind (units pre) ≤ _; omega), pure_bind]
  show (counting.next _ >>= _) = _
  rw [Cursor.at_line hcs]
  exact (congrArg (· >>= _) hnext).trans (pure_bind _ _)

/-- Behind a character of ASCII within the line. -/
theorem Cursor.step_at {c : Char}
    (hnext : counting = .checked → columnBehind (units pre) + 1 < UInt32.size)
    (hc : c.toNat < 128) (hline : c ≠ '\n') :
    (Cursor.at pre).step counting = pure (Cursor.at (pre ++ [c])) := by
  have hcs : '\n' ∉ [c] := fun hmem => hline (List.mem_singleton.mp hmem).symm
  unfold step
  rw [Cursor.at_line hcs, byteLength_singleton hc]
  show (counting.next (UInt32.ofNat (columnBehind (units pre))) >>= _) = _
  rw [Counting.next_ofNat hnext, pure_bind]
  rfl

theorem Cursor.newLine_at (hs : counting.Suffices source)
    (h : source.toList = pre ++ ['\n'] ++ rest) :
    (Cursor.at pre).newLine counting = pure (Cursor.at (pre ++ ['\n'])) := by
  have hbound := hs.line h
  rw [lineBehind_newline] at hbound
  unfold newLine Cursor.at
  rw [lineBehind_newline, columnBehind_newline, byteLength_append, Counting.next_ofNat hbound,
    pure_bind]
  rfl

theorem Cursor.span_at (pre : List Char) (len : Nat) :
    (Cursor.at pre).span (byteLength pre + len) =
      pure ((({} : Position).advance pre).span len) := by
  unfold Cursor.span
  rw [Position.advance_start]
  show (minus (byteLength pre + len) (byteLength pre) >>= _) = _
  rw [minus_add, pure_bind]
  rfl

theorem token_at (hs : counting.Suffices source) (h : source.toList = pre ++ cs ++ rest)
    (hcs : '\n' ∉ cs) (kind : TokenKind) (text : String) :
    token counting (Cursor.at pre) kind text (byteLength pre + byteLength cs) =
      pure (some ⟨kind, text, (({} : Position).advance pre).span (byteLength cs)⟩,
        Cursor.at (pre ++ cs)) := by
  unfold token
  rw [Cursor.span_at, pure_bind, Cursor.moveTo_at hs h hcs, pure_bind]

end cursors

/-! ### Pieces -/

/-- What the reader gives for a piece behind the characters ahead, which is cut from the text there. -/
def placed (pre text : List Char) : Except BadPiece Piece → Checked (Option Token × Cursor)
  | .error bad => throw (bad.report (({} : Position).advance pre))
  | .ok piece =>
    let chars := text.take (piece.more + 1)
    pure (piece.token? (({} : Position).advance pre) (byteLength chars), Cursor.at (pre ++ chars))

section pieces

variable {counting : Counting} {source : String} {pre cs : List Char} {c : Char}

/-- A place of a report is that of the cursor. -/
theorem report_at (bad : BadPiece) (pre : List Char) :
    bad.report (({} : Position).advance pre) =
      .complain bad.complaint ⟨(Cursor.at pre).line, (Cursor.at pre).col,
        (Cursor.at pre).pos + bad.skipped, bad.len⟩ := by
  rw [Position.advance_start]
  rfl

/-- A token within a line, cut from the text as its characters. -/
theorem placed_ok {piece : Piece} {kind : TokenKind} {chars : List Char}
    (hs : counting.Suffices source) (h : source.toList = pre ++ cs)
    (hkind : piece.kind = some kind) (hchars : cs.take (piece.more + 1) = chars)
    (hline : '\n' ∉ chars) :
    placed pre cs (.ok piece) =
      token counting (Cursor.at pre) kind piece.text (byteLength pre + byteLength chars) := by
  have hparts : source.toList = pre ++ chars ++ cs.drop (piece.more + 1) := by
    rw [h, ← hchars, List.append_assoc, List.take_append_drop]
  rw [token_at hs hparts hline, placed, hchars, Piece.token?, hkind]
  rfl

section named

variable (hs : counting.Suffices source) (h : source.toList = pre ++ c :: cs)

include hs h

theorem readSingle_eq (hc : c.toNat < 128) (hline : c ≠ '\n') (kind : TokenKind) :
    readSingle counting source (Cursor.at pre) kind =
      placed pre (c :: cs) (.ok (.single kind c)) := by
  have hlen := byteLength_singleton hc
  have hparts := h.trans (List.append_cons ..)
  have htext : stretch source (byteLength pre) (byteLength pre + 1) =
      pure (String.singleton c) := by
    have hstretch := stretch_eq hparts
    rw [hlen] at hstretch
    exact hstretch
  unfold readSingle placed Piece.single
  show (stretch source (byteLength pre) (byteLength pre + 1) >>= _) = _
  rw [htext, pure_bind, Cursor.step_at (hs.next_column h) hc hline, pure_bind]
  show _ = pure (some (⟨kind, String.singleton c,
    (({} : Position).advance pre).span (byteLength [c])⟩ : Token), Cursor.at (pre ++ [c]))
  rw [hlen, Position.advance_start]
  rfl

theorem readString_eq (hc : c.toNat < 128) (hline : c ≠ '\n') :
    readString counting source (Cursor.at pre) c =
      placed pre (c :: cs) (Piece.readString c cs) := by
  have hlen := byteLength_singleton hc
  have hplace : byteLength (pre ++ [c]) = byteLength pre + 1 := by rw [byteLength_append, hlen]
  have hsplit : source.toList = (pre ++ [c]) ++ cs := h.trans (List.append_cons ..)
  have hskip := skip_units ((uniform_ne hc).and (uniform_ne (x := '\n') (by decide))) hsplit
  have hbehind := getElem?_behind (fun b => b ≠ c && b ≠ '\n') hsplit hc
  have htext := stretch_takeWhile (fun b => b ≠ c && b ≠ '\n') hsplit
  rw [hplace] at hskip hbehind htext
  have hfree : '\n' ∉ cs.takeWhile fun b => b ≠ c && b ≠ '\n' := by
    intro hmem
    have hsort := List.mem_takeWhile_imp hmem
    simp at hsort
  have htake := take_takeWhile (fun b => b ≠ c && b ≠ '\n') cs
  unfold readString Piece.readString
  dsimp only
  generalize cs.takeWhile (fun b => b ≠ c && b ≠ '\n') = content at *
  rw [Cursor.pos_at, hskip]
  by_cases hclosed : cs[content.length]? = some c
  · rw [if_pos (hbehind.mpr hclosed), if_pos hclosed]
    have hchars : (c :: cs).take (content.length + 1 + 1) = c :: (content ++ [c]) := by
      rw [List.take_succ_cons, List.take_add_one, htake, hclosed]
      rfl
    have hchars_len : byteLength (c :: (content ++ [c])) = 1 + byteLength content + 1 := by
      rw [← List.singleton_append, byteLength_append, byteLength_append, hlen, Nat.add_assoc]
    have hchars_free : '\n' ∉ c :: (content ++ [c]) := by
      simp [Ne.symm hline, hfree]
    rw [placed_ok hs h rfl hchars hchars_free, hchars_len, Nat.add_comm _ 1, minus_add, pure_bind,
      htext, pure_bind]
    congr 1
    omega
  · rw [if_neg fun hbyte => hclosed (hbehind.mp hbyte), if_neg hclosed, Nat.add_assoc,
      Cursor.span_at, pure_bind]
    rfl

theorem readName_eq (hstart : isIdentStart c = true) :
    readName counting source (Cursor.at pre) =
      placed pre (c :: cs) (.ok (Piece.readName c cs)) := by
  have hname : (c :: cs).takeWhile isIdentRest = c :: cs.takeWhile isIdentRest :=
    List.takeWhile_cons_of_pos (isIdentRest_of_isIdentStart hstart)
  have hskip := skip_units (.of_ascii fun d hd => ascii_of_isIdentRest hd) h
  have hbehind := getElem?_behind isIdentRest h (x := ':') (by decide)
  have htext := stretch_takeWhile isIdentRest h
  have hfree : '\n' ∉ (c :: cs).takeWhile isIdentRest := by
    intro hmem
    exact absurd (List.mem_takeWhile_imp hmem) (by decide)
  have htake := take_takeWhile isIdentRest cs
  rw [hname] at hskip hbehind htext hfree
  unfold readName Piece.readName
  dsimp only
  generalize cs.takeWhile isIdentRest = rest at *
  rw [List.length_cons, List.getElem?_cons_succ] at hbehind
  rw [Cursor.pos_at, hskip, htext, pure_bind]
  by_cases hcolon : cs[rest.length]? = some ':'
  · have hchars : (c :: cs).take (rest.length + 1 + 1) = (c :: rest) ++ [':'] := by
      rw [List.take_succ_cons, List.take_add_one, htake, hcolon]
      rfl
    have hchars_free : '\n' ∉ (c :: rest) ++ [':'] := by
      rw [List.mem_append, not_or]
      exact ⟨hfree, by decide⟩
    rw [if_pos (hbehind.mpr hcolon), if_pos hcolon, placed_ok hs h rfl hchars hchars_free,
      byteLength_append]
    rfl
  · have hchars : (c :: cs).take (rest.length + 1) = c :: rest := by
      rw [List.take_succ_cons, htake]
    rw [if_neg fun hbyte => hcolon (hbehind.mp hbyte), if_neg hcolon,
      placed_ok hs h rfl hchars hfree]

theorem readNumber_eq (hdigit : c.isDigit = true) :
    readNumber counting source (Cursor.at pre) false =
      placed pre (c :: cs) (Piece.readNumber c cs) := by
  have hnumeral := readNumeral_eq h
  unfold readNumber Piece.readNumber
  simp only [Bool.false_eq_true, if_false]
  rw [Cursor.pos_at, hnumeral, pure_bind]
  cases hread : Numeral.read (c :: cs) with
  | error bad =>
      rw [placed, report_at]
      rfl
  | ok n =>
      obtain ⟨hlen, hfree⟩ := numeral_chars hread
      have hpositive : 1 ≤ n.length := by
        apply (Numeral.facts_of_read hread).2.2
        rw [List.takeWhile_cons_of_pos]
        · exact List.cons_ne_nil _ _
        · exact decimal_isDigit hdigit
      have hsplit : source.toList = pre ++ (c :: cs).take n.length ++ (c :: cs).drop n.length := by
        rw [h, List.append_assoc, List.take_append_drop]
      have htext := stretch_eq hsplit
      rw [hlen] at htext
      have hchars : (c :: cs).take (n.length - 1 + 1) = (c :: cs).take n.length := by
        rw [Nat.sub_add_cancel hpositive]
      dsimp only
      rw [pure_bind, htext, pure_bind, placed_ok hs h rfl hchars hfree, hlen]

theorem readNegative_eq (hc : c = '-') :
    readNumber counting source (Cursor.at pre) true =
      placed pre (c :: cs) (Piece.readNegative cs) := by
  have hsplit : source.toList = (pre ++ [c]) ++ cs := h.trans (List.append_cons ..)
  have hlen : byteLength [c] = 1 := by rw [hc]; rfl
  have hnumeral := readNumeral_eq hsplit
  rw [byteLength_append, hlen] at hnumeral
  unfold readNumber Piece.readNegative
  simp only [if_true]
  rw [Cursor.pos_at, hnumeral, pure_bind]
  cases hread : Numeral.read cs with
  | error bad =>
      rw [placed, report_at]
      rfl
  | ok n =>
      obtain ⟨hnumlen, hfree⟩ := numeral_chars hread
      have hvalue : negative n.value = pure (-n.value : Int) := by
        have hbound := (Numeral.facts_of_read hread).1
        unfold Numeral.bound at hbound
        apply guarded_eq
        unfold FitsSigned
        rw [show 128 - 1 = 127 from rfl]
        omega
      have hcharslen : byteLength (c :: cs.take n.length) = 1 + n.length := by
        rw [← List.singleton_append, byteLength_append, hlen, hnumlen]
      have hparts : source.toList = pre ++ c :: cs.take n.length ++ cs.drop n.length := by
        rw [h, List.append_assoc, List.cons_append, List.take_append_drop]
      have htext := stretch_eq hparts
      rw [hcharslen, ← Nat.add_assoc] at htext
      have hchars_free : '\n' ∉ c :: cs.take n.length := by
        rw [List.mem_cons, not_or]
        exact ⟨by rw [hc]; decide, hfree⟩
      dsimp only
      rw [hvalue, pure_bind, htext, pure_bind,
        placed_ok hs h rfl (List.take_succ_cons ..) hchars_free, hcharslen, ← Nat.add_assoc, hc]

omit hs in
theorem reportCharacter_eq : reportCharacter source (Cursor.at pre) =
    placed pre (c :: cs) (.error { complaint := .unexpectedCharacter c, len := c.utf8Size }) := by
  have htext := stretch_eq (h.trans (List.append_nil _).symm)
  have hend : (units source.toList).length = byteLength pre + byteLength (c :: cs) := by
    rw [length_units, h, byteLength_append]
  unfold reportCharacter
  rw [Cursor.pos_at, hend, htext, pure_bind, String.toList_ofList, placed, report_at]
  rfl

theorem readComment_eq (hc : c = ';') :
    (do
      let next ← (Cursor.at pre).moveTo counting
        (skip (units source.toList) (· ≠ '\n') (byteLength pre))
      pure (none, next)) =
    placed pre (c :: cs) (.ok ⟨none, "", (cs.takeWhile (· ≠ '\n')).length⟩) := by
  have hcomment : (c :: cs).takeWhile (· ≠ '\n') = c :: cs.takeWhile (· ≠ '\n') :=
    List.takeWhile_cons_of_pos (by rw [hc]; decide)
  have hskip := skip_units (uniform_ne (x := '\n') (by decide)) h
  have hfree : '\n' ∉ (c :: cs).takeWhile (· ≠ '\n') := by
    intro hmem
    exact absurd (List.mem_takeWhile_imp hmem) (by decide)
  have hparts : source.toList =
      pre ++ (c :: cs).takeWhile (· ≠ '\n') ++ (c :: cs).dropWhile (· ≠ '\n') := by
    rw [h, List.append_assoc, List.takeWhile_append_dropWhile]
  have htake := take_takeWhile (· ≠ '\n') cs
  rw [hcomment] at hskip hfree hparts
  rw [hskip, Cursor.moveTo_at hs hparts hfree, pure_bind, placed]
  dsimp only
  rw [List.take_succ_cons, htake]
  rfl

theorem readNewline_eq (hc : c = '\n') :
    (do
      let next ← (Cursor.at pre).newLine counting
      pure (some ⟨.newline, "\n", ⟨(Cursor.at pre).line, (Cursor.at pre).col, byteLength pre, 1⟩⟩,
        next)) =
    placed pre (c :: cs) (.ok (.single .newline c)) := by
  subst hc
  rw [Cursor.newLine_at hs (h.trans (List.append_cons ..)), pure_bind, placed, Piece.token?,
    Position.advance_start]
  rfl

theorem readPiece_ascii (hc : c.toNat < 128) (hblank : ¬ isBlank c = true) :
    readPiece counting source (Cursor.at pre) c = placed pre (c :: cs) (Piece.read c cs) := by
  have hnext : (units source.toList)[(Cursor.at pre).pos + 1]?.any Char.isDigit =
      cs.head?.any Char.isDigit := by
    have hplace : byteLength (pre ++ [c]) = (Cursor.at pre).pos + 1 := by
      rw [byteLength_append, byteLength_singleton hc]
      rfl
    rw [← hplace, getElem?_units (h.trans (List.append_cons ..))]
    exact any_head?_units cs fun d hd => toNat_lt_of_isAlphanum (by simp [Char.isAlphanum, hd])
  unfold readPiece Piece.read
  rw [hnext, if_neg hblank, if_neg hblank]
  by_cases hnewline : c = '\n'
  · rw [if_pos hnewline, if_pos hnewline]
    exact readNewline_eq hs h hnewline
  rw [if_neg hnewline, if_neg hnewline]
  by_cases hsemicolon : c = ';'
  · rw [if_pos hsemicolon, if_pos hsemicolon]
    exact readComment_eq hs h hsemicolon
  rw [if_neg hsemicolon, if_neg hsemicolon]
  by_cases hcomma : c = ','
  · rw [if_pos hcomma, if_pos hcomma]
    exact readSingle_eq hs h hc hnewline .comma
  rw [if_neg hcomma, if_neg hcomma]
  by_cases hopen : c = '['
  · rw [if_pos hopen, if_pos hopen]
    exact readSingle_eq hs h hc hnewline .openBracket
  rw [if_neg hopen, if_neg hopen]
  by_cases hclose : c = ']'
  · rw [if_pos hclose, if_pos hclose]
    exact readSingle_eq hs h hc hnewline .closeBracket
  rw [if_neg hclose, if_neg hclose]
  by_cases hquote : isQuote c = true
  · rw [if_pos hquote, if_pos hquote]
    exact readString_eq hs h hc hnewline
  rw [if_neg hquote, if_neg hquote]
  by_cases hdigit : c.isDigit = true
  · rw [if_pos hdigit, if_pos hdigit]
    exact readNumber_eq hs h hdigit
  rw [if_neg hdigit, if_neg hdigit]
  by_cases hminus : (c = '-' && cs.head?.any Char.isDigit) = true
  · rw [if_pos hminus, if_pos hminus]
    rw [Bool.and_eq_true, decide_eq_true_eq] at hminus
    exact readNegative_eq hs h hminus.1
  rw [if_neg hminus, if_neg hminus]
  by_cases hstart : isIdentStart c = true
  · rw [if_pos hstart, if_pos hstart]
    exact readName_eq hs h hstart
  rw [if_neg hstart, if_neg hstart]
  exact reportCharacter_eq h

end named

/-- A character beyond ASCII is of no sort that the reader asks for. -/
theorem sorts_beyond (hc : 128 ≤ c.toNat) :
    isBlank c = false ∧ c ≠ '\n' ∧ c ≠ ';' ∧ c ≠ ',' ∧ c ≠ '[' ∧ c ≠ ']' ∧ isQuote c = false ∧
      c.isDigit = false ∧ c ≠ '-' ∧ isIdentStart c = false := by
  have hne : ∀ x : Char, x.toNat < 128 → c ≠ x := by
    rintro x hx rfl
    exact absurd hx (Nat.not_lt.mpr hc)
  have hsort : ∀ sort : Char → Bool, (sort c = true → c.toNat < 128) → sort c = false := by
    intro sort hsort
    rw [← Bool.not_eq_true]
    exact fun htrue => absurd (hsort htrue) (Nat.not_lt.mpr hc)
  refine ⟨?_, hne _ (by decide), hne _ (by decide), hne _ (by decide), hne _ (by decide),
    hne _ (by decide), ?_, ?_, hne _ (by decide), ?_⟩
  · simp [isBlank, hne ' ' (by decide), hne '\t' (by decide), hne '\r' (by decide)]
  · simp [isQuote, hne '\x22' (by decide), hne '\x27' (by decide)]
  · exact hsort _ fun h => toNat_lt_of_isAlphanum (by simp [Char.isAlphanum, h])
  · exact hsort _ fun h => ascii_of_isIdentRest (isIdentRest_of_isIdentStart h)

theorem readPiece_beyond (hc : 128 ≤ c.toNat) (cursor : Cursor) :
    readPiece counting source cursor c = reportCharacter source cursor := by
  obtain ⟨h1, h2, h3, h4, h5, h6, h7, h8, h9, h10⟩ := sorts_beyond hc
  simp [readPiece, h1, h2, h3, h4, h5, h6, h7, h8, h9, h10]

theorem read_beyond (hc : 128 ≤ c.toNat) (cs : List Char) :
    Piece.read c cs = .error { complaint := .unexpectedCharacter c, len := c.utf8Size } := by
  obtain ⟨h1, h2, h3, h4, h5, h6, h7, h8, h9, h10⟩ := sorts_beyond hc
  simp [Piece.read, h1, h2, h3, h4, h5, h6, h7, h8, h9, h10]

/-- Each piece but blanks is read by offsets as it is among the characters. -/
theorem readPiece_eq (hs : counting.Suffices source) (h : source.toList = pre ++ c :: cs)
    (hblank : ¬ isBlank c = true) :
    ∃ b, (units source.toList)[byteLength pre]? = some b ∧
      readPiece counting source (Cursor.at pre) b = placed pre (c :: cs) (Piece.read c cs) := by
  have hbyte := getElem?_units h
  rcases Nat.lt_or_ge c.toNat 128 with hc | hc
  · refine ⟨c, ?_, readPiece_ascii hs h hc hblank⟩
    rw [hbyte, units_cons_ascii hc, List.head?_cons]
  · obtain ⟨b, bs, hunits⟩ := List.exists_cons_of_ne_nil (units_ne_nil c)
    have hb : 128 ≤ b.toNat := le_of_mem_units hc (hunits ▸ List.mem_cons_self)
    refine ⟨b, ?_, ?_⟩
    · rw [hbyte, units_cons, hunits, List.cons_append, List.head?_cons]
    · rw [readPiece_beyond hb, read_beyond hc]
      exact reportCharacter_eq h

/-- A blank is a byte within the line. -/
theorem ascii_of_isBlank (h : isBlank c = true) : c.toNat < 128 ∧ c ≠ '\n' := by
  unfold isBlank at h
  rw [Bool.or_eq_true, Bool.or_eq_true, decide_eq_true_eq, decide_eq_true_eq,
    decide_eq_true_eq] at h
  rcases h with (rfl | rfl) | rfl <;> decide

theorem readPiece_blank
    (hnext : counting = .checked → columnBehind (units pre) + 1 < UInt32.size)
    (hblank : isBlank c = true) :
    readPiece counting source (Cursor.at pre) c = pure (none, Cursor.at (pre ++ [c])) := by
  obtain ⟨hc, hline⟩ := ascii_of_isBlank hblank
  rw [readPiece, if_pos hblank, Cursor.step_at hnext hc hline, pure_bind]

end pieces

/-! ### All tokens -/

section rounds

variable {counting : Counting} {source : String} {c next : Cursor} {b : Char}

theorem scan_end (h : (units source.toList)[c.pos]? = none) :
    scan counting source c = pure [⟨.eof, "", ⟨c.line, c.col, c.pos, 0⟩⟩] := by
  rw [scan, h]

theorem scan_throw {d : Diagnostic} (hb : (units source.toList)[c.pos]? = some b)
    (hread : readPiece counting source c b = throw d) : scan counting source c = throw d := by
  rw [scan, hb]
  dsimp only
  rw [hread]
  rfl

theorem scan_none (hb : (units source.toList)[c.pos]? = some b)
    (hread : readPiece counting source c b = ExceptT.mk none) :
    scan counting source c = ExceptT.mk none := by
  rw [scan, hb]
  dsimp only
  rw [hread]
  rfl

theorem scan_next {token : Option Token} (hb : (units source.toList)[c.pos]? = some b)
    (hread : readPiece counting source c b = pure (token, next)) (hlater : c.pos < next.pos)
    (hlast : next.pos ≤ (units source.toList).length) :
    scan counting source c =
      (do let tokens ← scan counting source next; pure (token.toList ++ tokens)) := by
  rw [scan, hb]
  dsimp only
  rw [hread, pure_bind]
  dsimp only
  rw [further_eq hlater hlast, pure_bind]

end rounds

section texts

variable {counting : Counting} {source : String} {pre cs : List Char}

/-- A piece ends behind its beginning and within the text. -/
theorem further_append {c : Char} {rest : List Char} (h : source.toList = pre ++ c :: cs ++ rest) :
    byteLength pre < byteLength (pre ++ c :: cs) ∧
      byteLength (pre ++ c :: cs) ≤ (units source.toList).length := by
  have hsize := c.utf8Size_pos
  rw [length_units, h, byteLength_append _ rest, byteLength_append, byteLength]
  omega

theorem scan_at_blank {c : Char}
    (hnext : counting = .checked → columnBehind (units pre) + 1 < UInt32.size)
    (h : source.toList = pre ++ c :: cs) (hblank : isBlank c = true) :
    scan counting source (Cursor.at pre) = scan counting source (Cursor.at (pre ++ [c])) := by
  have hb : (units source.toList)[(Cursor.at pre).pos]? = some c := by
    rw [Cursor.pos_at, getElem?_units h, units_cons_ascii (ascii_of_isBlank hblank).1,
      List.head?_cons]
  obtain ⟨hlater, hlast⟩ := further_append (h.trans (List.append_cons ..))
  rw [scan_next hb (readPiece_blank hnext hblank) hlater hlast]
  exact bind_pure _

theorem scan_eq (hs : counting.Suffices source) (h : source.toList = pre ++ cs) :
    scan counting source (Cursor.at pre) =
      ofExcept (X64Asm.scan (({} : Position).advance pre) cs) := by
  -- every piece shortens what is left
  induction hn : cs.length using Nat.strongRecOn generalizing pre cs with
  | ind n ih =>
    cases cs with
    | nil =>
        have hend : (units source.toList)[(Cursor.at pre).pos]? = none := by
          rw [Cursor.pos_at, getElem?_units h]
          rfl
        rw [scan_end hend, X64Asm.scan, Position.advance_start]
        rfl
    | cons c cs =>
        subst hn
        by_cases hblank : isBlank c = true
        · rw [scan_at_blank (hs.next_column h) h hblank, scan_blank hblank,
            ih cs.length (Nat.lt_succ_self _) (h.trans (List.append_cons ..)) rfl,
            Position.advance_append]
          rfl
        · obtain ⟨b, hb, hpiece⟩ := readPiece_eq hs h hblank
          rw [X64Asm.scan]
          cases hread : Piece.read c cs with
          | error bad =>
              rw [hread] at hpiece
              exact scan_throw hb hpiece
          | ok piece =>
              rw [hread] at hpiece
              have hshorter : (cs.drop piece.more).length < (c :: cs).length := by
                rw [List.length_drop, List.length_cons]
                omega
              have hparts :
                  source.toList = pre ++ c :: cs.take piece.more ++ cs.drop piece.more := by
                rw [h, List.append_assoc, List.cons_append, List.take_append_drop]
              obtain ⟨hlater, hlast⟩ := further_append hparts
              rw [scan_next hb hpiece hlater hlast, List.take_succ_cons, ih _ hshorter hparts rfl,
                Position.advance_append]
              dsimp only
              cases X64Asm.scan ((({} : Position).advance pre).advance (c :: cs.take piece.more))
                (cs.drop piece.more) <;> rfl

/-- Reading by offsets has a result for every text in which counting does not come to its end, and
it is what the text reads as. -/
theorem tokenize_eq (hs : counting.Suffices source) :
    tokenize counting source = ofExcept (X64Asm.tokenize source) :=
  scan_eq hs (List.nil_append source.toList).symm

theorem toList_blanks_split {m n : Nat} (h : m < n) : (blanks n).toList =
    List.replicate m ' ' ++ ' ' :: List.replicate (n - (m + 1)) ' ' := by
  rw [toList_blanks, ← List.replicate_succ, List.replicate_append_replicate]
  congr 1
  omega

/-- There is no next column at the greatest word. -/
theorem step_greatest {m : Nat} (h : m + 2 = UInt32.size) :
    (Cursor.at (List.replicate m ' ')).step .checked = ExceptT.mk none := by
  have hlast : ¬ (UInt32.ofNat (m + 1)).toNat + 1 < UInt32.size := by
    rw [UInt32.toNat_ofNat_of_lt' (by omega)]
    omega
  unfold Cursor.step Cursor.at
  rw [columnBehind_replicate_blank, Counting.next, guarded, if_neg hlast]
  rfl

/-- Reading blanks comes to the greatest word if there are enough of them. -/
theorem scan_blanks {n m : Nat} (hn : UInt32.size ≤ n + 1) (hm : m + 2 ≤ UInt32.size) :
    scan .checked (blanks n) (Cursor.at (List.replicate m ' ')) = ExceptT.mk none := by
  have hparts := toList_blanks_split (show m < n by omega)
  have hcolumn := columnBehind_replicate_blank m
  -- on the number of columns that are left
  induction hk : UInt32.size - (m + 2) generalizing m with
  | zero =>
      have hb : (units (blanks n).toList)[(Cursor.at (List.replicate m ' ')).pos]? = some ' ' := by
        rw [Cursor.pos_at, getElem?_units hparts, units_cons_ascii (by decide), List.head?_cons]
      have hread : readPiece .checked (blanks n) (Cursor.at (List.replicate m ' ')) ' ' =
          ExceptT.mk none := by
        unfold readPiece
        rw [if_pos (by decide), step_greatest (by omega)]
        rfl
      exact scan_none hb hread
  | succ k ih =>
      rw [scan_at_blank (fun _ => by omega) hparts rfl, ← List.replicate_succ']
      exact ih (by omega) (toList_blanks_split (by omega)) (columnBehind_replicate_blank _) (by omega)

/-- A text of blanks that is not shorter than the greatest word has no result where there is no
column behind it. -/
theorem tokenize_blanks {n : Nat} (h : UInt32.size ≤ n + 1) :
    tokenize .checked (blanks n) = ExceptT.mk none :=
  scan_blanks (m := 0) h (by decide)

end texts

end Checked

end X64Asm
