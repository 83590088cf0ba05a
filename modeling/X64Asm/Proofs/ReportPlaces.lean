import X64Asm.Proofs.ReportedTokens
import X64Asm.Proofs.TokenTiling

/-! # The places of reports

A report on a text points into it, and its line is that of its offset.  Its column is too, with one
exception: of a faulty negative number the digits are reported, but at the column of the sign, which
is one short (`report_place`).  Both are words, and as they stand if the text is shorter than the
greatest word.

Reading comes to stand between two pieces, with some tokens read (`Reached`).  What is read from there
does not depend on these, so the tokens of the text are the tokens ahead of the place and those of the
rest (`Reached.tokenize_eq`).  Reading never stands between a sign and a digit, so the sign tells the
exception from all other reports. -/

namespace X64Asm

/-! ### Where reading stands -/

/-- Reading the text comes to stand between the characters ahead and those that are left, and these
tokens have been read. -/
inductive Reached (source : String) : List Token → List Char → List Char → Prop
  | start : Reached source [] [] source.toList
  | next {ahead : List Token} {pre cs : List Char} {c : Char} {piece : Piece}
      (earlier : Reached source ahead pre (c :: cs)) (read : Piece.read c cs = .ok piece) :
      Reached source
        (ahead ++ (piece.token? (({} : Position).advance pre)
          (byteLength (c :: cs.take piece.more))).toList)
        (pre ++ c :: cs.take piece.more) (cs.drop piece.more)

section reached

variable {source : String} {p : Position} {ahead tokens : List Token} {pre cs : List Char}

theorem Reached.append (h : Reached source ahead pre cs) : source.toList = pre ++ cs := by
  induction h with
  | start => rfl
  | next _ _ ih =>
      rw [ih, List.append_assoc, List.cons_append, List.take_append_drop]

/-- The tokens of the text are those ahead of the place and those of the rest. -/
theorem Reached.tokenize_eq (h : Reached source ahead pre cs) :
    tokenize source = (scan (({} : Position).advance pre) cs).map (ahead ++ ·) := by
  induction h with
  | start =>
      show scan {} source.toList = (scan {} source.toList).map ([] ++ ·)
      cases scan {} source.toList with
      | error report => rfl
      | ok tokens => rfl
  | @next ahead pre cs c piece _ read ih =>
      rw [ih, scan_of_read read, Position.advance_append]
      cases scan _ (cs.drop piece.more) with
      | error report => rfl
      | ok tokens => simp [Except.map]

/-- What is left behind a sign does not begin with a digit. -/
theorem Piece.Takes.unsigned {piece : Piece} {c : Char} {chars rest : List Char}
    (h : piece.Takes (c :: chars) rest) (hlast : (c :: chars).getLast? = some '-') :
    rest.head?.any Char.isDigit = false := by
  cases h with
  | blanks blank => exact absurd hlast (getLast?_ne_of_forall (by decide) blank)
  | comment _ stop =>
      rcases stop with rfl | stop
      · rfl
      · rw [stop]
        decide
  | token _ _ last => exact absurd hlast last

theorem Reached.unsigned (h : Reached source ahead pre cs) (hlast : pre.getLast? = some '-') :
    cs.head?.any Char.isDigit = false := by
  cases h with
  | start => cases hlast
  | next _ read =>
      rw [List.getLast?_append_cons] at hlast
      exact (Piece.takes_of_read read).unsigned hlast

/-- A report is on the piece where reading stands. -/
theorem scan_error {d : Diagnostic} (hreached : Reached source ahead pre cs)
    (h : scan (({} : Position).advance pre) cs = .error d) :
    ∃ ahead pre c cs bad, Reached source ahead pre (c :: cs) ∧ Piece.read c cs = .error bad ∧
      d = bad.report (({} : Position).advance pre) := by
  generalize hp : ({} : Position).advance pre = p at h
  fun_induction scan p cs generalizing ahead pre with
  | case1 => cases h
  | case2 p c cs bad hbad =>
      cases h
      exact ⟨ahead, pre, c, cs, bad, hreached, hbad, by rw [hp]⟩
  | case3 p c cs piece hpiece chars report hreport =>
      rename_i ih
      cases h
      refine ih (hreached.next hpiece) ?_ hreport
      rw [Position.advance_append, hp]
  | case4 => cases h

/-- A token stands where reading does, and is the end mark or the piece that is read there. -/
theorem scan_token (hreached : Reached source ahead pre cs)
    (h : scan (({} : Position).advance pre) cs = .ok tokens) {t : Token} (ht : t ∈ tokens) :
    ∃ ahead pre cs, Reached source ahead pre cs ∧ t.span.offset = byteLength pre ∧
      (t.kind = .eof ∨ ∃ c ds piece, cs = c :: ds ∧ Piece.read c ds = .ok piece ∧
        piece.kind = some t.kind ∧ piece.text = t.text) := by
  generalize hp : ({} : Position).advance pre = p at h
  fun_induction scan p cs generalizing ahead pre tokens with
  | case1 p =>
      cases h
      cases List.mem_singleton.mp ht
      refine ⟨ahead, pre, [], hreached, ?_, .inl rfl⟩
      rw [← hp, Position.advance_start]
      rfl
  | case2 => cases h
  | case3 => cases h
  | case4 p c cs piece hpiece chars others hothers =>
      rename_i ih
      cases h
      rcases List.mem_append.mp ht with ht | ht
      · unfold Piece.token? at ht
        obtain ⟨kind, hkind, rfl⟩ := Option.map_eq_some_iff.mp (Option.mem_toList.mp ht)
        refine ⟨ahead, pre, c :: cs, hreached, ?_, .inr ⟨c, cs, piece, rfl, hpiece, hkind, rfl⟩⟩
        rw [← hp, Position.advance_start]
        rfl
      · refine ih (hreached.next hpiece) ht ?_ hothers
        rw [Position.advance_append, hp]

end reached

/-! ### Faulty pieces -/

theorem length_le_byteLength (cs : List Char) : cs.length ≤ byteLength cs := by
  induction cs with
  | nil => exact Nat.le_refl 0
  | cons c cs ih =>
      have hpos := c.utf8Size_pos
      simp only [List.length_cons, byteLength]
      omega

namespace Numeral

variable {cs : List Char} {bad : BadNumeral}

theorem length_of_bounded {value length : Nat} {complaint : Complaint}
    (h : bounded value length complaint = .error bad) : bad.length = length := by
  unfold bounded at h
  split at h
  · cases h
  · cases h
    rfl

theorem length_of_readMarked {base : Base} (h : readMarked base cs = .error bad) :
    bad.length ≤ cs.length + 2 := by
  have hle := length_takeWhile_le base.isDigit cs
  unfold readMarked at h
  dsimp only at h
  split at h
  · cases h
    exact Nat.le_add_left _ _
  · rw [length_of_bounded h]
    omega

theorem length_of_readPlain (h : readPlain cs = .error bad) : bad.length ≤ cs.length := by
  have hle := length_takeWhile_le Base.decimal.isDigit cs
  have hin : ∀ {k : Nat} {c : Char}, cs[k]? = some c → k + 1 ≤ cs.length :=
    fun hc => (List.getElem?_eq_some_iff.mp hc).1
  rw [Numeral.readPlain_eq] at h
  dsimp only at h
  split at h
  · next hmark =>
    rw [length_of_bounded h]
    rcases hmark with hmark | hmark
    · exact hin hmark
    · exact hin hmark
  · rw [length_of_bounded h]
    exact hle

/-- A faulty numeral is within the text. -/
theorem length_of_read (h : read cs = .error bad) : bad.length ≤ cs.length := by
  unfold read at h
  split at h
  · split at h
    · exact length_of_readMarked h
    · exact length_of_readPlain h
  · exact length_of_readPlain h

end Numeral

/-- What is reported of a faulty piece: the characters from its beginning on, or the digits behind
the sign that it begins with. -/
inductive BadPiece.Marks (c : Char) (cs : List Char) (bad : BadPiece) : Prop
  | whole (unsigned : bad.skipped = 0) (within : bad.len ≤ byteLength (c :: cs))
  | digits (sign : c = '-') (digit : cs.head?.any Char.isDigit = true) (signed : bad.skipped = 1)
      (within : bad.len ≤ byteLength cs)

theorem Piece.marks_of_read {c : Char} {cs : List Char} {bad : BadPiece}
    (h : Piece.read c cs = .error bad) : bad.Marks c cs := by
  revert h
  fun_cases Piece.read c cs with
  | case1 => intro h; cases h
  | case2 => intro h; cases h
  | case3 => intro h; cases h
  | case4 => intro h; cases h
  | case5 => intro h; cases h
  | case6 => intro h; cases h
  | case7 =>
      intro h
      unfold readString at h
      dsimp only at h
      split at h
      · cases h
      · cases h
        refine .whole rfl ?_
        have hcontent := congrArg byteLength
          (@List.takeWhile_append_dropWhile _ (fun d => d ≠ c && d ≠ '\n') cs)
        have hpos := c.utf8Size_pos
        rw [byteLength_append] at hcontent
        simp only [byteLength]
        omega
  | case8 =>
      intro h
      unfold readNumber at h
      split at h
      · cases h
      · next hread =>
        cases h
        exact .whole rfl ((Numeral.length_of_read hread).trans (length_le_byteLength _))
  | case9 _ _ _ _ _ _ _ _ hsign =>
      intro h
      rw [Bool.and_eq_true, decide_eq_true_eq] at hsign
      unfold readNegative at h
      split at h
      · cases h
      · next hread =>
        cases h
        exact .digits hsign.1 hsign.2 rfl
          ((Numeral.length_of_read hread).trans (length_le_byteLength _))
  | case10 => intro h; cases h
  | case11 =>
      rintro ⟨⟩
      exact .whole rfl (Nat.le_add_right _ _)

/-! ### Reports -/

/-- A sign ends at the offset, and a digit follows. -/
def SignAhead (source : String) (offset : Nat) : Prop :=
  ∃ pre cs, source.toList = pre ++ '-' :: cs ∧ byteLength pre + 1 = offset ∧
    cs.head?.any Char.isDigit = true

/-- The stretch is within the text and its line is that of its offset, as a word.  Its column is that
of its offset, or one short of it if a sign is ahead. -/
structure Span.Reported (source : String) (s : Span) : Prop where
  within : s.offset + s.len ≤ source.utf8ByteSize
  line_eq : s.line = UInt32.ofNat (lineAt source s.offset)
  col_eq : ¬ SignAhead source s.offset → s.col = UInt32.ofNat (columnAt source s.offset)
  col_short : SignAhead source s.offset → s.col + 1 = UInt32.ofNat (columnAt source s.offset)

/-- The line and the column are those of a report as they stand. -/
structure Span.ReportedExactly (source : String) (s : Span) : Prop where
  line_eq : s.line.toNat = lineAt source s.offset
  col_eq : ¬ SignAhead source s.offset → s.col.toNat = columnAt source s.offset
  col_short : SignAhead source s.offset → s.col.toNat + 1 = columnAt source s.offset

theorem Span.Faithful.reported {source : String} {s : Span} (h : s.Faithful source)
    (hsign : ¬ SignAhead source s.offset) : s.Reported source :=
  ⟨h.within, h.line_eq, fun _ => h.col_eq, fun hahead => absurd hahead hsign⟩

section reports

variable {source : String} {ahead : List Token} {pre cs : List Char}

theorem Reached.not_signAhead (h : Reached source ahead pre cs) :
    ¬ SignAhead source (byteLength pre) := by
  rintro ⟨pre', cs', hsource, hoffset, hdigit⟩
  have hparts : pre ++ cs = (pre' ++ ['-']) ++ cs' := by
    rw [← h.append, hsource, List.append_cons]
  have hlen : byteLength pre = byteLength (pre' ++ ['-']) := by
    rw [byteLength_append, ← hoffset]
    rfl
  obtain ⟨rfl, rfl⟩ := append_inj_of_byteLength hparts hlen
  have hnone := h.unsigned List.getLast?_concat
  rw [hdigit] at hnone
  cases hnone

/-- The digits behind a sign are reported at the column of the sign. -/
theorem reported_digits (h : source.toList = pre ++ '-' :: cs)
    (hdigit : cs.head?.any Char.isDigit = true) {len : Nat} (hlen : len ≤ byteLength cs)
    {p : Position} (hp : ({} : Position).advance pre = p) :
    Span.Reported source ⟨p.line, p.col, p.offset + 1, len⟩ := by
  have hbehind : ({} : Position).advance (pre ++ ['-']) = ⟨p.line, p.col + 1, p.offset + 1⟩ := by
    rw [Position.advance_append, hp, p.advance_line (by decide)]
    rfl
  have hoffset : byteLength pre + 1 = p.offset + 1 := by
    rw [← hp, Position.advance_start]
  have hfaithful := Span.Faithful.of_append (h.trans (List.append_cons ..)) hlen
  rw [hbehind] at hfaithful
  have hahead : SignAhead source (p.offset + 1) := ⟨pre, cs, h, hoffset, hdigit⟩
  exact ⟨hfaithful.within, hfaithful.line_eq, fun hnot => absurd hahead hnot,
    fun _ => hfaithful.col_eq⟩

theorem reported_tokenize {d : Diagnostic} (h : tokenize source = .error d) {span : Span}
    (hspan : d.span? = some span) : span.Reported source := by
  obtain ⟨_, pre, c, cs, bad, hreached, hbad, rfl⟩ := scan_error .start h
  cases hspan
  cases Piece.marks_of_read hbad with
  | whole unsigned within =>
      rw [unsigned]
      have hfaithful := Span.Faithful.of_append hreached.append within
      refine hfaithful.reported ?_
      rw [Position.advance_start]
      exact hreached.not_signAhead
  | digits sign digit signed within =>
      subst sign
      rw [signed]
      exact reported_digits hreached.append digit within rfl

theorem reported_token {tokens : List Token} (h : tokenize source = .ok tokens) {t : Token}
    (ht : t ∈ tokens) : t.span.Reported source := by
  have hlaid : Laid source (byteLength []) tokens := laid_scan h rfl
  obtain ⟨_, pre, cs, hreached, hoffset, _⟩ := scan_token .start h ht
  refine (hlaid.lies t ht).placed.reported ?_
  rw [hoffset]
  exact hreached.not_signAhead

theorem Span.Reported.exactly {s : Span} (h : s.Reported source)
    (hbytes : source.utf8ByteSize + 1 < UInt32.size) : s.ReportedExactly source := by
  have hwithin := h.within
  obtain ⟨hline, hcolumn⟩ := toNat_ofNat_lineAt hbytes (show s.offset ≤ _ by omega)
  refine ⟨by rw [h.line_eq, hline], fun hsign => by rw [h.col_eq hsign, hcolumn], fun hsign => ?_⟩
  -- the column of the offset is not zero, so the one ahead of it is not the greatest word
  have hpos : 0 < columnAt source s.offset := Nat.lt_of_lt_of_le Nat.one_pos (Nat.le_add_right _ _)
  have hone : (1 : UInt32).toNat = 1 := rfl
  have hsize := s.col.toNat_lt
  rw [← h.col_short hsign, UInt32.toNat_add, hone] at hcolumn
  omega

/-- A report on a text, or on its tokens, points into the text, at the line of its offset.  It points
at the column of its offset unless it points at digits behind a sign, and is one short then.  In a text
that is shorter than the greatest word, the line and the column are as they stand. -/
theorem report_place {d : Diagnostic} {span : Span}
    (h : tokenize source = .error d ∨
      ∃ tokens, tokenize source = .ok tokens ∧ Listing.ofTokens tokens = .error d)
    (hspan : d.span? = some span) : span.Reported source ∧
      (source.utf8ByteSize + 1 < UInt32.size → span.ReportedExactly source) := by
  have hreported : span.Reported source := by
    rcases h with h | ⟨tokens, htokens, h⟩
    · exact reported_tokenize h hspan
    · obtain ⟨t, ht, htspan⟩ := Listing.pointsInto_ofTokens tokens d h
      rw [hspan] at htspan
      cases htspan
      exact reported_token htokens ht
  exact ⟨hreported, hreported.exactly⟩

/-- A string without an end, on the second line and behind a character of two bytes. -/
theorem report_place_openString : ∃ d,
    tokenize "ret ; é\n  'ü" = .error d ∧ d.span? = some ⟨2, 3, 11, 3⟩ ∧
    Span.Reported "ret ; é\n  'ü" ⟨2, 3, 11, 3⟩ ∧
    Span.ReportedExactly "ret ; é\n  'ü" ⟨2, 3, 11, 3⟩ := by
  have h : tokenize "ret ; é\n  'ü" = .error (.complain .unterminatedString ⟨2, 3, 11, 3⟩) := by
    decide +kernel
  obtain ⟨hreported, hexact⟩ := report_place (.inl h) rfl
  exact ⟨_, h, rfl, hreported, hexact (by decide +kernel)⟩

/-- The digits of a negative number are missing: the report is on the marker behind the sign, at the
column of the sign. -/
theorem report_behind_sign : ∃ d span,
    tokenize "-0x" = .error d ∧ d.span? = some span ∧ span.offset = 1 ∧ span.col = 1 ∧
    columnAt "-0x" 1 = 2 := by
  have h : tokenize "-0x" = .error (.complain (.missingDigits "0x") ⟨1, 1, 1, 2⟩) := by
    decide +kernel
  exact ⟨_, _, h, rfl, rfl, rfl, by decide +kernel⟩

end reports

end X64Asm
