import X64Asm.Proofs.ReportPlaces
import X64Asm.Proofs.WrittenNumbers

/-! # The tokens of numbers

A number at a place that reading comes to is one token that has its value and takes up all of it, or
is reported if it is out of bounds (`tokenize_literal`).  The same holds with an `h` behind the digits,
except for a number that begins like a binary one: it is reported, or a shorter number is read and
reading goes on inside it (`tokenize_suffixed`). -/

namespace X64Asm

/-! ### Pieces that are numbers -/

namespace Piece

variable {lit : Literal} {rest : List Char}

/-- A number whose magnitude is read in full is a piece of its own. -/
theorem read_literal (h : Numeral.read (lit.spelling.chars ++ rest) =
      .ok ⟨lit.spelling.magnitude, lit.spelling.chars.length⟩) :
    ∃ c cs, lit.chars = c :: cs ∧ read c (cs ++ rest) =
      .ok ⟨some (.number lit.value), String.ofList lit.chars, cs.length⟩ := by
  obtain ⟨negative, sp⟩ := lit
  obtain ⟨d, ds, hchars, hdigit⟩ := sp.exists_first
  rw [hchars, List.cons_append] at h
  cases negative with
  | false =>
      refine ⟨d, ds, hchars, ?_⟩
      rw [read_of_isDigit hdigit, readNumber, h]
      simp [Literal.chars, Literal.sign, Literal.value, hchars]
  | true =>
      refine ⟨'-', d :: ds, by simp [Literal.chars, Literal.sign, hchars], ?_⟩
      rw [List.cons_append, read_of_sign (by simpa using hdigit), readNegative, h]
      simp [Literal.chars, Literal.sign, Literal.value, hchars]

/-- A number whose magnitude cannot be read is reported. -/
theorem read_literal_error {bad : BadNumeral}
    (h : Numeral.read (lit.spelling.chars ++ rest) = .error bad) :
    ∃ c cs badPiece, lit.chars = c :: cs ∧ read c (cs ++ rest) = .error badPiece := by
  obtain ⟨negative, sp⟩ := lit
  obtain ⟨d, ds, hchars, hdigit⟩ := sp.exists_first
  rw [hchars, List.cons_append] at h
  cases negative with
  | false =>
      refine ⟨d, ds, { complaint := bad.complaint, len := bad.length }, hchars, ?_⟩
      rw [read_of_isDigit hdigit, readNumber, h]
  | true =>
      refine ⟨'-', d :: ds, { complaint := bad.complaint, skipped := 1, len := bad.length },
        by simp [Literal.chars, Literal.sign, hchars], ?_⟩
      rw [List.cons_append, read_of_sign (by simpa using hdigit), readNegative, h]

end Piece

/-! ### Numbers at a place -/

/-- The token of a number that stands behind other characters. -/
def numberToken (pre chars : List Char) (value : Int) : Token :=
  ⟨.number value, String.ofList chars, (({} : Position).advance pre).span (byteLength chars)⟩

/-- From the place on, the characters are read as one token, which is a number of this value, and
reading goes on behind them. -/
def ReadsNumber (source : String) (ahead : List Token) (pre chars rest : List Char)
    (value : Int) : Prop :=
  Reached source (ahead ++ [numberToken pre chars value]) (pre ++ chars) rest

/-- The text is reported as no program. -/
def TokensRefused (source : String) : Prop :=
  ∃ complaint span, tokenize source = .error (.complain complaint span)

section numbers

variable {source : String} {ahead : List Token} {pre rest : List Char} {lit : Literal}

/-- The number is a token of the text, between those ahead and those of the rest. -/
theorem ReadsNumber.tokens {chars : List Char} {value : Int}
    (h : ReadsNumber source ahead pre chars rest value) :
    tokenize source = (scan (({} : Position).advance (pre ++ chars)) rest).map
      fun behind => ahead ++ numberToken pre chars value :: behind := by
  rw [Reached.tokenize_eq h]
  simp only [List.append_assoc, List.singleton_append]

theorem Reached.literal (h : Reached source ahead pre (lit.chars ++ rest))
    (hread : Numeral.read (lit.spelling.chars ++ rest) =
      .ok ⟨lit.spelling.magnitude, lit.spelling.chars.length⟩) :
    ReadsNumber source ahead pre lit.chars rest lit.value := by
  obtain ⟨c, cs, hchars, hpiece⟩ := Piece.read_literal hread
  rw [hchars, List.cons_append] at h
  have hnext := h.next hpiece
  rw [List.take_left, List.drop_left, ← hchars] at hnext
  exact hnext

theorem Reached.literal_error (h : Reached source ahead pre (lit.chars ++ rest)) {bad : BadNumeral}
    (hread : Numeral.read (lit.spelling.chars ++ rest) = .error bad) : TokensRefused source := by
  obtain ⟨c, cs, badPiece, hchars, hpiece⟩ := Piece.read_literal_error hread
  rw [hchars, List.cons_append] at h
  have hrefused : tokenize source = .error (badPiece.report (({} : Position).advance pre)) := by
    rw [h.tokenize_eq, scan, hpiece]
    rfl
  exact ⟨_, _, hrefused⟩

/-- A number that is read for what it is gives one token, or is reported if it is out of bounds. -/
theorem Reached.readsNumber_or_refused (h : Reached source ahead pre (lit.chars ++ rest))
    (hends : lit.spelling.EndsAhead rest) (hclear : ¬ lit.spelling.Ambiguous) :
    (lit.spelling.magnitude < 2 ^ 127 → ReadsNumber source ahead pre lit.chars rest lit.value) ∧
      (2 ^ 127 ≤ lit.spelling.magnitude → TokensRefused source) := by
  obtain ⟨complaint, hread⟩ := Numeral.read_spelling hends hclear
  have hbound : Numeral.bound = 2 ^ 127 := rfl
  rw [Numeral.bounded, hbound] at hread
  constructor
  · intro hvalue
    rw [if_pos hvalue] at hread
    exact h.literal hread
  · intro hvalue
    rw [if_neg (Nat.not_lt.mpr hvalue)] at hread
    exact h.literal_error hread

/-- Of a number that begins like another, at most a part is read as a token of its own, and a letter
or a digit follows. -/
theorem Reached.misread (h : Reached source ahead pre (lit.chars ++ rest))
    (hambiguous : lit.spelling.Ambiguous) : TokensRefused source ∨
      ∃ (shorter : Literal) (c : Char) (cs : List Char), lit.chars = shorter.chars ++ c :: cs ∧
        c.isAlphanum = true ∧
        ReadsNumber source ahead pre shorter.chars (c :: cs ++ rest) shorter.value := by
  rcases hambiguous.misread rest with ⟨bad, hread⟩ | ⟨sp, tail, hchars, htail, hclear, hends⟩
  · exact .inl (h.literal_error hread)
  · obtain ⟨c, cs, rfl⟩ := List.exists_cons_of_ne_nil htail
    have halnum : c.isAlphanum = true := lit.spelling.isAlphanum_of_mem (by simp [hchars])
    have hlit : lit.chars = (⟨lit.negative, sp⟩ : Literal).chars ++ c :: cs := by
      rw [Literal.chars, hchars, ← List.append_assoc]
      rfl
    rw [hlit, List.append_assoc] at h
    obtain ⟨hreads, hrefused⟩ := h.readsNumber_or_refused hends hclear
    rcases Nat.lt_or_ge sp.magnitude (2 ^ 127) with hsmall | hlarge
    · exact .inr ⟨_, c, cs, hlit, halnum, hreads hsmall⟩
    · exact .inl (hrefused hlarge)

/-- Decimal digits, or digits behind a marker, with no letter or digit following, are one token that is
a number of their value, if this is below `2 ^ 127`; otherwise the text is reported. -/
theorem tokenize_literal (hplain : lit.spelling.isSuffixed = false)
    (h : Reached source ahead pre (lit.chars ++ rest)) (hstop : Stops rest) :
    (lit.spelling.magnitude ≤ 2 ^ 127 - 1 →
        ReadsNumber source ahead pre lit.chars rest lit.value) ∧
      (2 ^ 127 - 1 < lit.spelling.magnitude → TokensRefused source) := by
  have hclear : ¬ lit.spelling.Ambiguous := by
    intro hambiguous
    cases hspelling : lit.spelling with
    | plain digits => rw [hspelling] at hambiguous; exact hambiguous
    | marked mark stands digits => rw [hspelling] at hambiguous; exact hambiguous
    | suffixed digits first suffix ends => rw [hspelling] at hplain; cases hplain
  obtain ⟨hreads, hrefused⟩ :=
    h.readsNumber_or_refused (Spelling.endsAhead_of_stops hstop lit.spelling) hclear
  exact ⟨fun hvalue => hreads (by omega), fun hvalue => hrefused (by omega)⟩

end numbers

/-- The number `-0x1F`. -/
def maskNumber : Literal :=
  ⟨true, .hex (.ofChars ['1', 'F'] (by decide) (by decide))⟩

theorem reached_maskNumber :
    Reached "push -0x1F ; mask" [⟨.ident, "push", ⟨1, 1, 0, 4⟩⟩] "push ".toList
      (maskNumber.chars ++ " ; mask".toList) := by
  have hstart : Reached "push -0x1F ; mask" [] [] ('p' :: "ush -0x1F ; mask".toList) := .start
  have hword : Piece.read 'p' "ush -0x1F ; mask".toList = .ok ⟨some .ident, "push", 3⟩ := by
    decide +kernel
  have hblank : Piece.read ' ' "-0x1F ; mask".toList = .ok ⟨none, "", 0⟩ := by decide +kernel
  exact (hstart.next hword).next hblank

/-- The number behind a name and ahead of a comment. -/
theorem tokenize_literal_maskNumber :
    maskNumber.value = -31 ∧
      ReadsNumber "push -0x1F ; mask" [⟨.ident, "push", ⟨1, 1, 0, 4⟩⟩] "push ".toList
        maskNumber.chars " ; mask".toList (-31) :=
  ⟨by decide, (tokenize_literal (by decide) reached_maskNumber (by decide)).1 (by decide)⟩

section suffixed

variable {source : String} {ahead : List Token} {pre rest : List Char} {lit : Literal}

/-- Hexadecimal digits with an `h` behind them are one token that is a number of their value, unless
they begin like a binary number.  If they do, the text is reported, or a part of them is a token of its
own. -/
theorem tokenize_suffixed (hsuffixed : lit.spelling.isSuffixed = true)
    (hvalue : lit.spelling.magnitude ≤ 2 ^ 127 - 1)
    (h : Reached source ahead pre (lit.chars ++ rest)) :
    (¬ lit.spelling.Ambiguous → ReadsNumber source ahead pre lit.chars rest lit.value) ∧
      (lit.spelling.Ambiguous → TokensRefused source ∨
        ∃ (shorter : Literal) (tail : List Char), lit.chars = shorter.chars ++ tail ∧ tail ≠ [] ∧
          ReadsNumber source ahead pre shorter.chars (tail ++ rest) shorter.value) := by
  constructor
  · intro hclear
    have hends : lit.spelling.EndsAhead rest := Spelling.endsAhead_of_isSuffixed hsuffixed
    exact (h.readsNumber_or_refused hends hclear).1 (by omega)
  · intro hambiguous
    rcases h.misread hambiguous with hrefused | ⟨shorter, c, cs, hchars, _, hreads⟩
    · exact .inl hrefused
    · exact .inr ⟨shorter, c :: cs, hchars, List.cons_ne_nil c cs, hreads⟩

end suffixed

/-- The number `-0FFh`. -/
def suffixedNumber : Literal :=
  ⟨true, .hexSuffixed (.ofChars ['0', 'F', 'F'] (by decide) (by decide)) (by rintro c ⟨⟩; decide)⟩

/-- The number `0b1h`, which begins like a binary one. -/
def likeBinary : Literal :=
  ⟨false, .hexSuffixed (.ofChars ['0', 'b', '1'] (by decide) (by decide)) (by rintro c ⟨⟩; decide)⟩

theorem tokenize_suffixed_suffixedNumber :
    (suffixedNumber.value = -255 ∧
      ReadsNumber "-0FFh" [] [] suffixedNumber.chars [] suffixedNumber.value) ∧
    (likeBinary.spelling.Ambiguous ∧
      (TokensRefused "0b1h" ∨
        ∃ (shorter : Literal) (tail : List Char), likeBinary.chars = shorter.chars ++ tail ∧
          tail ≠ [] ∧ ReadsNumber "0b1h" [] [] shorter.chars (tail ++ []) shorter.value)) := by
  have hclear : ¬ suffixedNumber.spelling.Ambiguous := by decide
  have hambiguous : likeBinary.spelling.Ambiguous := by decide
  exact ⟨⟨by decide, (tokenize_suffixed (by decide) (by decide) .start).1 hclear⟩,
    hambiguous, (tokenize_suffixed (by decide) (by decide) .start).2 hambiguous⟩

/-- The digits `0b1` come to 177, but the binary number 1 and the name `h` are read. -/
theorem tokenize_likeBinary :
    likeBinary.value = 177 ∧ Reached "0b1h" [] [] (likeBinary.chars ++ []) ∧
      tokenize "0b1h" = .ok [⟨.number 1, "0b1", ⟨1, 1, 0, 3⟩⟩, ⟨.ident, "h", ⟨1, 4, 3, 1⟩⟩,
        ⟨.eof, "", ⟨1, 5, 4, 0⟩⟩] ∧
      ¬ ReadsNumber "0b1h" [] [] likeBinary.chars [] likeBinary.value := by
  have htokens : tokenize "0b1h" = .ok [⟨.number 1, "0b1", ⟨1, 1, 0, 3⟩⟩,
      ⟨.ident, "h", ⟨1, 4, 3, 1⟩⟩, ⟨.eof, "", ⟨1, 5, 4, 0⟩⟩] := by decide +kernel
  refine ⟨by decide, .start, htokens, fun hreads => ?_⟩
  have hvalue := hreads.tokens
  rw [htokens] at hvalue
  revert hvalue
  decide +kernel

end X64Asm
