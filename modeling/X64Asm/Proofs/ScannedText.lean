import X64Asm.Proofs.Grammar
import X64Asm.Proofs.LetterCase
import X64Asm.Proofs.NumberTokens

/-! # Characters that are read on their own

Characters are read as tokens of some shape wherever they stand, if what follows does not go on with
the last of them (`Scans`).  Names, numbers, strings and marks are one token each (`OneToken`), blanks
are none, and what stands side by side is read one after the other (`Scans.append`).  A text that is
read as the tokens of one line has the listing of this line (`Listing.parse_of_line`). -/

namespace X64Asm

open Grammar

/-! ### Names -/

/-- The text is a name. -/
def isName (text : String) : Bool :=
  text.toList.head?.any isIdentStart && text.toList.all isIdentRest

section names

variable {text : String}

theorem isName_iff : isName text = true ↔ ∃ c cs, text.toList = c :: cs ∧ isIdentStart c = true ∧
    ∀ d ∈ cs, isIdentRest d = true := by
  unfold isName
  cases text.toList with
  | nil => simp
  | cons c cs =>
      constructor
      · intro h
        rw [Bool.and_eq_true, List.all_cons, Bool.and_eq_true, List.all_eq_true] at h
        exact ⟨c, cs, rfl, h.1, h.2.2⟩
      · rintro ⟨_, _, ⟨⟩, hstart, hrest⟩
        rw [Bool.and_eq_true, List.all_cons, Bool.and_eq_true, List.all_eq_true]
        exact ⟨hstart, isIdentRest_of_isIdentStart hstart, hrest⟩

/-- A word is a name in all cases or in none. -/
theorem isName_toLower (text : String) : isName text.toLower = isName text := by
  unfold isName
  rw [toList_toLower]
  cases text.toList with
  | nil => rfl
  | cons c cs =>
      have hall : (cs.map Char.toLower).all isIdentRest = cs.all isIdentRest := by
        rw [List.all_map]
        exact congrArg (cs.all ·) (funext caseless_isIdentRest)
      rw [List.map_cons, List.head?_cons, List.head?_cons, List.all_cons, List.all_cons, hall,
        caseless_isIdentRest c, Option.any_some, Option.any_some, caseless_isIdentStart c]

end names

/-! ### Decimal numbers -/

/-- The digits of a number in decimal. -/
def Digits.ofNat (n : Nat) : Digits .decimal where
  chars := Nat.toDigits 10 n
  nonempty := Nat.toDigits_ne_nil
  digits := fun _ hc => Base.isDigit_iff.mp
    (decimal_isDigit (Nat.isDigit_of_mem_toDigits (by decide) (by decide) hc))

/-- The number in decimal. -/
def Literal.ofInt (v : Int) : Literal := ⟨v < 0, .plain (.ofNat v.natAbs)⟩

theorem Digits.value_ofNat (n : Nat) : (ofNat n).value = n := by
  have hdigits : digitChars.all (fun c => decide (Base.decimal.Digit c →
      (Base.digitValue? c).getD 0 = c.toNat - '0'.toNat)) = true := by
    decide +kernel
  calc (ofNat n).value
      = Base.decimal.value (Nat.toDigits 10 n) := (value_eq _).symm
    _ = (Nat.toDigits 10 n).foldl (fun sum c => 10 * sum + (c.toNat - '0'.toNat)) 0 := by
        refine List.foldl_ext _ _ _ fun sum c hc => ?_
        have hdigit : Base.decimal.Digit c := (ofNat n).digits c hc
        rw [of_decide_eq_true (hdigit.check hdigits) hdigit, Nat.mul_comm]
        rfl
    _ = n := by rw [← Nat.ofDigitChars_eq_foldl, Nat.ofDigitChars_ten_toDigits]

theorem Literal.value_ofInt (v : Int) : (ofInt v).value = v := by
  have hmagnitude : (ofInt v).spelling.magnitude = v.natAbs := Digits.value_ofNat v.natAbs
  rw [value, hmagnitude]
  by_cases hneg : v < 0
  · rw [if_pos (by simpa [ofInt] using hneg)]
    omega
  · rw [if_neg (by simpa [ofInt] using hneg)]
    omega

theorem Literal.chars_ofInt (v : Int) : (ofInt v).chars = (toString v).toList := by
  have hdigits : v.natAbs.repr.toList = Nat.toDigits 10 v.natAbs := by
    rw [Nat.repr_eq_ofList_toDigits, String.toList_ofList]
  rw [Int.toString_eq_repr, Int.repr_eq_if]
  by_cases hneg : v < 0
  · have hsign : (ofInt v).sign = ['-'] := if_pos (decide_eq_true hneg)
    have habs : (-v).toNat = v.natAbs := by omega
    rw [if_neg (by omega), habs, String.toList_append, hdigits, chars, hsign]
    rfl
  · have hsign : (ofInt v).sign = [] := if_neg (by simpa [ofInt] using hneg)
    have habs : v.toNat = v.natAbs := by omega
    rw [if_pos (by omega), habs, hdigits, chars, hsign]
    rfl

/-! ### Shapes of tokens -/

/-- Wherever they stand ahead of the rest, the characters are read as tokens of the shape, and reading
goes on behind them. -/
def Scans (chars rest : List Char) (Shape : List Token → Prop) : Prop :=
  ∀ p : Position, ∃ ts, Shape ts ∧
    scan p (chars ++ rest) = (scan (p.advance chars) rest).map (ts ++ ·)

/-- One token of the kind and the text. -/
def OneToken (kind : TokenKind) (text : String) (ts : List Token) : Prop :=
  ∃ span, ts = [⟨kind, text, span⟩]

section scans

variable {chars chars' rest : List Char} {Shape Shape' : List Token → Prop} {text : String}

theorem Scans.mono (h : Scans chars rest Shape) (hshape : ∀ ts, Shape ts → Shape' ts) :
    Scans chars rest Shape' := by
  intro p
  obtain ⟨ts, hts, hscan⟩ := h p
  exact ⟨ts, hshape ts hts, hscan⟩

theorem Scans.append (h : Scans chars (chars' ++ rest) Shape) (h' : Scans chars' rest Shape') :
    Scans (chars ++ chars') rest fun ts => ∃ us us', ts = us ++ us' ∧ Shape us ∧ Shape' us' := by
  intro p
  obtain ⟨us, hus, hscan⟩ := h p
  obtain ⟨us', hus', hscan'⟩ := h' (p.advance chars)
  refine ⟨us ++ us', ⟨us, us', rfl, hus, hus'⟩, ?_⟩
  rw [List.append_assoc, hscan, hscan', Position.advance_append]
  cases scan ((p.advance chars).advance chars') rest with
  | error report => rfl
  | ok tokens => simp [Except.map]

/-- A piece that is a token is read on its own. -/
theorem scans_of_read {c : Char} {cs : List Char} {kind : TokenKind}
    (h : Piece.read c (cs ++ rest) = .ok ⟨some kind, text, cs.length⟩) :
    Scans (c :: cs) rest (OneToken kind text) := by
  intro p
  refine ⟨_, ⟨p.span (byteLength (c :: cs)), rfl⟩, ?_⟩
  rw [List.cons_append, scan_of_read h p, List.take_left, List.drop_left]
  rfl

theorem scans_nil (rest : List Char) : Scans [] rest (· = []) := by
  intro p
  refine ⟨[], rfl, ?_⟩
  show scan p rest = (scan p rest).map ([] ++ ·)
  cases scan p rest with
  | error report => rfl
  | ok tokens => rfl

theorem scans_blanks (h : ∀ c ∈ chars, isBlank c = true) (rest : List Char) :
    Scans chars rest (· = []) := by
  induction chars with
  | nil => exact scans_nil rest
  | cons c chars ih =>
      rw [List.forall_mem_cons] at h
      intro p
      obtain ⟨ts, hts, hscan⟩ := ih h.2 (p.step c)
      refine ⟨ts, hts, ?_⟩
      rw [List.cons_append, scan_blank h.1, hscan]
      rfl

theorem scans_blank (rest : List Char) : Scans [' '] rest (· = []) :=
  scans_blanks (List.all_eq_true.mp rfl) rest

theorem scans_comma (rest : List Char) : Scans [','] rest (OneToken .comma ",") :=
  scans_of_read rfl

theorem scans_name (h : isName text = true) (hrest : Apart rest) :
    Scans text.toList rest (OneToken .ident text) := by
  obtain ⟨c, cs, htext, hstart, hcs⟩ := isName_iff.mp h
  have htake : (cs ++ rest).takeWhile isIdentRest = cs := by
    rw [List.takeWhile_append_of_pos hcs]
    cases rest with
    | nil => simp
    | cons d rest => simp [(hrest d rfl).1]
  have hbehind : (cs ++ rest)[cs.length]? ≠ some ':' := by
    rw [List.getElem?_append_right (Nat.le_refl _), Nat.sub_self, ← List.head?_eq_getElem?]
    exact fun hcolon => (hrest ':' hcolon).2 rfl
  rw [htext]
  apply scans_of_read
  rw [Piece.read_of_isIdentStart hstart, Piece.readName, htake, if_neg hbehind, ← htext,
    String.ofList_toList]

theorem scans_string {quote : Char} {content : String} (hquote : isQuote quote = true)
    (hcontent : quote ∉ content.toList ∧ '\n' ∉ content.toList) (rest : List Char) :
    Scans (quote :: (content.toList ++ [quote])) rest (OneToken .stringLit content) := by
  have htake : (content.toList ++ [quote] ++ rest).takeWhile (fun d => d ≠ quote && d ≠ '\n') =
      content.toList := by
    rw [List.append_assoc, List.takeWhile_append_of_pos]
    · simp
    · intro d hd
      simp only [Bool.and_eq_true, decide_eq_true_eq]
      exact ⟨fun h => hcontent.1 (h ▸ hd), fun h => hcontent.2 (h ▸ hd)⟩
  apply scans_of_read
  rw [Piece.read_of_isQuote hquote, Piece.readString_eq_ok_iff, htake]
  simp

/-- A number is read as its value where it stands apart from what follows. -/
theorem scans_literal {lit : Literal} (h : lit.Accepted) (hrest : Apart rest) :
    Scans lit.chars rest (OneToken (.number lit.value) (String.ofList lit.chars)) := by
  have hread : Numeral.read (lit.spelling.chars ++ []) =
      .ok ⟨lit.spelling.magnitude, lit.spelling.chars.length⟩ := by
    rw [List.append_nil]
    exact h
  obtain ⟨c, cs, hchars, hpiece⟩ := Piece.read_literal hread
  rw [hchars] at hpiece ⊢
  exact scans_of_read (Piece.read_append_congr hpiece (Nat.le_refl _) hrest fun hnone => by cases hnone)

/-- A number that is printed is read as the number. -/
theorem scans_toString {v : Int} (hleast : -(2 ^ 63) ≤ v) (hmost : v < 2 ^ 63)
    (hrest : Apart rest) : Scans (toString v).toList rest (OneToken (.number v) (toString v)) := by
  have hmagnitude : (Literal.ofInt v).spelling.magnitude = v.natAbs := Digits.value_ofNat v.natAbs
  have haccepted : (Literal.ofInt v).Accepted := by
    refine Literal.accepted_iff.mpr ⟨?_, id⟩
    rw [hmagnitude]
    omega
  have hscans := scans_literal haccepted hrest
  rwa [Literal.value_ofInt, Literal.chars_ofInt, String.ofList_toList] at hscans

end scans

/-! ### Lines -/

/-- A text that is one line has the listing of this line, or its report. -/
theorem Listing.parse_of_line {source : String} {Shape : List Token → Prop}
    (h : Scans source.toList [] Shape) (hfree : ∀ ts, Shape ts → ∀ t ∈ ts, t.kind ≠ .newline) :
    ∃ ts stop, Shape ts ∧ Delimits stop ∧
      parse source = (Segment.lineStatements stop ts).map ofStatements := by
  obtain ⟨ts, hshape, hscan⟩ := h {}
  rw [List.append_nil, scan] at hscan
  have htokens : tokenize source =
      .ok (ts ++ [⟨.eof, "", (({} : Position).advance source.toList).span 0⟩]) := hscan
  obtain ⟨ahead, eof, heq, heof, hahead⟩ := scan_ends htokens
  obtain ⟨rfl, hlast⟩ := List.append_inj' heq rfl
  cases hlast
  refine ⟨ts, _, hshape, .inr (.inr heof), ?_⟩
  have hparse : parse source = ofTokens (ts ++ [⟨.eof, "", _⟩]) := congrArg (· >>= ofTokens) htokens
  rw [hparse, ofTokens, readStatements, Segment.ofTokens?_append_eof hahead heof]
  dsimp only
  rw [Segment.statements, Segment.splitOn_of_free (hfree ts hshape), List.mapM_cons]
  cases Segment.lineStatements _ ts with
  | error report => rfl
  | ok sts =>
      show Except.ok (ofStatements ([sts].flatten)) = .ok (ofStatements sts)
      rw [List.flatten_singleton]

theorem Listing.parse_of_scans {source : String} {sts : List Statement}
    (h : Scans source.toList [] (Line · sts)) : parse source = .ok (ofStatements sts) := by
  obtain ⟨ts, stop, hline, hstop, hparse⟩ := parse_of_line h fun _ hline => hline.newline_free
  rw [hparse, (Segment.lineStatements_eq_ok_iff hstop).mpr hline]
  rfl

end X64Asm
