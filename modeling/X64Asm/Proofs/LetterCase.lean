import X64Asm.Proofs.AlikeReadings
import X64Asm.Proofs.ByteText

/-! # Letters in upper and lower case

Texts that differ only in the case of letters are both read or both refused, and the listings that
they spell differ only in the letters of names and data.  Their instructions are the same
(`Listing.parse_caseVariant`).

All sorts of characters that the scanner tells apart hold both cases of a letter or none (`Caseless`),
and a digit has the same value in both cases.  So pieces of the same length are read
(`Piece.Reads.sameLetters`), and the tokens are alike up to case (`Likeness.upToCase`). -/

namespace X64Asm

open List (Forall₂)

/-! ### Characters in two cases -/

/-- The same character, or the same letter from `A` to `Z` in the two cases. -/
def CaseVariant (c d : Char) : Prop :=
  c = d ∨ ('A' ≤ c ∧ c ≤ 'Z') ∧ d.toNat = c.toNat + 32 ∨ ('A' ≤ d ∧ d ≤ 'Z') ∧ c.toNat = d.toNat + 32

instance (c d : Char) : Decidable (CaseVariant c d) := inferInstanceAs (Decidable (_ ∨ _))

/-- The function does not tell a letter from its lower case. -/
def Caseless {β : Type} (f : Char → β) : Prop := ∀ c : Char, f c.toLower = f c

section characters

variable {β : Type} {f : Char → β} {c d : Char}

theorem toLower_of_le (h : 128 ≤ c.toNat) : c.toLower = c := by
  have hupper : ¬ (c.val ≥ 65 ∧ c.val ≤ 90) := by
    intro hupper
    have hle : c.toNat ≤ 90 := UInt32.le_iff_toNat_le.mp hupper.2
    omega
  exact dif_neg hupper

/-- It is enough to look at the characters of ASCII. -/
theorem caseless_of_ascii (h : ∀ n < 128, f (Char.ofNat n).toLower = f (Char.ofNat n)) :
    Caseless f := by
  intro c
  rcases Nat.lt_or_ge c.toNat 128 with hlt | hge
  · have hc := h c.toNat hlt
    rwa [Char.ofNat_toNat] at hc
  · rw [toLower_of_le hge]

theorem Caseless.congr (h : Caseless f) (hcd : c.toLower = d.toLower) : f c = f d := by
  rw [← h c, hcd, h d]

theorem toLower_of_letter (h : 'A' ≤ c ∧ c ≤ 'Z') (hd : d.toNat = c.toNat + 32) :
    d.toLower = c.toLower := by
  have hascii : ∀ n < 91, 65 ≤ n →
      (Char.ofNat (n + 32)).toLower = (Char.ofNat n).toLower := by
    decide +kernel
  have hle : c.toNat ≤ 90 := UInt32.le_iff_toNat_le.mp h.2
  have hge : 65 ≤ c.toNat := UInt32.le_iff_toNat_le.mp h.1
  have hc := hascii c.toNat (by omega) hge
  rwa [← hd, Char.ofNat_toNat, Char.ofNat_toNat] at hc

theorem CaseVariant.toLower_eq (h : CaseVariant c d) : c.toLower = d.toLower := by
  rcases h with rfl | ⟨letter, hd⟩ | ⟨letter, hc⟩
  · rfl
  · exact (toLower_of_letter letter hd).symm
  · exact toLower_of_letter letter hc

theorem Caseless.and {p q : Char → Bool} (hp : Caseless p) (hq : Caseless q) :
    Caseless fun c => p c && q c := by
  intro c
  show (p c.toLower && q c.toLower) = (p c && q c)
  rw [hp c, hq c]

/-- What the scanner looks at in a character. -/
structure CharSorts where
  blank : Bool
  digit : Bool
  letter : Bool
  start : Bool
  rest : Bool
  value : Option Nat
  base : Option Base
  suffix : Bool
  deriving DecidableEq

/-- The sorts that a character is of. -/
def CharSorts.of (c : Char) : CharSorts where
  blank := isBlank c
  digit := c.isDigit
  letter := c.isAlpha
  start := isIdentStart c
  rest := isIdentRest c
  value := Base.digitValue? c
  base := Base.ofMark? c
  suffix := decide (c = 'h' ∨ c = 'H')

/-- Nothing that the scanner looks at depends on the case. -/
theorem caseless_sorts : Caseless CharSorts.of := caseless_of_ascii (by decide +kernel)

theorem caseless_isBlank : Caseless isBlank := fun c => congrArg CharSorts.blank (caseless_sorts c)

theorem caseless_isDigit : Caseless Char.isDigit := fun c =>
  congrArg CharSorts.digit (caseless_sorts c)

theorem caseless_isIdentStart : Caseless isIdentStart := fun c =>
  congrArg CharSorts.start (caseless_sorts c)

theorem caseless_isIdentRest : Caseless isIdentRest := fun c =>
  congrArg CharSorts.rest (caseless_sorts c)

theorem caseless_digitValue? : Caseless Base.digitValue? := fun c =>
  congrArg CharSorts.value (caseless_sorts c)

theorem caseless_ofMark? : Caseless Base.ofMark? := fun c =>
  congrArg CharSorts.base (caseless_sorts c)

theorem Base.caseless_isDigit (base : Base) : Caseless base.isDigit := by
  intro c
  rw [isDigit, caseless_digitValue? c, isDigit]

theorem toLower_of_isAlpha_eq_false (h : c.isAlpha = false) : c.toLower = c := by
  rcases Nat.lt_or_ge c.toNat 128 with hlt | hge
  · have hascii : ∀ n < 128, (Char.ofNat n).isAlpha = false → (Char.ofNat n).toLower = Char.ofNat n := by
      decide +kernel
    have hc := hascii c.toNat hlt
    rw [Char.ofNat_toNat] at hc
    exact hc h
  · exact toLower_of_le hge

/-- A character that is no letter has no other case. -/
theorem eq_of_toLower_eq (hcd : c.toLower = d.toLower) (hc : c.isAlpha = false) : d = c := by
  have halpha : Caseless Char.isAlpha := fun c => congrArg CharSorts.letter (caseless_sorts c)
  have hd : d.isAlpha = false := (halpha.congr hcd).symm.trans hc
  rw [← toLower_of_isAlpha_eq_false hc, ← toLower_of_isAlpha_eq_false hd, hcd]

theorem caseless_ne {x : Char} (hx : x.isAlpha = false) : Caseless fun c => decide (c ≠ x) := by
  intro c
  rw [decide_eq_decide, not_iff_not]
  constructor
  · intro hc
    exact eq_of_toLower_eq ((toLower_of_isAlpha_eq_false hx).trans hc.symm) hx
  · rintro rfl
    exact toLower_of_isAlpha_eq_false hx

end characters

/-! ### Texts in two cases -/

/-- The characters differ at most in the case of letters. -/
def SameLetters (cs ds : List Char) : Prop := cs.map Char.toLower = ds.map Char.toLower

theorem toList_toLower (text : String) : text.toLower.toList = text.toList.map Char.toLower :=
  String.toList_map

theorem toLower_toLower (text : String) : text.toLower.toLower = text.toLower := by
  have hlower : Caseless Char.toLower := caseless_of_ascii (by decide +kernel)
  apply String.toList_inj.mp
  rw [toList_toLower, toList_toLower, List.map_map]
  exact List.map_congr_left fun c _ => hlower c

namespace SameLetters

variable {c d : Char} {cs ds : List Char} {p : Char → Bool}

theorem symm (h : SameLetters cs ds) : SameLetters ds cs := Eq.symm h

theorem cons_iff : SameLetters (c :: cs) (d :: ds) ↔ c.toLower = d.toLower ∧ SameLetters cs ds :=
  List.cons_eq_cons

theorem length_eq (h : SameLetters cs ds) : cs.length = ds.length := by
  simpa using congrArg List.length h

theorem take (h : SameLetters cs ds) (n : Nat) : SameLetters (cs.take n) (ds.take n) := by
  unfold SameLetters
  rw [List.map_take, List.map_take, h]

theorem drop (h : SameLetters cs ds) (n : Nat) : SameLetters (cs.drop n) (ds.drop n) := by
  unfold SameLetters
  rw [List.map_drop, List.map_drop, h]

theorem takeWhile (h : SameLetters cs ds) (hp : Caseless p) :
    SameLetters (cs.takeWhile p) (ds.takeWhile p) := by
  have hlower : ∀ es : List Char,
      (es.takeWhile p).map Char.toLower = (es.map Char.toLower).takeWhile p := by
    intro es
    rw [List.takeWhile_map, show p ∘ Char.toLower = p from funext hp]
  unfold SameLetters
  rw [hlower, hlower, h]

theorem getElem? (h : SameLetters cs ds) (n : Nat) :
    cs[n]?.map Char.toLower = ds[n]?.map Char.toLower := by
  rw [← List.getElem?_map, ← List.getElem?_map, h]

/-- What is no letter stands at the same place. -/
theorem getElem?_eq_some_iff (h : SameLetters cs ds) {n : Nat} {x : Char} (hx : x.isAlpha = false) :
    cs[n]? = some x ↔ ds[n]? = some x := by
  have hn := h.getElem? n
  constructor
  · intro hc
    rw [hc, Option.map_some] at hn
    obtain ⟨d, hd, hlower⟩ := Option.map_eq_some_iff.mp hn.symm
    rw [hd, eq_of_toLower_eq hlower.symm hx]
  · intro hd
    rw [hd, Option.map_some] at hn
    obtain ⟨c, hc, hlower⟩ := Option.map_eq_some_iff.mp hn
    rw [hc, eq_of_toLower_eq hlower.symm hx]

theorem any_getElem? (h : SameLetters cs ds) (hp : Caseless p) (n : Nat) :
    cs[n]?.any p = ds[n]?.any p := by
  have hlower : ∀ x : Option Char, (x.map Char.toLower).any p = x.any p := by
    intro x
    cases x with
    | none => rfl
    | some c => exact hp c
  rw [← hlower cs[n]?, ← hlower ds[n]?, h.getElem? n]

theorem exists_cons (h : SameLetters (c :: cs) ds) :
    ∃ d es, ds = d :: es ∧ c.toLower = d.toLower ∧ SameLetters cs es := by
  cases ds with
  | nil => cases h
  | cons d es => exact ⟨d, es, rfl, cons_iff.mp h⟩

theorem toLower_ofList (h : SameLetters cs ds) :
    (String.ofList cs).toLower = (String.ofList ds).toLower := by
  apply String.toList_inj.mp
  rw [toList_toLower, toList_toLower, String.toList_ofList, String.toList_ofList, h]

end SameLetters

/-! ### Numbers -/

section numerals

variable {cs ds : List Char} {n : Numeral}

theorem SameLetters.value_eq (h : SameLetters cs ds) (base : Base) : base.value cs = base.value ds := by
  have hlower : ∀ es : List Char, base.value (es.map Char.toLower) = base.value es := by
    intro es
    unfold Base.value
    rw [List.foldl_map]
    simp only [caseless_digitValue? _]
  rw [← hlower cs, ← hlower ds, h]

namespace Numeral

theorem readMarked_sameLetters {base : Base} (h : readMarked base cs = .ok n)
    (hcs : SameLetters cs ds) : readMarked base ds = .ok n := by
  have hdigits := hcs.takeWhile base.caseless_isDigit
  rw [readMarked_eq_ok_iff] at h ⊢
  rw [← hdigits.value_eq base, ← hdigits.length_eq]
  refine ⟨fun hnil => h.1 ?_, h.2⟩
  rw [hnil] at hdigits
  exact List.length_eq_zero_iff.mp hdigits.length_eq

theorem suffix_sameLetters (hcs : SameLetters cs ds) (k : Nat) :
    cs[k]? = some 'h' ∨ cs[k]? = some 'H' ↔ ds[k]? = some 'h' ∨ ds[k]? = some 'H' := by
  have hsuffix : Caseless fun c => decide (c = 'h' ∨ c = 'H') := fun c =>
    congrArg CharSorts.suffix (caseless_sorts c)
  have hany : ∀ x : Option Char,
      x = some 'h' ∨ x = some 'H' ↔ x.any (fun c => decide (c = 'h' ∨ c = 'H')) = true := by
    intro x
    cases x with
    | none => simp
    | some c => simp
  rw [hany, hany, hcs.any_getElem? hsuffix k]

theorem readPlain_sameLetters (h : readPlain cs = .ok n) (hcs : SameLetters cs ds) :
    readPlain ds = .ok n := by
  have hhex := hcs.takeWhile Base.hexadecimal.caseless_isDigit
  have hdigits := hcs.takeWhile Base.decimal.caseless_isDigit
  have hsuffix := suffix_sameLetters hcs (cs.takeWhile Base.hexadecimal.isDigit).length
  rw [readPlain_eq] at h ⊢
  dsimp only at h ⊢
  rw [← hhex.length_eq, ← hhex.value_eq, ← hdigits.length_eq, ← hdigits.value_eq]
  split at h
  · next hmark =>
    rw [if_pos (hsuffix.mp hmark)]
    exact bounded_eq_ok_iff.mpr (bounded_eq_ok_iff.mp h)
  · next hmark =>
    rw [if_neg fun hmark' => hmark (hsuffix.mpr hmark')]
    exact bounded_eq_ok_iff.mpr (bounded_eq_ok_iff.mp h)

theorem marked_sameLetters {mark : Char} {others : List Char}
    (hcs : SameLetters ('0' :: mark :: others) ds) : ∃ mark' others',
    ds = '0' :: mark' :: others' ∧ Base.ofMark? mark' = Base.ofMark? mark ∧
      SameLetters others others' := by
  obtain ⟨d, es, rfl, hzero, hes⟩ := hcs.exists_cons
  obtain ⟨mark', others', rfl, hmark, hothers⟩ := hes.exists_cons
  obtain rfl := eq_of_toLower_eq hzero rfl
  exact ⟨mark', others', rfl, (caseless_ofMark?.congr hmark).symm, hothers⟩

/-- A number is read alike in both cases. -/
theorem read_sameLetters (h : read cs = .ok n) (hcs : SameLetters cs ds) : read ds = .ok n := by
  by_cases hmarked : ∃ mark others base, cs = '0' :: mark :: others ∧ Base.ofMark? mark = some base
  · obtain ⟨mark, others, base, rfl, hbase⟩ := hmarked
    obtain ⟨mark', others', rfl, hmark, hothers⟩ := marked_sameLetters hcs
    rw [read, hmark]
    rw [read] at h
    simp only [hbase] at h ⊢
    exact readMarked_sameLetters h hothers
  · have hplain : read cs = readPlain cs := by
      refine read_eq_readPlain fun mark others hcs' => Option.eq_none_iff_forall_ne_some.mpr ?_
      exact fun base hbase => hmarked ⟨mark, others, base, hcs', hbase⟩
    have hplain' : read ds = readPlain ds := by
      refine read_eq_readPlain fun mark others hds => Option.eq_none_iff_forall_ne_some.mpr ?_
      intro base hbase
      rw [hds] at hcs
      obtain ⟨mark', others', rfl, hmark, _⟩ := marked_sameLetters hcs.symm
      exact hmarked ⟨mark', others', base, rfl, hmark.trans hbase⟩
    rw [hplain] at h
    rw [hplain']
    exact readPlain_sameLetters h hcs

end Numeral

end numerals

/-! ### Pieces -/

namespace Piece

variable {c d : Char} {cs ds : List Char} {piece : Piece}

/-- Pieces of the same kind and length, and of the same text up to case. -/
structure SameLetters (piece piece' : Piece) : Prop where
  kind : piece.kind = piece'.kind
  text : piece.text.toLower = piece'.text.toLower
  more : piece.more = piece'.more

theorem isAlpha_of_isQuote (h : isQuote c = true) : c.isAlpha = false := by
  unfold isQuote at h
  rw [Bool.or_eq_true, decide_eq_true_eq, decide_eq_true_eq] at h
  rcases h with rfl | rfl <;> rfl

theorem isAlpha_of_mark {kind : TokenKind} (h : (c, kind) ∈ markKinds) : c.isAlpha = false := by
  simp only [markKinds, List.mem_cons, Prod.mk.injEq, List.not_mem_nil, or_false] at h
  rcases h with ⟨rfl, _⟩ | ⟨rfl, _⟩ | ⟨rfl, _⟩ | ⟨rfl, _⟩ <;> rfl

theorem readString_sameLetters (hc : c.isAlpha = false) (h : readString c cs = .ok piece)
    (hcs : X64Asm.SameLetters cs ds) :
    ∃ piece', readString c ds = .ok piece' ∧ SameLetters piece piece' := by
  obtain ⟨hclosed, rfl⟩ := readString_eq_ok_iff.mp h
  have hcontent := hcs.takeWhile ((caseless_ne hc).and (caseless_ne (x := '\n') rfl))
  refine ⟨_, readString_eq_ok_iff.mpr ⟨?_, rfl⟩, rfl, hcontent.toLower_ofList, ?_⟩
  · rw [← hcontent.length_eq]
    exact (hcs.getElem?_eq_some_iff hc).mp hclosed
  · exact congrArg (· + 1) hcontent.length_eq

theorem readNumber_sameLetters (h : readNumber c cs = .ok piece)
    (hcs : X64Asm.SameLetters (c :: cs) (d :: ds)) :
    ∃ piece', readNumber d ds = .ok piece' ∧ SameLetters piece piece' := by
  obtain ⟨n, hn, rfl⟩ := readNumber_eq_ok_iff.mp h
  refine ⟨_, readNumber_eq_ok_iff.mpr ⟨n, Numeral.read_sameLetters hn hcs, rfl⟩, rfl, ?_, rfl⟩
  exact (hcs.take n.length).toLower_ofList

theorem readNegative_sameLetters (h : readNegative cs = .ok piece)
    (hcs : X64Asm.SameLetters cs ds) :
    ∃ piece', readNegative ds = .ok piece' ∧ SameLetters piece piece' := by
  obtain ⟨n, hn, rfl⟩ := readNegative_eq_ok_iff.mp h
  refine ⟨_, readNegative_eq_ok_iff.mpr ⟨n, Numeral.read_sameLetters hn hcs, rfl⟩, rfl, ?_, rfl⟩
  exact (X64Asm.SameLetters.cons_iff.mpr ⟨rfl, hcs.take n.length⟩).toLower_ofList

theorem readName_sameLetters (hcs : X64Asm.SameLetters (c :: cs) (d :: ds)) :
    SameLetters (readName c cs) (readName d ds) := by
  obtain ⟨hfirst, hcs⟩ := X64Asm.SameLetters.cons_iff.mp hcs
  have hrest := hcs.takeWhile caseless_isIdentRest
  have hname : (String.ofList (c :: cs.takeWhile isIdentRest)).toLower =
      (String.ofList (d :: ds.takeWhile isIdentRest)).toLower :=
    (X64Asm.SameLetters.cons_iff.mpr ⟨hfirst, hrest⟩).toLower_ofList
  have hcolon := hcs.getElem?_eq_some_iff (n := (cs.takeWhile isIdentRest).length) (x := ':') rfl
  unfold readName
  dsimp only
  rw [← hrest.length_eq]
  by_cases h : cs[(cs.takeWhile isIdentRest).length]? = some ':'
  · rw [if_pos h, if_pos (hcolon.mp h)]
    exact ⟨rfl, hname, rfl⟩
  · rw [if_neg h, if_neg fun h' => h (hcolon.mpr h')]
    exact ⟨rfl, hname, rfl⟩

/-- Texts that differ only in case are cut into pieces alike. -/
theorem read_sameLetters (h : read c cs = .ok piece)
    (hcs : X64Asm.SameLetters (c :: cs) (d :: ds)) :
    ∃ piece', read d ds = .ok piece' ∧ SameLetters piece piece' := by
  simp only [read_eq_ok_iff] at h ⊢
  obtain ⟨hfirst, hrest⟩ := X64Asm.SameLetters.cons_iff.mp hcs
  cases h with
  | blanks first =>
      refine ⟨_, .blanks ((caseless_isBlank.congr hfirst).symm.trans first), rfl, rfl, ?_⟩
      exact (hrest.takeWhile caseless_isBlank).length_eq
  | comment first =>
      subst first
      refine ⟨_, .comment (eq_of_toLower_eq hfirst rfl), rfl, rfl, ?_⟩
      exact (hrest.takeWhile (caseless_ne rfl)).length_eq
  | mark first =>
      obtain rfl := eq_of_toLower_eq hfirst (isAlpha_of_mark first)
      exact ⟨_, .mark first, rfl, rfl, rfl⟩
  | string first read =>
      obtain rfl := eq_of_toLower_eq hfirst (isAlpha_of_isQuote first)
      obtain ⟨piece', hread, hsame⟩ := readString_sameLetters (isAlpha_of_isQuote first) read hrest
      exact ⟨piece', .string first hread, hsame⟩
  | number first read =>
      obtain ⟨piece', hread, hsame⟩ := readNumber_sameLetters read hcs
      exact ⟨piece', .number ((caseless_isDigit.congr hfirst).symm.trans first) hread, hsame⟩
  | negative first digit read =>
      subst first
      obtain ⟨piece', hread, hsame⟩ := readNegative_sameLetters read hrest
      refine ⟨piece', .negative (eq_of_toLower_eq hfirst rfl) ?_ hread, hsame⟩
      rw [List.head?_eq_getElem?] at digit ⊢
      exact (hrest.any_getElem? caseless_isDigit 0).symm.trans digit
  | name first =>
      exact ⟨_, .name ((caseless_isIdentStart.congr hfirst).symm.trans first), readName_sameLetters hcs⟩

end Piece

/-! ### Names and data up to case -/

namespace Bytes

/-- A byte in lower case, if it is the code of a letter. -/
def lowerByte (b : UInt8) : UInt8 := if 65 ≤ b ∧ b ≤ 90 then b + 32 else b

/-- The bytes with all letters of ASCII in lower case. -/
def toLower (bytes : Bytes) : Bytes := bytes.map lowerByte

theorem utf8EncodeChar_toLower (c : Char) :
    String.utf8EncodeChar c.toLower = (String.utf8EncodeChar c).map lowerByte := by
  rcases Nat.lt_or_ge c.toNat 128 with hlt | hge
  · have hascii : ∀ n < 128, String.utf8EncodeChar (Char.ofNat n).toLower =
        (String.utf8EncodeChar (Char.ofNat n)).map lowerByte := by
      decide +kernel
    have hc := hascii c.toNat hlt
    rwa [Char.ofNat_toNat] at hc
  · have hbyte : ∀ b ∈ String.utf8EncodeChar c, lowerByte b = b := by
      intro b hb
      have hle := Checked.le_of_mem_utf8EncodeChar hge hb
      refine if_neg fun hupper => ?_
      have hupper' : b.toNat ≤ 90 := UInt8.le_iff_toNat_le.mp hupper.2
      omega
    rw [toLower_of_le hge, List.map_congr_left hbyte, List.map_id']

theorem ofString_toLower (text : String) : ofString text.toLower = toLower (ofString text) := by
  unfold ofString toLower
  rw [toList_toLower, List.flatMap_map, List.map_flatMap]
  simp only [utf8EncodeChar_toLower]

end Bytes

/-- Names and data are to be the same in lower case; reports are not compared. -/
def Likeness.upToCase : Likeness where
  name := String.toLower
  data := Bytes.toLower
  Report _ _ := True
  toLower_of_name h := h
  data_of_name h := by rw [← Bytes.ofString_toLower, h, Bytes.ofString_toLower]
  isEmpty_name text := by
    rw [Bool.eq_iff_iff, String.isEmpty_iff, String.isEmpty_iff, ← String.toList_inj,
      toList_toLower, ← String.toList_inj]
    simp
  complaint _ _ _ _ := trivial
  tooWide _ _ _ _ := trivial

/-- The instruction that the entry is. -/
def SectionEntry.instruction? : SectionEntry → Option Instruction
  | .instruction i => some i
  | _ => none

/-- The instructions of a listing, in order. -/
def Listing.instructions (l : Listing) : List Instruction :=
  l.directives.flatMap fun
    | .sectionBlock _ entries => entries.filterMap SectionEntry.instruction?
    | _ => []

/-- The listing with all names and data in lower case. -/
def Listing.toLower (l : Listing) : Listing := l.reword String.toLower Bytes.toLower

/-- Names and data put into other words leave the instructions as they are. -/
theorem Listing.instructions_reword (name : String → String) (data : Bytes → Bytes) (l : Listing) :
    (l.reword name data).instructions = l.instructions := by
  have hentry : ∀ entry : SectionEntry,
      (entry.reword name data).instruction? = entry.instruction? := by
    intro entry
    cases entry <;> rfl
  unfold instructions reword
  rw [List.flatMap_map]
  congr 1
  funext d
  cases d with
  | importSymbol text => rfl
  | exportSymbol text => rfl
  | sectionBlock text entries =>
      simp only [Directive.reword, List.filterMap_map, Function.comp_def, hentry]

/-! ### Tokens up to case -/

section texts

variable {p q : Position} {cs ds : List Char} {ts : List Token}

theorem scan_sameLetters (h : scan p cs = .ok ts) (hcs : SameLetters cs ds) (q : Position) :
    ∃ us, scan q ds = .ok us ∧ Forall₂ Likeness.upToCase.Tokens ts us := by
  fun_induction scan p cs generalizing ts ds q with
  | case1 p =>
      cases h
      obtain rfl : ds = [] := List.length_eq_zero_iff.mp hcs.length_eq.symm
      exact ⟨[⟨.eof, "", q.span 0⟩], by rw [scan], .cons ⟨rfl, rfl⟩ .nil⟩
  | case2 => cases h
  | case3 => cases h
  | case4 p c cs piece hpiece chars rest hrest =>
      rename_i ih
      cases h
      obtain ⟨d, es, rfl, _⟩ := hcs.exists_cons
      obtain ⟨piece', hpiece', hsame⟩ := Piece.read_sameLetters hpiece hcs
      have hbehind : SameLetters (cs.drop piece.more) (es.drop piece'.more) := by
        rw [hsame.more]
        exact (SameLetters.cons_iff.mp hcs).2.drop _
      obtain ⟨us, hus, halike⟩ := ih hrest hbehind (q.advance (d :: es.take piece'.more))
      refine ⟨_, scan_cons hpiece' hus, List.rel_append ?_ halike⟩
      unfold Piece.token?
      rw [← hsame.kind]
      cases piece.kind with
      | none => exact .nil
      | some kind => exact .cons ⟨rfl, hsame.text⟩ .nil

variable {a b : String} (h : SameLetters a.toList b.toList)

include h

theorem agree_tokenize : Agree (Forall₂ Likeness.upToCase.Tokens) Likeness.upToCase.Report
    (tokenize a) (tokenize b) := by
  cases ha : tokenize a with
  | ok ts =>
      obtain ⟨us, hus, halike⟩ := scan_sameLetters ha h {}
      rw [tokenize, hus]
      exact .ok halike
  | error report =>
      cases hb : tokenize b with
      | ok us =>
          obtain ⟨ts, hts, _⟩ := scan_sameLetters hb h.symm {}
          rw [tokenize, hts] at ha
          cases ha
      | error report' => exact .error trivial

theorem Listing.agree_parse : Agree Likeness.upToCase.Listings Likeness.upToCase.Report
    (parse a) (parse b) :=
  (agree_tokenize h).bind fun _ _ htokens => Likeness.agree_ofTokens htokens

end texts

theorem sameLetters_of_caseVariant {cs ds : List Char} (h : Forall₂ CaseVariant cs ds) :
    SameLetters cs ds :=
  map_eq_map_of_forall₂ (h.imp fun _ _ hc => hc.toLower_eq)

/-- Two texts that differ only in the case of letters both spell a listing or neither does.  The
listings are the same with all names and data in lower case, and have the same instructions. -/
theorem Listing.parse_caseVariant {a b : String} (h : Forall₂ CaseVariant a.toList b.toList) :
    ((∃ l, parse a = .ok l) ↔ ∃ l', parse b = .ok l') ∧
    ∀ l l', parse a = .ok l → parse b = .ok l' →
      l.toLower = l'.toLower ∧ l.instructions = l'.instructions := by
  have hagree := agree_parse (sameLetters_of_caseVariant h)
  refine ⟨hagree.exists_ok_iff, fun l l' hl hl' => ?_⟩
  rw [hl, hl'] at hagree
  have hlower : l.toLower = l'.toLower := hagree.of_ok
  refine ⟨hlower, ?_⟩
  rw [← l.instructions_reword String.toLower Bytes.toLower,
    ← l'.instructions_reword String.toLower Bytes.toLower]
  exact congrArg instructions hlower

/-- Markers, digits and suffixes of numbers, a keyword, a mnemonic and registers in both cases.  The
name and the string keep theirs. -/
theorem Listing.parse_caseVariant_mixed : ∃ l l',
    Forall₂ CaseVariant "Aa: DB 'Zé', 0X1f,0FaH\nMov r10L,[RBX]".toList
      "aA: db 'zé', 0x1F,0fAh\nmoV R10l,[rbx]".toList ∧
    parse "Aa: DB 'Zé', 0X1f,0FaH\nMov r10L,[RBX]" = .ok l ∧
    parse "aA: db 'zé', 0x1F,0fAh\nmoV R10l,[rbx]" = .ok l' ∧ l ≠ l' ∧
    l.toLower = l'.toLower ∧ l.instructions = l'.instructions := by
  have h : Forall₂ CaseVariant "Aa: DB 'Zé', 0X1f,0FaH\nMov r10L,[RBX]".toList
      "aA: db 'zé', 0x1F,0fAh\nmoV R10l,[rbx]".toList := by
    decide +kernel
  have hl : parse "Aa: DB 'Zé', 0X1f,0FaH\nMov r10L,[RBX]" =
      .ok ⟨[.sectionBlock "" [.label "Aa", .data [0x5A, 0xC3, 0xA9], .data [0x1F], .data [0xFA],
        .instruction ⟨64, "mov", [.register ⟨"r10l", .byte⟩, .memory (.base ⟨"rbx", .qword⟩)]⟩]]⟩ := by
    decide +kernel
  have hl' : parse "aA: db 'zé', 0x1F,0fAh\nmoV R10l,[rbx]" =
      .ok ⟨[.sectionBlock "" [.label "aA", .data [0x7A, 0xC3, 0xA9], .data [0x1F], .data [0xFA],
        .instruction ⟨64, "mov", [.register ⟨"r10l", .byte⟩, .memory (.base ⟨"rbx", .qword⟩)]⟩]]⟩ := by
    decide +kernel
  exact ⟨_, _, h, hl, hl', by decide, (parse_caseVariant h).2 _ _ hl hl'⟩

end X64Asm
