import Mathlib.Data.Nat.Digits.Defs
import X64Asm.Proofs.CheckedScan

/-! # Numbers as they are written

A number has a sign or none, and its magnitude is written in one of three ways (`Spelling`):

* as decimal digits;
* as digits of a base, behind a marker that tells the base;
* as hexadecimal digits of which the first is a decimal one, with an `h` behind them.

The magnitude is what the digits come to by their places (`Base.positional`).  None of this mentions
how numbers are read.

A number is read for what it is (`Numeral.read_spelling`), with one exception.  Markers are looked for
first, so hexadecimal digits that begin with `0b` are taken for a binary number
(`Spelling.Ambiguous`), and at most a part of them is read (`Spelling.Ambiguous.misread`). -/

namespace X64Asm

/-! ### Digits -/

/-- The digits of all bases in lower case, each at the place of its value. -/
def digitTable : List Char :=
  ['0', '1', '2', '3', '4', '5', '6', '7', '8', '9', 'a', 'b', 'c', 'd', 'e', 'f']

/-- The digits in either case. -/
def digitChars : List Char := digitTable ++ ['A', 'B', 'C', 'D', 'E', 'F']

/-- The value of a digit, in either case. -/
def digitNumber (c : Char) : Nat := digitTable.idxOf c.toLower

namespace Base

/-- The character is a digit of the base, in either case. -/
def Digit (base : Base) (c : Char) : Prop := c.toLower ∈ digitTable.take base.radix

instance (base : Base) (c : Char) : Decidable (base.Digit c) :=
  inferInstanceAs (Decidable (_ ∈ _))

/-- What digits come to, each counted by its place. -/
def positional (base : Base) (digits : List Char) : Nat :=
  Nat.ofDigits base.radix (digits.reverse.map digitNumber)

/-- The characters that make a marker of a zero. -/
def marks : Base → List Char
  | hexadecimal => ['x', 'X']
  | binary => ['b', 'B']
  | octal => ['o', 'O']
  | decimal => []

variable {base : Base} {c : Char} {digits : List Char}

theorem Digit.mem_digitChars (h : base.Digit c) : c ∈ digitChars := by
  have htable : c.toLower ∈ digitTable := List.mem_of_mem_take h
  by_cases hupper : c.val ≥ 'A'.val ∧ c.val ≤ 'Z'.val
  · have hascii : ∀ n < 128, (Char.ofNat n).toLower ∈ digitTable → Char.ofNat n ∈ digitChars := by
      decide +kernel
    have hle : c.toNat ≤ 90 := UInt32.le_iff_toNat_le.mp hupper.2
    have hmem := hascii c.toNat (by omega)
    rw [Char.ofNat_toNat] at hmem
    exact hmem htable
  · have hlower : c.toLower = c := dif_neg hupper
    rw [hlower] at htable
    exact List.mem_append_left _ htable

/-- What is checked for all digits holds of each. -/
theorem Digit.check {p : Char → Bool} (h : base.Digit c) (hall : digitChars.all p = true) :
    p c = true :=
  List.all_eq_true.mp hall c h.mem_digitChars

/-- The digits that are read are the digits of the table. -/
theorem isDigit_iff : base.isDigit c = true ↔ base.Digit c := by
  constructor
  · intro h
    have hascii : ∀ n < 128, base.isDigit (Char.ofNat n) = true → base.Digit (Char.ofNat n) := by
      cases base <;> decide +kernel
    have hdigit := hascii c.toNat (toNat_lt_of_isAlphanum (isAlphanum_of_isDigit h))
    rw [Char.ofNat_toNat] at hdigit
    exact hdigit h
  · intro h
    have hchars : digitChars.all (fun d => decide (base.Digit d → base.isDigit d = true)) = true := by
      cases base <;> decide +kernel
    exact of_decide_eq_true (h.check hchars) h

theorem isDigit_eq_false_iff : base.isDigit c = false ↔ ¬ base.Digit c := by
  rw [← isDigit_iff, Bool.not_eq_true]

theorem takeWhile_eq_nil {cs : List Char} (h : ∀ c ∈ cs.head?, ¬ base.Digit c) :
    cs.takeWhile base.isDigit = [] := by
  cases cs with
  | nil => rfl
  | cons c cs =>
      have hstop : base.isDigit c = false := isDigit_eq_false_iff.mpr (h c rfl)
      rw [List.takeWhile_cons, hstop]
      rfl

theorem Digit.isAlphanum (h : base.Digit c) : c.isAlphanum = true :=
  isAlphanum_of_isDigit (isDigit_iff.mpr h)

theorem Digit.digitValue?_eq (h : base.Digit c) : digitValue? c = some (digitNumber c) := by
  have hchars : digitChars.all (fun d => digitValue? d = some (digitNumber d)) = true := by
    decide +kernel
  exact of_decide_eq_true (h.check hchars)

theorem Digit.to_hexadecimal (h : decimal.Digit c) : hexadecimal.Digit c :=
  List.take_subset_take_left digitTable (by decide) h

theorem Digit.notMem_marks (h : decimal.Digit c) : c ∉ binary.marks := by
  have hmarks : binary.marks.all (fun d => ¬ decimal.Digit d) = true := by decide
  exact fun hmem => of_decide_eq_true (List.all_eq_true.mp hmarks c hmem) h

theorem Digit.isDigit_eq (h : decimal.Digit c) : c.isDigit = true := by
  have hchars : digitChars.all (fun d => decide (decimal.Digit d → d.isDigit = true)) = true := by
    decide +kernel
  exact of_decide_eq_true (h.check hchars) h

/-- The number that is read is what the digits come to. -/
theorem value_eq_positional (h : ∀ c ∈ digits, base.Digit c) :
    base.value digits = base.positional digits := by
  induction digits using List.reverseRecOn with
  | nil => rfl
  | append_singleton digits c ih =>
      have hdigits : ∀ d ∈ digits, base.Digit d := fun d hd => h d (List.mem_append_left _ hd)
      have hlast : Base.digitValue? c = some (digitNumber c) := (h c (by simp)).digitValue?_eq
      have hvalue : base.value (digits ++ [c]) = base.value digits * base.radix + digitNumber c := by
        simp [value, hlast]
      have hplaces : base.positional (digits ++ [c]) =
          digitNumber c + base.radix * base.positional digits := by
        simp [positional, Nat.ofDigits_cons]
      rw [hvalue, hplaces, ih hdigits, Nat.mul_comm, Nat.add_comm]

/-- The marks that are looked for are those of the bases. -/
theorem ofMark?_eq_some_iff {mark : Char} : ofMark? mark = some base ↔ mark ∈ base.marks := by
  constructor
  · intro h
    unfold ofMark? at h
    split at h <;> cases h <;> simp [marks]
  · intro h
    cases base <;> simp only [marks, List.mem_cons, List.not_mem_nil, or_false] at h
    all_goals rcases h with rfl | rfl <;> rfl

/-- Of the hexadecimal digits, only two are marks. -/
theorem ofMark?_of_digit (h : hexadecimal.Digit c) (hmark : c ∉ binary.marks) :
    ofMark? c = none := by
  have hchars : digitChars.all (fun d => decide (d ∉ binary.marks → ofMark? d = none)) = true := by
    decide +kernel
  exact of_decide_eq_true (h.check hchars) hmark

theorem isAlphanum_of_mem_marks (h : c ∈ base.marks) : c.isAlphanum = true := by
  have hmarks : base.marks.all Char.isAlphanum = true := by cases base <;> rfl
  exact List.all_eq_true.mp hmarks c h

theorem ofMark?_of_not_isAlphanum (h : c.isAlphanum = false) : ofMark? c = none := by
  cases hbase : ofMark? c with
  | none => rfl
  | some base =>
      rw [isAlphanum_of_mem_marks (ofMark?_eq_some_iff.mp hbase)] at h
      cases h

end Base

/-- Digits of a base, one or more. -/
structure Digits (base : Base) where
  chars : List Char
  nonempty : chars ≠ []
  digits : ∀ c ∈ chars, base.Digit c

namespace Digits

variable {base : Base}

/-- Digits that are checked one by one. -/
def ofChars (chars : List Char) (nonempty : chars ≠ [])
    (checked : chars.all (fun c => base.Digit c) = true) : Digits base :=
  ⟨chars, nonempty, fun c hc => of_decide_eq_true (List.all_eq_true.mp checked c hc)⟩

/-- What the digits come to. -/
def value (ds : Digits base) : Nat := base.positional ds.chars

theorem value_eq (ds : Digits base) : base.value ds.chars = ds.value :=
  Base.value_eq_positional ds.digits

/-- Decimal digits are hexadecimal ones. -/
def hexadecimal (ds : Digits .decimal) : Digits .hexadecimal :=
  ⟨ds.chars, ds.nonempty, fun c hc => (ds.digits c hc).to_hexadecimal⟩

/-- Digits are taken up to the first character that is none. -/
theorem takeWhile_append (ds : Digits base) {rest : List Char}
    (hrest : ∀ c ∈ rest.head?, ¬ base.Digit c) :
    (ds.chars ++ rest).takeWhile base.isDigit = ds.chars := by
  rw [List.takeWhile_append_of_pos fun c hc => Base.isDigit_iff.mpr (ds.digits c hc),
    Base.takeWhile_eq_nil hrest, List.append_nil]

end Digits

/-! ### Spellings -/

/-- How a magnitude is written. -/
inductive Spelling where
  | plain (digits : Digits .decimal)
  | marked {base : Base} (mark : Char) (stands : mark ∈ base.marks) (digits : Digits base)
  | suffixed (digits : Digits .hexadecimal)
      (first : ∀ c ∈ digits.chars.head?, Base.decimal.Digit c) (suffix : Char)
      (ends : suffix = 'h' ∨ suffix = 'H')

namespace Spelling

/-- Hexadecimal digits behind `0x`. -/
def hex (digits : Digits .hexadecimal) : Spelling :=
  marked 'x' (by decide : 'x' ∈ Base.hexadecimal.marks) digits

/-- Hexadecimal digits ahead of an `h`. -/
def hexSuffixed (digits : Digits .hexadecimal)
    (first : ∀ c ∈ digits.chars.head?, Base.decimal.Digit c) : Spelling :=
  suffixed digits first 'h' (.inl rfl)

/-- The characters that are written. -/
def chars : Spelling → List Char
  | plain digits => digits.chars
  | marked mark _ digits => '0' :: mark :: digits.chars
  | suffixed digits _ suffix _ => digits.chars ++ [suffix]

/-- The magnitude. -/
def magnitude : Spelling → Nat
  | plain digits => digits.value
  | marked _ _ digits => digits.value
  | suffixed digits _ _ _ => digits.value

/-- Whether an `h` ends it. -/
def isSuffixed : Spelling → Bool
  | suffixed _ _ _ _ => true
  | plain _ | marked _ _ _ => false

/-- Hexadecimal digits with an `h` behind them that begin like a binary number. -/
def Ambiguous : Spelling → Prop
  | suffixed digits _ _ _ => ∃ mark ∈ Base.binary.marks, ['0', mark] <+: digits.chars
  | plain _ | marked _ _ _ => False

instance : (sp : Spelling) → Decidable sp.Ambiguous
  | suffixed digits _ _ _ =>
      decidable_of_iff (Base.binary.marks.any (fun mark => ['0', mark] <+: digits.chars) = true)
        (by simp [Ambiguous])
  | plain _ | marked _ _ _ => inferInstanceAs (Decidable False)

end Spelling

/-- A number as it is written: a sign or none, and a magnitude. -/
structure Literal where
  negative : Bool
  spelling : Spelling

namespace Literal

/-- The sign, if there is one. -/
def sign (lit : Literal) : List Char := if lit.negative then ['-'] else []

/-- The characters that are written. -/
def chars (lit : Literal) : List Char := lit.sign ++ lit.spelling.chars

/-- The number. -/
def value (lit : Literal) : Int :=
  if lit.negative then -lit.spelling.magnitude else lit.spelling.magnitude

end Literal

/-- No letter and no digit follows. -/
def Stops (rest : List Char) : Prop := ∀ c ∈ rest.head?, c.isAlphanum = false

instance (rest : List Char) : Decidable (Stops rest) :=
  decidable_of_iff (rest.head?.all (fun c => !c.isAlphanum) = true)
    (by simp [Stops, Option.all_eq_true])

theorem Stops.not_digit {rest : List Char} (h : Stops rest) (base : Base) :
    ∀ c ∈ rest.head?, ¬ base.Digit c := by
  intro c hc hdigit
  have halnum := hdigit.isAlphanum
  rw [h c hc] at halnum
  cases halnum

namespace Spelling

/-- What follows does not go on with the number. -/
def EndsAhead (rest : List Char) : Spelling → Prop
  | plain _ => Stops rest
  | @marked base _ _ _ => ∀ c ∈ rest.head?, ¬ base.Digit c
  | suffixed _ _ _ _ => True

variable {sp : Spelling} {rest : List Char}

theorem endsAhead_of_stops (h : Stops rest) (sp : Spelling) : sp.EndsAhead rest := by
  cases sp with
  | plain digits => exact h
  | marked mark stands digits => exact h.not_digit _
  | suffixed digits first suffix ends => trivial

theorem endsAhead_of_isSuffixed (h : sp.isSuffixed = true) : sp.EndsAhead rest := by
  cases sp with
  | plain digits => cases h
  | marked mark stands digits => cases h
  | suffixed digits first suffix ends => trivial

theorem isAlphanum_of_mem {c : Char} (h : c ∈ sp.chars) : c.isAlphanum = true := by
  cases sp with
  | plain digits => exact (digits.digits c h).isAlphanum
  | @marked base mark stands digits =>
      simp only [chars, List.mem_cons] at h
      rcases h with rfl | rfl | h
      · decide
      · exact Base.isAlphanum_of_mem_marks stands
      · exact (digits.digits c h).isAlphanum
  | suffixed digits first suffix ends =>
      simp only [chars, List.mem_append, List.mem_singleton] at h
      rcases h with h | rfl
      · exact (digits.digits c h).isAlphanum
      · rcases ends with rfl | rfl <;> decide

/-- However a magnitude is written, it begins with a decimal digit. -/
theorem exists_first (sp : Spelling) : ∃ c cs, sp.chars = c :: cs ∧ c.isDigit = true := by
  cases sp with
  | plain digits =>
      obtain ⟨c, cs, hchars⟩ := List.exists_cons_of_ne_nil digits.nonempty
      have hdigit : Base.decimal.Digit c := digits.digits c (by simp [hchars])
      exact ⟨c, cs, hchars, hdigit.isDigit_eq⟩
  | marked mark stands digits => exact ⟨'0', mark :: digits.chars, rfl, rfl⟩
  | suffixed digits first suffix ends =>
      obtain ⟨c, cs, hchars⟩ := List.exists_cons_of_ne_nil digits.nonempty
      have hdigit : Base.decimal.Digit c := first c (by rw [hchars]; rfl)
      exact ⟨c, cs ++ [suffix], by rw [chars, hchars]; rfl, hdigit.isDigit_eq⟩

end Spelling

/-! ### Reading a magnitude -/

namespace Numeral

variable {rest : List Char}

theorem read_plain (digits : Digits .decimal) (hstop : Stops rest) :
    ∃ complaint, read (digits.chars ++ rest) =
      bounded digits.value digits.chars.length complaint := by
  have hhex : (digits.chars ++ rest).takeWhile Base.hexadecimal.isDigit = digits.chars :=
    digits.hexadecimal.takeWhile_append (hstop.not_digit .hexadecimal)
  have hdecimal : (digits.chars ++ rest).takeWhile Base.decimal.isDigit = digits.chars :=
    digits.takeWhile_append (hstop.not_digit .decimal)
  have hbehind : (digits.chars ++ rest)[digits.chars.length]? = rest.head? := by
    rw [List.getElem?_append_right (Nat.le_refl _), Nat.sub_self, List.head?_eq_getElem?]
  have hmark : ∀ c, c.isAlphanum = true → rest.head? ≠ some c := by
    intro c hc hhead
    rw [hstop c hhead] at hc
    cases hc
  rw [read_eq_readPlain ?_]
  · refine ⟨.numberTooLarge (String.ofList digits.chars), ?_⟩
    rw [readPlain_eq]
    dsimp only
    rw [hhex, hdecimal, hbehind, if_neg (not_or.mpr ⟨hmark 'h' rfl, hmark 'H' rfl⟩), digits.value_eq]
  · -- behind a zero there is another decimal digit, or what follows the number
    intro mark others hchars
    rcases List.append_eq_cons_iff.mp hchars with ⟨hnil, _⟩ | ⟨ds, hds, hothers⟩
    · exact absurd hnil digits.nonempty
    · rcases List.append_eq_cons_iff.mp hothers.symm with ⟨_, hrest⟩ | ⟨es, hes, _⟩
      · exact Base.ofMark?_of_not_isAlphanum (hstop mark (by rw [hrest]; rfl))
      · have hdigit : Base.decimal.Digit mark := digits.digits mark (by simp [hds, hes])
        exact Base.ofMark?_of_digit hdigit.to_hexadecimal hdigit.notMem_marks

theorem read_marked {base : Base} {mark : Char} (hmark : mark ∈ base.marks) (digits : Digits base)
    (hrest : ∀ c ∈ rest.head?, ¬ base.Digit c) :
    ∃ complaint, read ('0' :: mark :: (digits.chars ++ rest)) =
      bounded digits.value (digits.chars.length + 2) complaint := by
  have hne : digits.chars.isEmpty = false := by simpa using digits.nonempty
  refine ⟨.numberTooLarge (base.marker ++ String.ofList digits.chars), ?_⟩
  rw [read, Base.ofMark?_eq_some_iff.mpr hmark]
  dsimp only [readMarked]
  rw [digits.takeWhile_append hrest, hne, digits.value_eq, Nat.add_comm]
  rfl

/-- The suffix is no digit, so it ends the digits whatever follows. -/
theorem read_suffixed (digits : Digits .hexadecimal) {suffix : Char}
    (hsuffix : suffix = 'h' ∨ suffix = 'H')
    (hclear : ¬ ∃ mark ∈ Base.binary.marks, ['0', mark] <+: digits.chars) (rest : List Char) :
    ∃ complaint, read (digits.chars ++ suffix :: rest) =
      bounded digits.value (digits.chars.length + 1) complaint := by
  have hnone : ¬ Base.hexadecimal.Digit suffix ∧ Base.ofMark? suffix = none := by
    rcases hsuffix with rfl | rfl <;> decide
  have hhex : (digits.chars ++ suffix :: rest).takeWhile Base.hexadecimal.isDigit = digits.chars :=
    digits.takeWhile_append (by rintro c ⟨⟩; exact hnone.1)
  have hbehind : (digits.chars ++ suffix :: rest)[digits.chars.length]? = some suffix := by simp
  rw [read_eq_readPlain ?_]
  · refine ⟨.hexNumberTooLarge (String.ofList digits.chars), ?_⟩
    rw [readPlain_eq]
    dsimp only
    rw [hhex, hbehind, if_pos (by simpa using hsuffix), digits.value_eq]
  · intro mark others hchars
    rcases List.append_eq_cons_iff.mp hchars with ⟨hnil, _⟩ | ⟨ds, hds, hothers⟩
    · exact absurd hnil digits.nonempty
    · rcases List.append_eq_cons_iff.mp hothers.symm with ⟨_, hrest⟩ | ⟨es, hes, _⟩
      · cases hrest
        exact hnone.2
      · have hdigit : Base.hexadecimal.Digit mark := digits.digits mark (by simp [hds, hes])
        refine Base.ofMark?_of_digit hdigit fun hmark => hclear ⟨mark, hmark, es, ?_⟩
        rw [hds, hes]
        rfl

/-- A number is read for what it is, unless it begins like another. -/
theorem read_spelling {sp : Spelling} (hends : sp.EndsAhead rest) (hclear : ¬ sp.Ambiguous) :
    ∃ complaint, read (sp.chars ++ rest) = bounded sp.magnitude sp.chars.length complaint := by
  cases sp with
  | plain digits => exact read_plain digits hends
  | marked mark stands digits => exact read_marked stands digits hends
  | suffixed digits first suffix ends =>
      obtain ⟨complaint, hread⟩ := read_suffixed digits ends hclear rest
      refine ⟨complaint, ?_⟩
      rw [Spelling.chars, List.append_assoc, List.length_append]
      exact hread

end Numeral

/-- A number that begins like a binary one is no number, or a part of it is read as the binary number
that it begins with. -/
theorem Spelling.Ambiguous.misread {sp : Spelling} (h : sp.Ambiguous) (rest : List Char) :
    (∃ bad, Numeral.read (sp.chars ++ rest) = .error bad) ∨
      ∃ (shorter : Spelling) (tail : List Char), sp.chars = shorter.chars ++ tail ∧ tail ≠ [] ∧
        ¬ shorter.Ambiguous ∧ shorter.EndsAhead (tail ++ rest) := by
  cases sp with
  | plain digits => exact h.elim
  | marked mark stands digits => exact h.elim
  | suffixed digits first suffix ends =>
      obtain ⟨mark, hmark, ds, hds⟩ := h
      have hchars : digits.chars ++ [suffix] =
          '0' :: mark :: (ds.takeWhile Base.binary.isDigit ++
            (ds.dropWhile Base.binary.isDigit ++ [suffix])) := by
        rw [← hds, ← List.append_assoc (ds.takeWhile _), List.takeWhile_append_dropWhile]
        rfl
      have htail : ∀ c ∈ (ds.dropWhile Base.binary.isDigit ++ [suffix] ++ rest).head?,
          ¬ Base.binary.Digit c := by
        have hstop := List.head?_dropWhile_not Base.binary.isDigit ds
        cases hdrop : ds.dropWhile Base.binary.isDigit with
        | nil =>
            rintro c ⟨⟩
            rcases ends with rfl | rfl <;> decide
        | cons d others =>
            rw [hdrop] at hstop
            rintro c ⟨⟩
            exact Base.isDigit_eq_false_iff.mp hstop
      by_cases hnone : ds.takeWhile Base.binary.isDigit = []
      · left
        rw [hnone, List.nil_append] at hchars
        rw [chars, hchars]
        refine ⟨⟨.missingDigits Base.binary.marker, 2⟩, ?_⟩
        rw [List.cons_append, List.cons_append, Numeral.read, Base.ofMark?_eq_some_iff.mpr hmark]
        dsimp only [Numeral.readMarked]
        rw [Base.takeWhile_eq_nil htail]
        rfl
      · right
        have hdigits : ∀ c ∈ ds.takeWhile Base.binary.isDigit, Base.binary.Digit c :=
          fun c hc => Base.isDigit_iff.mp (List.mem_takeWhile_imp hc)
        refine ⟨.marked mark hmark ⟨_, hnone, hdigits⟩, ds.dropWhile Base.binary.isDigit ++ [suffix],
          hchars, by simp, id, htail⟩

namespace Literal

/-- On its own, the number is read to its end and has its value. -/
def Accepted (lit : Literal) : Prop :=
  Numeral.read lit.spelling.chars = .ok ⟨lit.spelling.magnitude, lit.spelling.chars.length⟩

instance (lit : Literal) : Decidable lit.Accepted := inferInstanceAs (Decidable (_ = _))

/-- These are the numbers within the bound, but for those that begin like others. -/
theorem accepted_iff {lit : Literal} :
    lit.Accepted ↔ lit.spelling.magnitude < 2 ^ 127 ∧ ¬ lit.spelling.Ambiguous := by
  obtain ⟨negative, sp⟩ := lit
  have hstops : Stops [] := by
    rintro c ⟨⟩
  constructor
  · intro h
    have hread : Numeral.read (sp.chars ++ []) = .ok ⟨sp.magnitude, sp.chars.length⟩ := by
      rw [List.append_nil]
      exact h
    refine ⟨(Numeral.facts_of_read h).1, fun hambiguous => ?_⟩
    rcases hambiguous.misread [] with ⟨bad, hbad⟩ | ⟨shorter, tail, hchars, htail, hclear, hends⟩
    · rw [hread] at hbad
      cases hbad
    · obtain ⟨complaint, hshorter⟩ := Numeral.read_spelling hends hclear
      rw [← List.append_assoc, ← hchars, hread] at hshorter
      have hlength := congrArg Numeral.length (Numeral.bounded_eq_ok_iff.mp hshorter.symm).2
      dsimp only at hlength
      rw [hchars, List.length_append] at hlength
      exact htail (List.length_eq_zero_iff.mp (by omega))
  · rintro ⟨hbound, hclear⟩
    obtain ⟨complaint, hread⟩ := Numeral.read_spelling (sp.endsAhead_of_stops hstops) hclear
    rw [List.append_nil] at hread
    exact hread.trans (Numeral.bounded_eq_ok_iff.mpr ⟨hbound, rfl⟩)

end Literal

end X64Asm
