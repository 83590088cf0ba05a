import Mathlib.Data.List.TakeWhile
import X64Asm.Proofs.Success
import X64Asm.Token.Scan

/-! # Pieces of the text

How a piece is read is said once, with a case for each sort of piece (`Piece.Reads`,
`Piece.read_eq_ok_iff`).  From this follow

* what the first character says about a piece (`Piece.kind_of_read`);
* that a token is read in the same way whatever follows it, if only what follows does not go on with
  it (`Piece.read_append_congr`). -/

namespace X64Asm

/-! ### Sorts of characters -/

section characters

variable {c : Char}

theorem isAlphanum_iff : c.isAlphanum = true ↔
    65 ≤ c.toNat ∧ c.toNat ≤ 90 ∨ 97 ≤ c.toNat ∧ c.toNat ≤ 122 ∨ 48 ≤ c.toNat ∧ c.toNat ≤ 57 := by
  have hsorts : c.isAlphanum =
      ((decide (65 ≤ c.val ∧ c.val ≤ 90) || decide (97 ≤ c.val) && decide (c.val ≤ 122)) ||
        decide (48 ≤ c.val) && decide (c.val ≤ 57)) := rfl
  rw [hsorts]
  simp only [Bool.or_eq_true, Bool.and_eq_true, decide_eq_true_eq, UInt32.le_iff_toNat_le, or_assoc]
  exact Iff.rfl

theorem toNat_lt_of_isAlphanum (h : c.isAlphanum = true) : c.toNat < 128 := by
  rw [isAlphanum_iff] at h
  omega

theorem isAlphanum_of_isDigit {base : Base} (h : base.isDigit c = true) : c.isAlphanum = true := by
  have hle : ∀ a b : Char, a ≤ b ↔ a.toNat ≤ b.toNat := fun a b => UInt32.le_iff_toNat_le
  rw [isAlphanum_iff]
  unfold Base.isDigit Base.digitValue? at h
  simp only [hle] at h
  split at h
  · next hc => exact .inr (.inr hc)
  · split at h
    · next hc => exact .inr (.inl ⟨hc.1, Nat.le_trans hc.2 (by decide)⟩)
    · split at h
      · next hc => exact .inl ⟨hc.1, Nat.le_trans hc.2 (by decide)⟩
      · cases h

theorem decimal_isDigit (h : c.isDigit = true) : Base.decimal.isDigit c = true := by
  simp only [Char.isDigit, Bool.and_eq_true, decide_eq_true_eq, ge_iff_le,
    UInt32.le_iff_toNat_le] at h
  have hrange : '0' ≤ c ∧ c ≤ '9' :=
    ⟨UInt32.le_iff_toNat_le.mpr h.1, UInt32.le_iff_toNat_le.mpr h.2⟩
  have hhigh : c.toNat ≤ 57 := h.2
  unfold Base.isDigit Base.digitValue?
  rw [if_pos hrange, Option.any_some, decide_eq_true_eq]
  show c.toNat - 48 < 10
  omega

theorem ascii_of_isIdentRest (h : isIdentRest c = true) : c.toNat < 128 := by
  unfold isIdentRest at h
  rw [Bool.or_eq_true, Bool.or_eq_true, decide_eq_true_eq, decide_eq_true_eq] at h
  rcases h with (h | rfl) | rfl
  · exact toNat_lt_of_isAlphanum h
  · decide
  · decide

theorem isIdentRest_of_isAlphanum (h : c.isAlphanum = true) : isIdentRest c = true := by
  unfold isIdentRest
  rw [h]
  rfl

theorem isIdentRest_of_isIdentStart (h : isIdentStart c = true) : isIdentRest c = true := by
  unfold isIdentStart at h
  unfold isIdentRest Char.isAlphanum
  rw [Bool.or_eq_true, Bool.or_eq_true] at h ⊢
  rcases h with (h | h) | h
  · exact .inl (.inl (by rw [h]; rfl))
  · exact .inl (.inr h)
  · exact .inr h

theorem isIdentRest_of_isDigit (h : c.isDigit = true) : isIdentRest c = true :=
  isIdentRest_of_isAlphanum (isAlphanum_of_isDigit (decimal_isDigit h))

/-- A digit or a letter is none of the other characters that begin a piece. -/
theorem sorts_of_isIdentRest (h : isIdentRest c = true) :
    isBlank c = false ∧ isQuote c = false ∧ c ∉ ['\n', ';', ',', '[', ']', '-', ':'] := by
  have hascii : ∀ n < 128, isIdentRest (Char.ofNat n) = true →
      isBlank (Char.ofNat n) = false ∧ isQuote (Char.ofNat n) = false ∧
        Char.ofNat n ∉ ['\n', ';', ',', '[', ']', '-', ':'] := by
    decide +kernel
  have hsorts := hascii c.toNat (ascii_of_isIdentRest h)
  rw [Char.ofNat_toNat] at hsorts
  exact hsorts h

theorem isDigit_of_isIdentStart (h : isIdentStart c = true) : c.isDigit = false := by
  have hascii : ∀ n < 128, isIdentStart (Char.ofNat n) = true → (Char.ofNat n).isDigit = false := by
    decide +kernel
  have hdigit := hascii c.toNat (ascii_of_isIdentRest (isIdentRest_of_isIdentStart h))
  rw [Char.ofNat_toNat] at hdigit
  exact hdigit h

end characters

/-! ### Runs of characters -/

section runs

variable {p : Char → Bool} {cs rest : List Char}

theorem length_takeWhile_le (p : Char → Bool) (cs : List Char) :
    (cs.takeWhile p).length ≤ cs.length := (List.takeWhile_prefix p).length_le

theorem take_takeWhile (p : Char → Bool) (cs : List Char) :
    cs.take (cs.takeWhile p).length = cs.takeWhile p :=
  (List.prefix_iff_eq_take.mp (List.takeWhile_prefix p)).symm

theorem drop_takeWhile (p : Char → Bool) (cs : List Char) :
    cs.drop (cs.takeWhile p).length = cs.dropWhile p := by
  have hsplit := List.take_append_drop (cs.takeWhile p).length cs
  rw [take_takeWhile] at hsplit
  exact List.append_cancel_left (hsplit.trans List.takeWhile_append_dropWhile.symm)

/-- A run that ends inside the first part does not depend on the second. -/
theorem takeWhile_append_of_lt (h : (cs.takeWhile p).length < cs.length) (rest : List Char) :
    (cs ++ rest).takeWhile p = cs.takeWhile p := by
  rw [List.takeWhile_append, if_neg (Nat.ne_of_lt h)]

/-- A run does not go on in a second part that it cannot begin with. -/
theorem takeWhile_append_of_stop (h : ∀ c ∈ rest.head?, p c = false) (cs : List Char) :
    (cs ++ rest).takeWhile p = cs.takeWhile p := by
  rcases Nat.lt_or_eq_of_le (length_takeWhile_le p cs) with hlt | heq
  · exact takeWhile_append_of_lt hlt rest
  · have hnil : rest.takeWhile p = [] := by
      cases rest with
      | nil => rfl
      | cons c rest => rw [List.takeWhile_cons, h c rfl]; rfl
    have hall : cs.takeWhile p = cs := (List.takeWhile_prefix p).eq_of_length heq
    rw [List.takeWhile_append, if_pos heq, hnil, List.append_nil, hall]

/-- A run that is no longer than the first part is a run of it. -/
theorem takeWhile_append_of_le (h : ((cs ++ rest).takeWhile p).length ≤ cs.length) :
    (cs ++ rest).takeWhile p = cs.takeWhile p := by
  rcases Nat.lt_or_eq_of_le (length_takeWhile_le p cs) with hlt | heq
  · exact takeWhile_append_of_lt hlt rest
  · have hall : cs.takeWhile p = cs := (List.takeWhile_prefix p).eq_of_length heq
    rw [List.takeWhile_append, if_pos heq] at h ⊢
    rw [List.length_append] at h
    have hnil : rest.takeWhile p = [] := List.length_eq_zero_iff.mp (by omega)
    rw [hnil, List.append_nil, hall]

theorem dropWhile_append_line (h : '\n' ∉ cs) (rest : List Char) :
    (cs ++ rest).dropWhile (· ≠ '\n') = rest.dropWhile (· ≠ '\n') :=
  List.dropWhile_append_of_pos fun _ hc => decide_eq_true fun hnewline => h (hnewline ▸ hc)

theorem dropWhile_eq_self (h : cs = [] ∨ cs.head? = some '\n') :
    cs.dropWhile (· ≠ '\n') = cs := by
  rcases h with rfl | h
  · rfl
  · obtain ⟨rest, rfl⟩ := List.head?_eq_some_iff.mp h
    rfl

/-- Behind the rest of a line there is a line end, or nothing. -/
theorem dropWhile_line (cs : List Char) :
    cs.dropWhile (· ≠ '\n') = [] ∨ (cs.dropWhile (· ≠ '\n')).head? = some '\n' := by
  have hstop := List.head?_dropWhile_not (· ≠ '\n') cs
  cases hrest : cs.dropWhile (· ≠ '\n') with
  | nil => exact .inl rfl
  | cons c rest =>
      rw [hrest, List.head?_cons] at hstop
      exact .inr (by simpa using hstop)

end runs

/-! ### Numerals -/

/-- The text goes on with no token ahead of it: it begins neither with a character of a name nor with
a colon. -/
def Apart (rest : List Char) : Prop := ∀ c ∈ rest.head?, isIdentRest c = false ∧ c ≠ ':'

instance (rest : List Char) : Decidable (Apart rest) :=
  decidable_of_iff (rest.head?.all (fun c => !isIdentRest c && c ≠ ':') = true)
    (by simp [Apart, Option.all_eq_true])

theorem apart_nil : Apart [] := by
  rintro c ⟨⟩

theorem apart_cons {c : Char} (h : isIdentRest c = false ∧ c ≠ ':') (rest : List Char) :
    Apart (c :: rest) := by
  rintro d ⟨⟩
  exact h

theorem apart_of_blanks {blanks rest : List Char} (h : ∀ c ∈ blanks, isBlank c = true)
    (hrest : Apart rest) : Apart (blanks ++ rest) := by
  cases blanks with
  | nil => exact hrest
  | cons c blanks =>
      have hc := h c List.mem_cons_self
      simp only [isBlank, Bool.or_eq_true, decide_eq_true_eq, or_assoc] at hc
      refine apart_cons ?_ _
      rcases hc with rfl | rfl | rfl <;> decide

theorem Apart.isDigit_eq {rest : List Char} (h : Apart rest) (base : Base) :
    ∀ c ∈ rest.head?, base.isDigit c = false := by
  intro c hc
  have hstop := (h c hc).1
  cases hdigit : base.isDigit c with
  | false => rfl
  | true => rw [isIdentRest_of_isAlphanum (isAlphanum_of_isDigit hdigit)] at hstop; cases hstop

theorem Base.isAlphanum_of_ofMark? {mark : Char} {base : Base} (h : ofMark? mark = some base) :
    mark.isAlphanum = true := by
  unfold ofMark? at h
  split at h
  all_goals first | rfl | cases h

namespace Numeral

variable {cs rest rest' : List Char} {n : Numeral}

theorem bounded_eq_ok_iff {value length : Nat} {complaint : Complaint} :
    bounded value length complaint = .ok n ↔ value < bound ∧ n = ⟨value, length⟩ := by
  unfold bounded
  split
  · next hvalue => simp [hvalue, eq_comm]
  · next hvalue => simp [hvalue]

theorem readMarked_eq_ok_iff {base : Base} : readMarked base cs = .ok n ↔
    cs.takeWhile base.isDigit ≠ [] ∧ base.value (cs.takeWhile base.isDigit) < bound ∧
      n = ⟨base.value (cs.takeWhile base.isDigit), 2 + (cs.takeWhile base.isDigit).length⟩ := by
  unfold readMarked
  dsimp only
  split
  · next hempty => simp [List.isEmpty_iff.mp hempty]
  · next hsome => rw [bounded_eq_ok_iff, and_iff_right fun hnil => hsome (by rw [hnil]; rfl)]

theorem readPlain_eq (cs : List Char) :
    readPlain cs =
      let hex := cs.takeWhile Base.hexadecimal.isDigit
      let digits := cs.takeWhile Base.decimal.isDigit
      if cs[hex.length]? = some 'h' ∨ cs[hex.length]? = some 'H' then
        bounded (Base.hexadecimal.value hex) (hex.length + 1)
          (.hexNumberTooLarge (String.ofList hex))
      else bounded (Base.decimal.value digits) digits.length
        (.numberTooLarge (String.ofList digits)) := by
  unfold readPlain
  dsimp only
  split
  · next hmark => exact (if_pos (.inl hmark)).symm
  · next hmark => exact (if_pos (.inr hmark)).symm
  · next hlow hhigh => exact (if_neg (not_or.mpr ⟨hlow, hhigh⟩)).symm

/-- Without a marker in front, a plain numeral is read. -/
theorem read_eq_readPlain
    (h : ∀ mark others, cs = '0' :: mark :: others → Base.ofMark? mark = none) :
    read cs = readPlain cs := by
  unfold read
  split
  · next mark others => rw [h mark others rfl]
  · rfl

theorem length_le_of_readPlain (h : readPlain cs = .ok n) : n.length ≤ cs.length := by
  rw [readPlain_eq] at h
  dsimp only at h
  split at h
  · next hmark =>
    obtain ⟨_, rfl⟩ := bounded_eq_ok_iff.mp h
    rcases hmark with hmark | hmark
    · exact (List.getElem?_eq_some_iff.mp hmark).1
    · exact (List.getElem?_eq_some_iff.mp hmark).1
  · obtain ⟨_, rfl⟩ := bounded_eq_ok_iff.mp h
    exact length_takeWhile_le _ cs

/-- A numeral ends within the text. -/
theorem length_le_of_read (h : read cs = .ok n) : n.length ≤ cs.length := by
  unfold read at h
  split at h
  · next mark rest =>
    split at h
    · next base _ =>
      obtain ⟨_, _, rfl⟩ := readMarked_eq_ok_iff.mp h
      have hle := length_takeWhile_le base.isDigit rest
      simp only [List.length_cons]
      omega
    · exact length_le_of_readPlain h
  · exact length_le_of_readPlain h

theorem readMarked_append_congr {base : Base} (hrest : Apart rest')
    (h : readMarked base (cs ++ rest) = .ok n) (hn : n.length ≤ cs.length + 2) :
    readMarked base (cs ++ rest') = .ok n := by
  obtain ⟨hsome, hvalue, rfl⟩ := readMarked_eq_ok_iff.mp h
  have hle : ((cs ++ rest).takeWhile base.isDigit).length ≤ cs.length := by
    simp only at hn
    omega
  rw [readMarked_eq_ok_iff, takeWhile_append_of_stop (hrest.isDigit_eq base) cs,
    ← takeWhile_append_of_le hle]
  exact ⟨hsome, hvalue, rfl⟩

/-- The character behind the hexadecimal digits of a text is the same in another text that goes on
differently, or it is the first character of that. -/
theorem suffix_append (hrest : Apart rest') {c : Char} (hc : isIdentRest c = true)
    (h : (cs ++ rest')[((cs ++ rest').takeWhile Base.hexadecimal.isDigit).length]? = some c) :
    (cs ++ rest)[((cs ++ rest).takeWhile Base.hexadecimal.isDigit).length]? = some c := by
  have hstop := hrest.isDigit_eq .hexadecimal
  rw [takeWhile_append_of_stop hstop cs] at h
  rcases Nat.lt_or_eq_of_le (length_takeWhile_le Base.hexadecimal.isDigit cs) with hlt | heq
  · rw [List.getElem?_append_left hlt] at h
    rwa [takeWhile_append_of_lt hlt, List.getElem?_append_left hlt]
  · rw [heq, List.getElem?_append_right (Nat.le_refl _), Nat.sub_self, ← List.head?_eq_getElem?] at h
    rw [(hrest c h).1] at hc
    cases hc

theorem readPlain_append_congr (hrest : Apart rest') (h : readPlain (cs ++ rest) = .ok n)
    (hn : n.length ≤ cs.length) : readPlain (cs ++ rest') = .ok n := by
  rw [readPlain_eq] at h ⊢
  dsimp only at h ⊢
  split at h
  · next hmark =>
    obtain ⟨hvalue, rfl⟩ := bounded_eq_ok_iff.mp h
    have hrun := takeWhile_append_of_le (Nat.le_of_succ_le hn)
    rw [hrun] at hn hmark hvalue ⊢
    rw [List.getElem?_append_left hn] at hmark
    rw [takeWhile_append_of_lt hn, List.getElem?_append_left hn, if_pos hmark]
    exact bounded_eq_ok_iff.mpr ⟨hvalue, rfl⟩
  · next hmark =>
    obtain ⟨hvalue, rfl⟩ := bounded_eq_ok_iff.mp h
    rw [if_neg fun hmark' => hmark (hmark'.imp (suffix_append hrest rfl) (suffix_append hrest rfl)),
      takeWhile_append_of_stop (hrest.isDigit_eq .decimal) cs, ← takeWhile_append_of_le hn]
    exact h

/-- A numeral is read in the same way ahead of any text that does not go on with it. -/
theorem read_append_congr (hrest : Apart rest') (h : read (cs ++ rest) = .ok n)
    (hpos : 0 < cs.length) (hn : n.length ≤ cs.length) : read (cs ++ rest') = .ok n := by
  by_cases hmarked : ∃ mark others base, cs = '0' :: mark :: others ∧ Base.ofMark? mark = some base
  · obtain ⟨mark, others, base, rfl, hmark⟩ := hmarked
    rw [List.cons_append, List.cons_append, read, hmark] at h ⊢
    exact readMarked_append_congr hrest h hn
  · -- a marker that reaches into what follows would be longer than the numeral
    have hplain : read (cs ++ rest) = readPlain (cs ++ rest) := by
      refine read_eq_readPlain fun mark others hcs => ?_
      cases hmark : Base.ofMark? mark with
      | none => rfl
      | some base =>
          rw [hcs, read, hmark] at h
          obtain ⟨_, _, rfl⟩ := readMarked_eq_ok_iff.mp h
          rcases cs with _ | ⟨c, _ | ⟨d, cs⟩⟩
          · cases hpos
          · simp only [List.length_cons, List.length_nil] at hn
            omega
          · cases hcs
            exact absurd ⟨mark, cs, base, rfl, hmark⟩ hmarked
    have hplain' : read (cs ++ rest') = readPlain (cs ++ rest') := by
      refine read_eq_readPlain fun mark others hcs => ?_
      cases hmark : Base.ofMark? mark with
      | none => rfl
      | some base =>
          rcases cs with _ | ⟨c, _ | ⟨d, cs⟩⟩
          · cases hpos
          · rw [List.singleton_append] at hcs
            cases hcs
            have hstop := (hrest mark rfl).1
            rw [isIdentRest_of_isAlphanum (Base.isAlphanum_of_ofMark? hmark)] at hstop
            cases hstop
          · cases hcs
            exact absurd ⟨mark, cs, base, rfl, hmark⟩ hmarked
    rw [hplain] at h
    rw [hplain']
    exact readPlain_append_congr hrest h hn

theorem isAlphanum_of_mem_take {base : Base} {c : Char}
    (h : c ∈ cs.take (cs.takeWhile base.isDigit).length) : c.isAlphanum = true := by
  rw [take_takeWhile] at h
  exact isAlphanum_of_isDigit (List.mem_takeWhile_imp h)

theorem facts_of_readPlain (h : readPlain cs = .ok n) :
    n.value < bound ∧ (∀ c ∈ cs.take n.length, c.isAlphanum = true) ∧
      (cs.takeWhile Base.decimal.isDigit ≠ [] → 1 ≤ n.length) := by
  rw [readPlain_eq] at h
  dsimp only at h
  split at h
  · next hmark =>
    obtain ⟨hvalue, rfl⟩ := bounded_eq_ok_iff.mp h
    refine ⟨hvalue, fun c hc => ?_, fun _ => Nat.le_add_left 1 _⟩
    rw [List.take_add_one, List.mem_append, Option.mem_toList] at hc
    rcases hc with hc | hc
    · exact isAlphanum_of_mem_take hc
    · rcases hmark with hmark | hmark <;> rw [hmark] at hc <;> cases hc <;> rfl
  · obtain ⟨hvalue, rfl⟩ := bounded_eq_ok_iff.mp h
    exact ⟨hvalue, fun c hc => isAlphanum_of_mem_take hc, List.length_pos_iff.mpr⟩

/-- A numeral is within the bound and made of letters and digits, at least one if it begins with a
digit. -/
theorem facts_of_read (h : read cs = .ok n) :
    n.value < bound ∧ (∀ c ∈ cs.take n.length, c.isAlphanum = true) ∧
      (cs.takeWhile Base.decimal.isDigit ≠ [] → 1 ≤ n.length) := by
  unfold read at h
  split at h
  · next mark rest =>
    split at h
    · next base hmark =>
      obtain ⟨_, hvalue, rfl⟩ := readMarked_eq_ok_iff.mp h
      refine ⟨hvalue, fun c hc => ?_, fun _ => Nat.le_add_right_of_le (Nat.le_succ 1)⟩
      rw [Nat.add_comm, List.take_succ_cons, List.take_succ_cons, List.mem_cons,
        List.mem_cons] at hc
      rcases hc with rfl | rfl | hc
      · rfl
      · exact Base.isAlphanum_of_ofMark? hmark
      · exact isAlphanum_of_mem_take hc
    · exact facts_of_readPlain h
  · exact facts_of_readPlain h

/-- A numeral takes the digit that it begins with. -/
theorem length_pos_of_read (h : read cs = .ok n) (hdigit : cs.head?.any Char.isDigit = true) :
    0 < n.length := by
  obtain ⟨d, hhead, hd⟩ := (Option.any_eq_true ..).mp hdigit
  obtain ⟨ds, rfl⟩ := List.head?_eq_some_iff.mp hhead
  apply (facts_of_read h).2.2
  rw [List.takeWhile_cons_of_pos (decimal_isDigit hd)]
  exact List.cons_ne_nil _ _

end Numeral

/-! ### How a piece is read -/

/-- The characters that are tokens, and the kinds of these. -/
def markKinds : List (Char × TokenKind) :=
  [('\n', .newline), (',', .comma), ('[', .openBracket), (']', .closeBracket)]

namespace Piece

variable {c : Char} {cs rest rest' : List Char} {piece : Piece}

/-- The piece that begins with `c` and goes on in `cs`, by its sort. -/
inductive Reads (c : Char) (cs : List Char) : Piece → Prop
  | blanks (first : isBlank c = true) : Reads c cs ⟨none, "", (cs.takeWhile isBlank).length⟩
  | comment (first : c = ';') : Reads c cs ⟨none, "", (cs.takeWhile (· ≠ '\n')).length⟩
  | mark {kind : TokenKind} (first : (c, kind) ∈ markKinds) : Reads c cs (single kind c)
  | string {piece : Piece} (first : isQuote c = true) (read : readString c cs = .ok piece) :
      Reads c cs piece
  | number {piece : Piece} (first : c.isDigit = true) (read : readNumber c cs = .ok piece) :
      Reads c cs piece
  | negative {piece : Piece} (first : c = '-') (digit : cs.head?.any Char.isDigit = true)
      (read : readNegative cs = .ok piece) : Reads c cs piece
  | name (first : isIdentStart c = true) : Reads c cs (readName c cs)

theorem reads_of_read (h : read c cs = .ok piece) : Reads c cs piece := by
  revert h
  fun_cases read c cs with
  | case1 hblank => rintro ⟨⟩; exact .blanks hblank
  | case2 _ hc => rintro ⟨⟩; exact .mark (by simp [hc, markKinds])
  | case3 _ _ hc => rintro ⟨⟩; exact .comment hc
  | case4 _ _ _ hc => rintro ⟨⟩; exact .mark (by simp [hc, markKinds])
  | case5 _ _ _ _ hc => rintro ⟨⟩; exact .mark (by simp [hc, markKinds])
  | case6 _ _ _ _ _ hc => rintro ⟨⟩; exact .mark (by simp [hc, markKinds])
  | case7 _ _ _ _ _ _ hquote => exact .string hquote
  | case8 _ _ _ _ _ _ _ hdigit => exact .number hdigit
  | case9 _ _ _ _ _ _ _ _ hsign =>
      rw [Bool.and_eq_true, decide_eq_true_eq] at hsign
      exact .negative hsign.1 hsign.2
  | case10 _ _ _ _ _ _ _ _ _ hstart => rintro ⟨⟩; exact .name hstart
  | case11 => intro h; cases h

theorem read_of_isQuote (h : isQuote c = true) : read c cs = readString c cs := by
  unfold isQuote at h
  rw [Bool.or_eq_true, decide_eq_true_eq, decide_eq_true_eq] at h
  rcases h with rfl | rfl <;> rfl

theorem read_of_isDigit (h : c.isDigit = true) : read c cs = readNumber c cs := by
  obtain ⟨hblank, hquote, hmarks⟩ := sorts_of_isIdentRest (isIdentRest_of_isDigit h)
  simp only [List.mem_cons, List.not_mem_nil, or_false, not_or] at hmarks
  simp [read, hblank, hquote, hmarks, h]

theorem read_of_isIdentStart (h : isIdentStart c = true) : read c cs = .ok (readName c cs) := by
  obtain ⟨hblank, hquote, hmarks⟩ := sorts_of_isIdentRest (isIdentRest_of_isIdentStart h)
  simp only [List.mem_cons, List.not_mem_nil, or_false, not_or] at hmarks
  simp [read, hblank, isDigit_of_isIdentStart h, hquote, hmarks, h]

theorem read_of_sign (h : cs.head?.any Char.isDigit = true) : read '-' cs = readNegative cs := by
  have hblank : isBlank '-' = false := by decide
  have hquote : isQuote '-' = false := by decide
  have hdigit : '-'.isDigit = false := by decide
  simp [read, hblank, hquote, hdigit, h]

theorem read_eq_ok_iff : read c cs = .ok piece ↔ Reads c cs piece := by
  refine ⟨reads_of_read, fun h => ?_⟩
  cases h with
  | blanks first => exact if_pos first
  | comment first => rw [first]; rfl
  | mark first =>
      simp only [markKinds, List.mem_cons, Prod.mk.injEq, List.not_mem_nil, or_false] at first
      rcases first with ⟨rfl, rfl⟩ | ⟨rfl, rfl⟩ | ⟨rfl, rfl⟩ | ⟨rfl, rfl⟩ <;> rfl
  | string first read => rw [read_of_isQuote first, read]
  | number first read => rw [read_of_isDigit first, read]
  | negative first digit read => rw [first, read_of_sign digit, read]
  | name first => exact read_of_isIdentStart first

/-! ### What the sorts of pieces have in common -/

theorem readString_eq_ok_iff : readString c cs = .ok piece ↔
    cs[(cs.takeWhile fun d => d ≠ c && d ≠ '\n').length]? = some c ∧
      piece = ⟨some .stringLit, String.ofList (cs.takeWhile fun d => d ≠ c && d ≠ '\n'),
        (cs.takeWhile fun d => d ≠ c && d ≠ '\n').length + 1⟩ := by
  unfold readString
  dsimp only
  split
  · next hclosed => exact ⟨fun h => ⟨hclosed, (Except.ok.inj h).symm⟩, fun h => by rw [h.2]⟩
  · next hopen => exact ⟨fun h => (nomatch h), fun h => absurd h.1 hopen⟩

theorem readNumber_eq_ok_iff : readNumber c cs = .ok piece ↔
    ∃ n, Numeral.read (c :: cs) = .ok n ∧
      piece = ⟨some (.number n.value), String.ofList ((c :: cs).take n.length), n.length - 1⟩ := by
  unfold readNumber
  cases hread : Numeral.read (c :: cs) with
  | error bad => simp
  | ok n => simp [eq_comm]

theorem readNegative_eq_ok_iff : readNegative cs = .ok piece ↔
    ∃ n, Numeral.read cs = .ok n ∧
      piece = ⟨some (.number (-n.value)), String.ofList ('-' :: cs.take n.length), n.length⟩ := by
  unfold readNegative
  cases hread : Numeral.read cs with
  | error bad => simp
  | ok n => simp [eq_comm]

theorem kind_readName (c : Char) (cs : List Char) :
    (readName c cs).kind = some .labelDef ∨ (readName c cs).kind = some .ident := by
  unfold readName
  dsimp only
  split
  · exact .inl rfl
  · exact .inr rfl

/-- The end mark is no piece, a name is read as one, and only a line end ends a line. -/
theorem kind_of_read (h : read c cs = .ok piece) :
    piece.kind ≠ some .eof ∧
      (piece.kind = some .ident → isIdentStart c = true ∧ piece = readName c cs) ∧
      (piece.kind = some .newline → c = '\n') := by
  cases read_eq_ok_iff.mp h with
  | blanks first => simp
  | comment first => simp
  | mark first =>
      simp only [markKinds, List.mem_cons, Prod.mk.injEq, List.not_mem_nil, or_false] at first
      rcases first with ⟨rfl, rfl⟩ | ⟨rfl, rfl⟩ | ⟨rfl, rfl⟩ | ⟨rfl, rfl⟩ <;> simp [single]
  | string first read =>
      obtain ⟨_, rfl⟩ := readString_eq_ok_iff.mp read
      simp
  | number first read =>
      obtain ⟨n, _, rfl⟩ := readNumber_eq_ok_iff.mp read
      simp
  | negative first digit read =>
      obtain ⟨n, _, rfl⟩ := readNegative_eq_ok_iff.mp read
      simp
  | name first =>
      rcases kind_readName c cs with hkind | hkind <;> simp [hkind, first]

/-- A piece that is neither blanks nor a comment is a token. -/
theorem exists_kind_of_read (h : read c cs = .ok piece) (hblank : isBlank c ≠ true)
    (hcomment : c ≠ ';') : ∃ kind, piece.kind = some kind := by
  cases read_eq_ok_iff.mp h with
  | blanks first => exact absurd first hblank
  | comment first => exact absurd first hcomment
  | mark first => exact ⟨_, rfl⟩
  | string first read =>
      obtain ⟨_, rfl⟩ := readString_eq_ok_iff.mp read
      exact ⟨_, rfl⟩
  | number first read =>
      obtain ⟨n, _, rfl⟩ := readNumber_eq_ok_iff.mp read
      exact ⟨_, rfl⟩
  | negative first digit read =>
      obtain ⟨n, _, rfl⟩ := readNegative_eq_ok_iff.mp read
      exact ⟨_, rfl⟩
  | name first =>
      rcases kind_readName c cs with hkind | hkind
      · exact ⟨_, hkind⟩
      · exact ⟨_, hkind⟩

theorem more_readName_le (c : Char) (cs : List Char) : (readName c cs).more ≤ cs.length := by
  unfold readName
  dsimp only
  split
  · next hcolon => exact (List.getElem?_eq_some_iff.mp hcolon).1
  · exact length_takeWhile_le _ cs

/-- A piece ends within the text. -/
theorem more_le_of_read (h : read c cs = .ok piece) : piece.more ≤ cs.length := by
  cases read_eq_ok_iff.mp h with
  | blanks first => exact length_takeWhile_le _ cs
  | comment first => exact length_takeWhile_le _ cs
  | mark first => exact Nat.zero_le _
  | string first read =>
      obtain ⟨hclosed, rfl⟩ := readString_eq_ok_iff.mp read
      exact (List.getElem?_eq_some_iff.mp hclosed).1
  | number first read =>
      obtain ⟨n, hn, rfl⟩ := readNumber_eq_ok_iff.mp read
      exact Nat.sub_le_of_le_add (Numeral.length_le_of_read hn)
  | negative first digit read =>
      obtain ⟨n, hn, rfl⟩ := readNegative_eq_ok_iff.mp read
      exact Numeral.length_le_of_read hn
  | name first => exact more_readName_le c cs

/-! ### What follows a token -/

theorem readString_append_congr (h : readString c (cs ++ rest) = .ok piece)
    (hmore : piece.more ≤ cs.length) : readString c (cs ++ rest') = .ok piece := by
  obtain ⟨hclosed, rfl⟩ := readString_eq_ok_iff.mp h
  have hrun := takeWhile_append_of_le (Nat.le_of_succ_le hmore)
  rw [hrun] at hclosed ⊢
  simp only [hrun] at hmore
  rw [List.getElem?_append_left hmore] at hclosed
  rw [readString_eq_ok_iff, takeWhile_append_of_lt hmore, List.getElem?_append_left hmore]
  exact ⟨hclosed, rfl⟩

theorem readNumber_append_congr (hrest : Apart rest') (h : readNumber c (cs ++ rest) = .ok piece)
    (hmore : piece.more ≤ cs.length) : readNumber c (cs ++ rest') = .ok piece := by
  obtain ⟨n, hn, rfl⟩ := readNumber_eq_ok_iff.mp h
  have hle : n.length ≤ (c :: cs).length := Nat.le_add_of_sub_le hmore
  rw [← List.cons_append] at hn
  refine readNumber_eq_ok_iff.mpr ⟨n, ?_, ?_⟩
  · rw [← List.cons_append]
    exact Numeral.read_append_congr hrest hn (Nat.zero_lt_succ _) hle
  · rw [← List.cons_append, ← List.cons_append, List.take_append_of_le_length hle,
      List.take_append_of_le_length hle]

theorem readNegative_append_congr (hrest : Apart rest')
    (hdigit : (cs ++ rest).head?.any Char.isDigit = true)
    (h : readNegative (cs ++ rest) = .ok piece) (hmore : piece.more ≤ cs.length) :
    readNegative (cs ++ rest') = .ok piece ∧ 0 < cs.length := by
  obtain ⟨n, hn, rfl⟩ := readNegative_eq_ok_iff.mp h
  dsimp only at hmore
  have hpos : 0 < cs.length := Nat.lt_of_lt_of_le (Numeral.length_pos_of_read hn hdigit) hmore
  refine ⟨readNegative_eq_ok_iff.mpr ⟨n, Numeral.read_append_congr hrest hn hpos hmore, ?_⟩, hpos⟩
  rw [List.take_append_of_le_length hmore, List.take_append_of_le_length hmore]

theorem readName_append_congr (hrest : Apart rest')
    (hmore : (readName c (cs ++ rest)).more ≤ cs.length) :
    readName c (cs ++ rest') = readName c (cs ++ rest) := by
  have hrun' : (cs ++ rest').takeWhile isIdentRest = cs.takeWhile isIdentRest :=
    takeWhile_append_of_stop (fun d hd => (hrest d hd).1) cs
  have hrun : (cs ++ rest).takeWhile isIdentRest = cs.takeWhile isIdentRest := by
    refine takeWhile_append_of_le (Nat.le_trans ?_ hmore)
    unfold readName
    dsimp only
    split
    · exact Nat.le_succ _
    · exact Nat.le_refl _
  unfold readName at hmore ⊢
  rw [hrun] at hmore
  rw [hrun, hrun']
  dsimp only at hmore ⊢
  rcases Nat.lt_or_eq_of_le (length_takeWhile_le isIdentRest cs) with hlt | heq
  · rw [List.getElem?_append_left hlt, List.getElem?_append_left hlt]
  · -- the name reaches up to what follows, and no colon comes first there
    have hcolon' : (cs ++ rest')[(cs.takeWhile isIdentRest).length]? ≠ some ':' := by
      rw [heq, List.getElem?_append_right (Nat.le_refl _), Nat.sub_self, ← List.head?_eq_getElem?]
      exact fun hhead => (hrest ':' hhead).2 rfl
    have hcolon : (cs ++ rest)[(cs.takeWhile isIdentRest).length]? ≠ some ':' := by
      intro hcolon
      rw [if_pos hcolon] at hmore
      exact absurd hmore (by simp only; omega)
    rw [if_neg hcolon, if_neg hcolon']

/-- A token is read in the same way ahead of any text that does not go on with it, and so are blanks
and comments ahead of a line end or at the end of the text. -/
theorem read_append_congr (h : read c (cs ++ rest) = .ok piece) (hmore : piece.more ≤ cs.length)
    (hrest : Apart rest') (hskipped : piece.kind = none → ∀ d ∈ rest'.head?, d = '\n') :
    read c (cs ++ rest') = .ok piece := by
  rw [read_eq_ok_iff] at h ⊢
  cases h with
  | blanks first =>
      have hstop : ∀ d ∈ rest'.head?, isBlank d = false := by
        intro d hd
        rw [hskipped rfl d hd]
        rfl
      rw [takeWhile_append_of_le hmore, ← takeWhile_append_of_stop hstop cs]
      exact .blanks first
  | comment first =>
      have hstop : ∀ d ∈ rest'.head?, decide (d ≠ '\n') = false := by
        intro d hd
        rw [hskipped rfl d hd]
        rfl
      rw [takeWhile_append_of_le hmore, ← takeWhile_append_of_stop hstop cs]
      exact .comment first
  | mark first => exact .mark first
  | string first read => exact .string first (readString_append_congr read hmore)
  | number first read => exact .number first (readNumber_append_congr hrest read hmore)
  | negative first digit read =>
      obtain ⟨hread, hpos⟩ := readNegative_append_congr hrest digit read hmore
      obtain ⟨d, ds, rfl⟩ := List.exists_cons_of_length_pos hpos
      exact .negative first digit hread
  | name first =>
      rw [← readName_append_congr hrest hmore]
      exact .name first

/-- A piece ends at the line end at the latest. -/
theorem read_append_newline (h : read c cs = .ok piece) (ds : List Char) :
    read c (cs ++ '\n' :: ds) = .ok piece := by
  have hnewline : ∀ d ∈ ('\n' :: ds).head?, d = '\n' := fun d hd => (Option.some.inj hd).symm
  have hread : read c (cs ++ []) = .ok piece := by rwa [List.append_nil]
  refine read_append_congr hread (more_le_of_read h) ?_ fun _ => hnewline
  intro d hd
  rw [hnewline d hd]
  decide

end Piece

/-! ### Reading on behind a piece -/

section scan

variable {p : Position} {c : Char} {cs : List Char} {piece : Piece} {ts : List Token}

theorem scan_of_read (h : Piece.read c cs = .ok piece) (p : Position) :
    scan p (c :: cs) = (scan (p.advance (c :: cs.take piece.more)) (cs.drop piece.more)).map
      ((piece.token? p (byteLength (c :: cs.take piece.more))).toList ++ ·) := by
  rw [scan, h]
  dsimp only
  cases scan (p.advance (c :: cs.take piece.more)) (cs.drop piece.more) with
  | error report => rfl
  | ok tokens => rfl

theorem scan_cons (hpiece : Piece.read c cs = .ok piece)
    (hrest : scan (p.advance (c :: cs.take piece.more)) (cs.drop piece.more) = .ok ts) :
    scan p (c :: cs) =
      .ok ((piece.token? p (byteLength (c :: cs.take piece.more))).toList ++ ts) := by
  rw [scan_of_read hpiece, hrest]
  rfl

theorem exists_piece_of_scan (h : scan p (c :: cs) = .ok ts) : ∃ piece us,
    Piece.read c cs = .ok piece ∧
    scan (p.advance (c :: cs.take piece.more)) (cs.drop piece.more) = .ok us ∧
    ts = (piece.token? p (byteLength (c :: cs.take piece.more))).toList ++ us := by
  cases hpiece : Piece.read c cs with
  | error bad =>
      rw [scan, hpiece] at h
      cases h
  | ok piece =>
      rw [scan_of_read hpiece] at h
      obtain ⟨us, hus, rfl⟩ := map_eq_ok.mp h
      exact ⟨piece, us, rfl, hus, rfl⟩

theorem scan_blanks (h : isBlank c = true) (p : Position) (cs : List Char) :
    scan p (c :: cs) = scan (p.advance (c :: cs.takeWhile isBlank)) (cs.dropWhile isBlank) := by
  rw [scan_of_read (Piece.read_eq_ok_iff.mpr (.blanks h)), take_takeWhile, drop_takeWhile]
  cases scan (p.advance (c :: cs.takeWhile isBlank)) (cs.dropWhile isBlank) with
  | error report => rfl
  | ok tokens => rfl

theorem scan_comment (p : Position) (cs : List Char) :
    scan p (';' :: cs) =
      scan (p.advance (';' :: cs.takeWhile (· ≠ '\n'))) (cs.dropWhile (· ≠ '\n')) := by
  rw [scan_of_read (Piece.read_eq_ok_iff.mpr (.comment rfl)), take_takeWhile, drop_takeWhile]
  cases scan (p.advance (';' :: cs.takeWhile (· ≠ '\n'))) (cs.dropWhile (· ≠ '\n')) with
  | error report => rfl
  | ok tokens => rfl

/-- Blanks can be read one at a time. -/
theorem scan_blank (h : isBlank c = true) (p : Position) (cs : List Char) :
    scan p (c :: cs) = scan (p.step c) cs := by
  rw [scan_blanks h]
  cases cs with
  | nil => rfl
  | cons d ds =>
      by_cases hd : isBlank d = true
      · rw [scan_blanks hd, List.takeWhile_cons_of_pos hd, List.dropWhile_cons_of_pos hd]
        rfl
      · rw [List.takeWhile_cons_of_neg hd, List.dropWhile_cons_of_neg hd]
        rfl

/-- There is one end mark, and it comes last. -/
theorem scan_ends (h : scan p cs = .ok ts) :
    ∃ ahead eof, ts = ahead ++ [eof] ∧ eof.kind = .eof ∧ ∀ t ∈ ahead, t.kind ≠ .eof := by
  fun_induction scan p cs generalizing ts with
  | case1 p =>
      cases h
      exact ⟨[], _, rfl, rfl, by simp⟩
  | case2 => cases h
  | case3 => cases h
  | case4 p c cs piece hpiece chars rest hrest =>
      rename_i ih
      cases h
      obtain ⟨ahead, eof, rfl, heof, hahead⟩ := ih hrest
      refine ⟨_ ++ ahead, eof, (List.append_assoc _ _ _).symm, heof, ?_⟩
      intro t ht
      rcases List.mem_append.mp ht with ht | ht
      · have hkind := (Piece.kind_of_read hpiece).1
        simp only [Piece.token?, Option.mem_toList, Option.map_eq_some_iff] at ht
        obtain ⟨kind, hpieceKind, rfl⟩ := ht
        rintro rfl
        exact hkind hpieceKind
      · exact hahead t ht

end scan

end X64Asm
