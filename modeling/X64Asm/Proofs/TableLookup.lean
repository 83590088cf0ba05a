import X64Asm.Bytes
import X64Asm.Form.Table
import X64Asm.Register
import X64Asm.Proofs.SortedTable

/-! # Looking up names

A search by halving gives what a walk through all the rows gives (`find?_eq_lookup`), in every
sorted table and so in those of the registers and of the mnemonics.

The order of names may be taken character by character or byte by byte: UTF-8 keeps the order of
the code points (`ofString_lt_iff`).  For one character this is seen from the bytes.  The first of
them tells how many there are, and more of them stand for greater code points. -/

namespace X64Asm

/-! ### The order of bytes -/

namespace Bytes

/-- A number in `count + 1` bytes: six bits in each byte but the first, which has the rest on top of
`mark`. -/
def spread (mark : Nat) : (count n : Nat) → Bytes
  | 0, n => [UInt8.ofNat (mark + n)]
  | count + 1, n => spread mark count (n / 64) ++ [UInt8.ofNat (128 + n % 64)]

theorem ofNat_lt_ofNat {m n : Nat} (h : m < n) (hn : n < 256) : UInt8.ofNat m < UInt8.ofNat n := by
  rw [UInt8.lt_iff_toNat_lt, UInt8.toNat_ofNat', UInt8.toNat_ofNat', Nat.mod_eq_of_lt hn,
    Nat.mod_eq_of_lt (Nat.lt_trans h hn)]
  exact h

/-- What is left of a number without the last `count` stretches of six bits. -/
def top : (count n : Nat) → Nat
  | 0, n => n
  | count + 1, n => top count (n / 64)

theorem exists_spread_eq_cons (mark count n : Nat) :
    ∃ rest, spread mark count n = UInt8.ofNat (mark + top count n) :: rest := by
  induction count generalizing n with
  | zero => exact ⟨[], rfl⟩
  | succ count ih =>
    obtain ⟨rest, hrest⟩ := ih (n / 64)
    exact ⟨rest ++ [UInt8.ofNat (128 + n % 64)], by rw [spread, hrest, List.cons_append, top]⟩

/-- Of two numbers in as many bytes the lesser comes first, whatever follows. -/
theorem spread_append_lt {mark count m n : Nat} (h : m < n) (hn : mark + top count n < 256)
    (xs ys : Bytes) : spread mark count m ++ xs < spread mark count n ++ ys := by
  induction count generalizing m n xs ys with
  | zero => exact List.cons_lt_cons_iff.mpr (.inl (ofNat_lt_ofNat (Nat.add_lt_add_left h _) hn))
  | succ count ih =>
    simp only [spread, List.append_assoc, List.singleton_append]
    -- The numbers differ above the last six bits, or in these alone.
    rcases Nat.lt_or_eq_of_le (Nat.div_le_div_right (c := 64) (Nat.le_of_lt h)) with hlt | heq
    · exact ih hlt hn _ _
    · rw [heq]
      refine List.append_left_lt (List.cons_lt_cons_iff.mpr (.inl (ofNat_lt_ofNat ?_ ?_)))
      · omega
      · omega

/-- How many bytes follow the first one of a code point. -/
def following (n : Nat) : Nat :=
  if n < 0x80 then 0 else if n < 0x800 then 1 else if n < 0x10000 then 2 else 3

/-- What the first byte of a code point has on top, by the number of bytes that follow. -/
def mark : Nat → Nat
  | 0 => 0
  | 1 => 192
  | 2 => 224
  | _ => 240

theorem toNat_lt_of_char (c : Char) : c.val.toNat < 0x110000 := by
  have hvalid := c.valid
  simp only [UInt32.isValidChar, Nat.isValidChar] at hvalid
  omega

theorem utf8EncodeChar_eq_spread (c : Char) :
    String.utf8EncodeChar c =
      spread (mark (following c.val.toNat)) (following c.val.toNat) c.val.toNat := by
  have hmax := toNat_lt_of_char c
  simp only [String.utf8EncodeChar]
  generalize c.val.toNat = n at *
  unfold following
  by_cases h1 : n < 0x80
  · simp [h1, Nat.le_of_lt_succ h1, spread, mark]
  · by_cases h2 : n < 0x800
    · have hlead : n / 64 % 32 = n / 64 := by omega
      simp [h1, h2, show ¬ n ≤ 127 by omega, show n ≤ 0x7ff by omega, spread, mark, hlead,
        Nat.add_comm]
    · by_cases h3 : n < 0x10000
      · have hlead : n / 4096 % 16 = n / 64 / 64 := by omega
        simp [h1, h2, h3, show ¬ n ≤ 127 by omega, show ¬ n ≤ 0x7ff by omega,
          show n ≤ 0xffff by omega, spread, mark, hlead, Nat.add_comm]
      · have hlead : n / 262144 % 8 = n / 64 / 64 / 64 := by omega
        have hnext : n / 4096 % 64 = n / 64 / 64 % 64 := by omega
        simp [h1, h2, h3, show ¬ n ≤ 127 by omega, show ¬ n ≤ 0x7ff by omega,
          show ¬ n ≤ 0xffff by omega, spread, mark, hlead, hnext, Nat.add_comm]

/-- The first byte of a code point. -/
def lead (n : Nat) : Nat := mark (following n) + top (following n) n

theorem lead_cases (n : Nat) :
    (n < 0x80 ∧ following n = 0 ∧ lead n = n) ∨
    (0x80 ≤ n ∧ n < 0x800 ∧ following n = 1 ∧ lead n = 192 + n / 64) ∨
    (0x800 ≤ n ∧ n < 0x10000 ∧ following n = 2 ∧ lead n = 224 + n / 4096) ∨
    (0x10000 ≤ n ∧ following n = 3 ∧ lead n = 240 + n / 262144) := by
  unfold lead following
  split
  · simp [mark, top]; omega
  · split
    · simp [mark, top]; omega
    · split
      · simp [mark, top]; omega
      · simp [mark, top]; omega

theorem lead_lt {n : Nat} (h : n < 0x110000) : lead n < 256 := by
  have hn := lead_cases n
  omega

/-- More bytes follow a greater first byte. -/
theorem lead_lt_lead {m n : Nat} (h : m < n) (hne : following m ≠ following n) :
    lead m < lead n := by
  have hm := lead_cases m
  have hn := lead_cases n
  omega

/-- The bytes of the lesser character come first, whatever follows them. -/
theorem utf8EncodeChar_append_lt {c d : Char} (h : c < d) (xs ys : Bytes) :
    String.utf8EncodeChar c ++ xs < String.utf8EncodeChar d ++ ys := by
  have hval : c.val.toNat < d.val.toNat := h
  have hlead := lead_lt (toNat_lt_of_char d)
  rw [utf8EncodeChar_eq_spread, utf8EncodeChar_eq_spread]
  by_cases hsame : following c.val.toNat = following d.val.toNat
  · rw [hsame]
    exact spread_append_lt hval hlead xs ys
  · obtain ⟨_, hc⟩ := exists_spread_eq_cons (mark (following c.val.toNat)) _ c.val.toNat
    obtain ⟨_, hd⟩ := exists_spread_eq_cons (mark (following d.val.toNat)) _ d.val.toNat
    rw [hc, hd]
    exact List.cons_lt_cons_iff.mpr (.inl (ofNat_lt_ofNat (lead_lt_lead hval hsame) hlead))

theorem flatMap_utf8EncodeChar_lt {cs ds : List Char} (h : cs < ds) :
    cs.flatMap String.utf8EncodeChar < ds.flatMap String.utf8EncodeChar := by
  induction cs generalizing ds with
  | nil =>
    cases ds with
    | nil => exact absurd h (List.not_lt_nil _)
    | cons d ds =>
      have hne : String.utf8EncodeChar d ≠ [] := by
        rw [← List.length_pos_iff, String.length_utf8EncodeChar]
        exact d.utf8Size_pos
      obtain ⟨b, bs, hb⟩ := List.exists_cons_of_ne_nil hne
      rw [List.flatMap_nil, List.flatMap_cons, hb]
      exact List.nil_lt_cons _ _
  | cons c cs ih =>
    cases ds with
    | nil => exact absurd h (List.not_lt_nil _)
    | cons d ds =>
      rw [List.flatMap_cons, List.flatMap_cons]
      rcases List.cons_lt_cons_iff.mp h with hlt | ⟨rfl, hrest⟩
      · exact utf8EncodeChar_append_lt hlt _ _
      · exact List.append_left_lt (ih hrest)

theorem ofString_lt {a b : String} (h : a < b) : ofString a < ofString b :=
  flatMap_utf8EncodeChar_lt h

/-- UTF-8 keeps the order of texts. -/
theorem ofString_lt_iff {a b : String} : ofString a < ofString b ↔ a < b := by
  refine ⟨fun h => ?_, ofString_lt⟩
  apply Decidable.byContradiction
  intro hnot
  rcases Decidable.em (b < a) with hlt | hnlt
  · exact List.lt_asymm h (ofString_lt hlt)
  · obtain rfl := String.le_antisymm (String.not_lt.mp hnot) (String.not_lt.mp hnlt)
    exact List.lt_irrefl _ h

end Bytes

/-! ### Halving and walking -/

namespace SortedTable

variable {α : Type} (t : SortedTable α)

theorem find?_eq_some_iff {name : String} {row : α} :
    t.find? name = some row ↔ (name, row) ∈ t.rows.toList :=
  ⟨mem_of_find?, find?_of_mem⟩

theorem isSome_find?_iff {name : String} : (t.find? name).isSome ↔ name ∈ t.names := by
  rw [Option.isSome_iff_ne_none, ne_eq, find?_eq_none, Decidable.not_not]

/-- The row found by halving is the first that a walk through the rows meets. -/
theorem find?_eq_lookup (name : String) : t.find? name = t.rows.toList.lookup name := by
  cases hwalk : t.rows.toList.lookup name with
  | some row =>
    obtain ⟨ahead, behind, hrows, -⟩ := List.lookup_eq_some_iff.mp hwalk
    refine find?_of_mem ?_
    rw [hrows]
    simp
  | none =>
    rw [List.lookup_eq_none_iff] at hwalk
    rw [find?_eq_none]
    intro hmem
    obtain ⟨row, hrow, rfl⟩ := List.mem_map.mp hmem
    simpa using hwalk row hrow

/-- Searching the table is as good as walking through it. -/
structure SearchedAsWalked : Prop where
  /-- The names ascend byte by byte. -/
  ascends : t.rows.toList.Pairwise fun a b => Bytes.ofString a.1 < Bytes.ofString b.1
  walk : ∀ name, t.find? name = t.rows.toList.lookup name
  succeeds : ∀ name, (t.find? name).isSome ↔ name ∈ t.names
  row : ∀ name row, t.find? name = some row ↔ (name, row) ∈ t.rows.toList

theorem searchedAsWalked : t.SearchedAsWalked where
  ascends := t.ascending.imp Bytes.ofString_lt
  walk := t.find?_eq_lookup
  succeeds _ := t.isSome_find?_iff
  row _ _ := t.find?_eq_some_iff

end SortedTable

/-! ### Registers -/

namespace Register

theorem parse?_eq_some_iff {text : String} {r : Register} :
    parse? text = some r ↔
      ∃ code, (text.toLower, code) ∈ table.rows.toList ∧ r = ⟨text.toLower, code.width⟩ := by
  simp only [parse?, Option.map_eq_some_iff, SortedTable.find?_eq_some_iff]
  exact exists_congr fun code => and_congr_right fun _ => eq_comm

theorem number_of_mem {r : Register} {code : Code} (h : (r.name, code) ∈ table.rows.toList) :
    r.number = .ok code.number := by
  rw [number, SortedTable.find?_of_mem h]

/-- A name is looked up by halving as by walking, byte by byte as character by character, in both
tables.  A text names a register exactly when it stands in the table in lower case, and the
register has that name, and the width and the number of its row. -/
theorem lookup_by_halving :
    (∀ a b : String, a < b ↔ Bytes.ofString a < Bytes.ofString b) ∧
    table.SearchedAsWalked ∧ Form.table.SearchedAsWalked ∧
    (∀ mnemonic, Form.all mnemonic = (Form.table.rows.toList.lookup mnemonic).getD []) ∧
    (∀ text, (parse? text).isSome ↔ text.toLower ∈ table.names) ∧
    ∀ text r, parse? text = some r ↔
      ∃ code, (text.toLower, code) ∈ table.rows.toList ∧ r.name = text.toLower ∧
        r.width = code.width ∧ r.number = .ok code.number := by
  refine ⟨fun _ _ => Bytes.ofString_lt_iff.symm, table.searchedAsWalked,
    Form.table.searchedAsWalked, ?_, ?_, ?_⟩
  · intro mnemonic
    rw [Form.all, SortedTable.find?_eq_lookup]
  · intro text
    rw [parse?, Option.isSome_map, SortedTable.isSome_find?_iff]
  · intro text r
    rw [parse?_eq_some_iff]
    constructor
    · rintro ⟨code, hmem, rfl⟩
      exact ⟨code, hmem, rfl, rfl, number_of_mem hmem⟩
    · rintro ⟨code, hmem, hname, hwidth, -⟩
      refine ⟨code, hmem, ?_⟩
      rw [← hname, ← hwidth]

end Register

end X64Asm
