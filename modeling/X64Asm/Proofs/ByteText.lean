import Mathlib.Data.List.TakeWhile
import Mathlib.Data.String.Basic
import X64Asm.Proofs.SourceNames

/-! # Texts by bytes

A source text is held in bytes.  A program that goes through it by offsets compares bytes with the
codes of characters, cuts stretches out of the text and subtracts offsets, and not all of these steps
can be taken everywhere: a stretch has to begin and end between characters, and a difference must not
fall below zero.  A `Checked` program has no result if it takes such a step where it cannot be taken.
Its loops have to move on with every round (`further`), and have no result if they would not end.

A byte is looked at as the character of its number.  The bytes of a character beyond ASCII all have
numbers beyond ASCII, so a sort of character that does not set these apart (`Uniform`) can be skipped
byte by byte (`takeWhile_units`, `skip_units`).  Such skipping leads from one place between
characters to another, where the text can be cut (`stretch_takeWhile`). -/

namespace X64Asm

/-- A program that gives a value or a report, or has no result because it takes a step that cannot be
taken. -/
abbrev Checked := ExceptT Diagnostic Option

namespace Checked

/-- The value or report. -/
def ofExcept {α : Type} (e : Except Diagnostic α) : Checked α := ExceptT.mk (some e)

theorem ofExcept_ok {α : Type} (a : α) : ofExcept (.ok a) = pure a := rfl

/-- A value that is there only under a condition. -/
def guarded {α : Type} (p : Prop) [Decidable p] (value : α) : Checked α :=
  if p then pure value else ExceptT.mk none

theorem guarded_eq {α : Type} {p : Prop} [Decidable p] (h : p) (value : α) :
    guarded p value = pure value := if_pos h

/-- The difference of two numbers, which has to be one. -/
def minus (m n : Nat) : Checked Nat := guarded (n ≤ m) (m - n)

/-- The next round of a loop has to be at a later place, and not behind the last one. -/
def further (last place next : Nat) : Checked (PLift (place < next ∧ next ≤ last)) :=
  if h : place < next ∧ next ≤ last then pure ⟨h⟩ else ExceptT.mk none

theorem further_eq {last place next : Nat} (h : place < next) (hlast : next ≤ last) :
    further last place next = pure ⟨h, hlast⟩ := dif_pos ⟨h, hlast⟩

/-- The text from one offset to another, which have to be in order and stand between characters. -/
def stretch (source : String) (start stop : Nat) : Checked String :=
  guarded (start ≤ stop ∧ String.Pos.Raw.isValid source ⟨start⟩ = true ∧
      String.Pos.Raw.isValid source ⟨stop⟩ = true)
    (String.Pos.Raw.extract source ⟨start⟩ ⟨stop⟩)

/-! ### Bytes and characters -/

/-- The bytes of a text, each as the character of its number. -/
def units (text : List Char) : List Char := (text.flatMap String.utf8EncodeChar).map Char.ofUInt8

theorem units_append (cs ds : List Char) : units (cs ++ ds) = units cs ++ units ds := by
  unfold units
  rw [List.flatMap_append, List.map_append]

theorem units_cons (c : Char) (cs : List Char) : units (c :: cs) = units [c] ++ units cs :=
  units_append [c] cs

theorem length_units (cs : List Char) : (units cs).length = byteLength cs := by
  unfold units
  rw [List.length_map]
  induction cs with
  | nil => rfl
  | cons c cs ih =>
      rw [List.flatMap_cons, List.length_append, String.length_utf8EncodeChar, ih, byteLength]

/-- A character of ASCII is its own byte. -/
theorem units_cons_ascii {c : Char} (h : c.toNat < 128) (cs : List Char) :
    units (c :: cs) = c :: units cs := by
  have hsize : c.utf8Size = 1 := by
    rw [Char.utf8Size_eq_one_iff, UInt32.le_iff_toNat_le]
    exact Nat.le_of_lt_succ h
  have hself : Char.ofUInt8 c.val.toUInt8 = c := by
    apply Char.ext
    apply UInt32.toNat.inj
    have hval : c.val.toNat < 128 := h
    show c.val.toUInt8.toUInt32.toNat = c.val.toNat
    rw [UInt8.toNat_toUInt32, UInt32.toNat_toUInt8, Nat.mod_eq_of_lt (by omega)]
  unfold units
  rw [List.flatMap_cons, String.utf8EncodeChar_eq_singleton hsize, List.map_append,
    List.map_singleton, hself, List.singleton_append]

/-- The bytes of another character lie beyond ASCII. -/
theorem le_of_mem_utf8EncodeChar {c : Char} {b : UInt8} (h : 128 ≤ c.toNat)
    (hb : b ∈ String.utf8EncodeChar c) : 128 ≤ b.toNat := by
  have hval : ¬ c.val.toNat ≤ 127 := Nat.not_le.mpr h
  have hbyte : ∀ n, 128 ≤ n % 256 → 128 ≤ (UInt8.ofNat n).toNat := by
    intro n hn
    rw [UInt8.toNat_ofNat']
    exact hn
  simp only [String.utf8EncodeChar, if_neg hval] at hb
  split at hb
  · simp only [List.mem_cons, List.not_mem_nil, or_false] at hb
    rcases hb with rfl | rfl <;> exact hbyte _ (by omega)
  · split at hb
    · simp only [List.mem_cons, List.not_mem_nil, or_false] at hb
      rcases hb with rfl | rfl | rfl <;> exact hbyte _ (by omega)
    · simp only [List.mem_cons, List.not_mem_nil, or_false] at hb
      rcases hb with rfl | rfl | rfl | rfl <;> exact hbyte _ (by omega)

theorem le_of_mem_units {c u : Char} (h : 128 ≤ c.toNat) (hu : u ∈ units [c]) : 128 ≤ u.toNat := by
  obtain ⟨b, hb, rfl⟩ := List.mem_map.mp hu
  rw [List.flatMap_singleton] at hb
  show 128 ≤ b.toUInt32.toNat
  rw [UInt8.toNat_toUInt32]
  exact le_of_mem_utf8EncodeChar h hb

/-- The sort does not set characters beyond ASCII apart. -/
def Uniform (sort : Char → Bool) : Prop :=
  ∀ c u : Char, 128 ≤ c.toNat → 128 ≤ u.toNat → sort c = sort u

theorem uniform_ne {x : Char} (hx : x.toNat < 128) : Uniform fun b => b ≠ x := by
  have hne : ∀ b : Char, 128 ≤ b.toNat → decide (b ≠ x) = true := by
    intro b hb
    rw [decide_eq_true_eq]
    rintro rfl
    exact absurd hx (Nat.not_lt.mpr hb)
  exact fun c u hc hu => (hne c hc).trans (hne u hu).symm

theorem Uniform.and {f g : Char → Bool} (hf : Uniform f) (hg : Uniform g) :
    Uniform fun b => f b && g b := by
  intro c u hc hu
  show (f c && g c) = (f u && g u)
  rw [hf c u hc hu, hg c u hc hu]

theorem units_ne_nil (c : Char) : units [c] ≠ [] := by
  rw [← List.length_pos_iff, length_units]
  exact Nat.lt_of_lt_of_le c.utf8Size_pos (Nat.le_add_right _ _)

/-- Skipping bytes of a uniform sort is skipping characters. -/
theorem takeWhile_units {sort : Char → Bool} (h : Uniform sort) (cs : List Char) :
    (units cs).takeWhile sort = units (cs.takeWhile sort) := by
  induction cs with
  | nil => rfl
  | cons c cs ih =>
      rcases Nat.lt_or_ge c.toNat 128 with hc | hc
      · rw [units_cons_ascii hc, List.takeWhile_cons, List.takeWhile_cons, ih]
        split
        · rw [units_cons_ascii hc]
        · rfl
      · have hunits : ∀ u ∈ units [c], sort u = sort c := fun u hu =>
          h u c (le_of_mem_units hc hu) hc
        rw [units_cons, List.takeWhile_cons]
        by_cases hsort : sort c = true
        · rw [if_pos hsort, units_cons c (cs.takeWhile sort), ← ih]
          exact List.takeWhile_append_of_pos fun u hu => (hunits u hu).trans hsort
        · rw [if_neg hsort]
          obtain ⟨u, us, hus⟩ := List.exists_cons_of_ne_nil (units_ne_nil c)
          rw [hus, List.cons_append, List.takeWhile_cons_of_neg]
          · rfl
          · rw [hunits u (hus ▸ List.mem_cons_self)]
            exact hsort

/-! ### Characters of ASCII -/

theorem Uniform.of_ascii {sort : Char → Bool} (h : ∀ c, sort c = true → c.toNat < 128) :
    Uniform sort := by
  intro c u hc hu
  rw [Bool.eq_iff_iff]
  constructor
  · intro hsort
    exact absurd (h c hsort) (Nat.not_lt.mpr hc)
  · intro hsort
    exact absurd (h u hsort) (Nat.not_lt.mpr hu)

theorem units_of_ascii {cs : List Char} (h : ∀ c ∈ cs, c.toNat < 128) : units cs = cs := by
  induction cs with
  | nil => rfl
  | cons c cs ih =>
      rw [units_cons_ascii (h c List.mem_cons_self),
        ih fun d hd => h d (List.mem_cons_of_mem c hd)]

theorem byteLength_of_ascii {cs : List Char} (h : ∀ c ∈ cs, c.toNat < 128) :
    byteLength cs = cs.length := by
  rw [← length_units, units_of_ascii h]

theorem byteLength_singleton {c : Char} (h : c.toNat < 128) : byteLength [c] = 1 :=
  byteLength_of_ascii fun _ hd => List.mem_singleton.mp hd ▸ h

/-! ### Places in the text -/

/-- The first offset from `i` on where there is no byte of the given sort. -/
def skip (bytes : List Char) (sort : Char → Bool) (i : Nat) : Nat :=
  if h : i < bytes.length then
    if sort bytes[i] then skip bytes sort (i + 1) else i
  else i

/-- The bytes from one offset to another, which have to be in order and within the text. -/
def between (bytes : List Char) (start stop : Nat) : Checked (List Char) :=
  guarded (start ≤ stop ∧ stop ≤ bytes.length) ((bytes.drop start).take (stop - start))

theorem skip_eq (bytes : List Char) (sort : Char → Bool) (i : Nat) :
    skip bytes sort i = i + ((bytes.drop i).takeWhile sort).length := by
  fun_induction skip bytes sort i with
  | case1 i h hsort ih =>
      rw [ih, List.drop_eq_getElem_cons h, List.takeWhile_cons, if_pos hsort, List.length_cons]
      omega
  | case2 i h hsort =>
      rw [List.drop_eq_getElem_cons h, List.takeWhile_cons, if_neg hsort]
      rfl
  | case3 i h =>
      rw [List.drop_eq_nil_of_le (Nat.not_lt.mp h)]
      rfl

section places

variable {source : String} {pre mid post cs : List Char}

theorem skip_units {sort : Char → Bool} (hsort : Uniform sort) (h : source.toList = pre ++ cs) :
    skip (units source.toList) sort (byteLength pre) =
      byteLength pre + byteLength (cs.takeWhile sort) := by
  rw [skip_eq, h, units_append, ← length_units pre, List.drop_left, takeWhile_units hsort,
    length_units (cs.takeWhile sort)]

theorem getElem?_units (h : source.toList = pre ++ cs) :
    (units source.toList)[byteLength pre]? = (units cs).head? := by
  rw [h, units_append, ← length_units pre, List.getElem?_append_right (Nat.le_refl _), Nat.sub_self,
    List.head?_eq_getElem?]

/-- The byte of a character of ASCII stands for that character alone. -/
theorem head?_units_eq_some_iff {x : Char} (hx : x.toNat < 128) :
    (units cs).head? = some x ↔ cs.head? = some x := by
  cases cs with
  | nil => exact Iff.rfl
  | cons c cs =>
      rcases Nat.lt_or_ge c.toNat 128 with hc | hc
      · rw [units_cons_ascii hc, List.head?_cons, List.head?_cons]
      · constructor
        · intro hhead
          rw [units_cons, List.head?_append, Option.or_eq_some_iff] at hhead
          rcases hhead with hhead | ⟨hnone, _⟩
          · exact absurd hx (Nat.not_lt.mpr (le_of_mem_units hc (List.mem_of_head? hhead)))
          · exact absurd (List.head?_eq_none_iff.mp hnone) (units_ne_nil c)
        · intro hhead
          cases hhead
          exact absurd hx (Nat.not_lt.mpr hc)

theorem any_head?_units {sort : Char → Bool} (cs : List Char)
    (hsort : ∀ c, sort c = true → c.toNat < 128) :
    (units cs).head?.any sort = cs.head?.any sort := by
  rw [Bool.eq_iff_iff, Option.any_eq_true, Option.any_eq_true]
  constructor
  · rintro ⟨x, hhead, hx⟩
    exact ⟨x, (head?_units_eq_some_iff (hsort x hx)).mp hhead, hx⟩
  · rintro ⟨x, hhead, hx⟩
    exact ⟨x, (head?_units_eq_some_iff (hsort x hx)).mpr hhead, hx⟩

theorem getElem?_takeWhile (sort : Char → Bool) (cs : List Char) :
    cs[(cs.takeWhile sort).length]? = (cs.dropWhile sort).head? := by
  have hsplit : ∀ n : Nat, cs[n]? = (cs.takeWhile sort ++ cs.dropWhile sort)[n]? := by
    intro n
    rw [List.takeWhile_append_dropWhile]
  rw [hsplit, List.getElem?_append_right (Nat.le_refl _), Nat.sub_self, List.head?_eq_getElem?]

/-- The byte behind what is skipped is the byte of a character of ASCII just if that character is
behind it. -/
theorem getElem?_behind (sort : Char → Bool) (h : source.toList = pre ++ cs) {x : Char}
    (hx : x.toNat < 128) :
    (units source.toList)[byteLength pre + byteLength (cs.takeWhile sort)]? = some x ↔
      cs[(cs.takeWhile sort).length]? = some x := by
  have hsplit : source.toList = (pre ++ cs.takeWhile sort) ++ cs.dropWhile sort := by
    rw [h, List.append_assoc, List.takeWhile_append_dropWhile]
  rw [← byteLength_append, getElem?_units hsplit, head?_units_eq_some_iff hx, getElem?_takeWhile]

theorem byteLength_eq (cs : List Char) : byteLength cs = (String.ofList cs).utf8ByteSize := by
  rw [← byteLength_toList, String.toList_ofList]

theorem isValid_of_append (h : source.toList = pre ++ cs) :
    String.Pos.Raw.isValid source ⟨byteLength pre⟩ = true := by
  rw [String.Pos.Raw.isValid_eq_true_iff, String.Pos.Raw.isValid_iff_exists_append]
  refine ⟨String.ofList pre, String.ofList cs, ?_, ?_⟩
  · rw [← String.ofList_append, ← h, String.ofList_toList]
  · rw [byteLength_eq]
    rfl

theorem stretch_eq (h : source.toList = pre ++ mid ++ post) :
    stretch source (byteLength pre) (byteLength pre + byteLength mid) =
      pure (String.ofList mid) := by
  have hstart : String.Pos.Raw.isValid source ⟨byteLength pre⟩ = true := by
    rw [List.append_assoc] at h
    exact isValid_of_append h
  have hstop : String.Pos.Raw.isValid source ⟨byteLength pre + byteLength mid⟩ = true := by
    rw [← byteLength_append]
    exact isValid_of_append h
  have hlen : ∀ cs : List Char, byteLength cs = String.utf8Len cs := by
    intro cs
    rw [byteLength_eq, String.utf8ByteSize_ofList]
  unfold stretch
  rw [guarded_eq ⟨Nat.le_add_right _ _, hstart, hstop⟩]
  congr 1
  rw [← String.ofList_toList (s := source), h, hlen pre, hlen mid]
  exact String.extract_of_valid pre mid post

theorem stretch_takeWhile (sort : Char → Bool) (h : source.toList = pre ++ cs) :
    stretch source (byteLength pre) (byteLength pre + byteLength (cs.takeWhile sort)) =
      pure (String.ofList (cs.takeWhile sort)) := by
  have hsplit : source.toList = pre ++ cs.takeWhile sort ++ cs.dropWhile sort := by
    rw [h, List.append_assoc, List.takeWhile_append_dropWhile]
  exact stretch_eq hsplit

theorem between_units (h : source.toList = pre ++ mid ++ post) :
    between (units source.toList) (byteLength pre) (byteLength pre + byteLength mid) =
      pure (units mid) := by
  have hunits : units source.toList = units pre ++ (units mid ++ units post) := by
    rw [h, List.append_assoc, units_append, units_append]
  unfold between
  rw [guarded_eq]
  · rw [hunits, ← length_units pre, List.drop_left, Nat.add_sub_cancel_left, ← length_units mid,
      List.take_left]
  · refine ⟨Nat.le_add_right _ _, ?_⟩
    rw [length_units, h, byteLength_append, byteLength_append]
    exact Nat.le_add_right _ _

theorem minus_add (m n : Nat) : minus (m + n) m = pure n := by
  unfold minus
  rw [guarded_eq (Nat.le_add_right m n), Nat.add_sub_cancel_left]

end places

end Checked

end X64Asm
