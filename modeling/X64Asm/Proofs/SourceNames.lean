import Mathlib.Data.List.Flatten
import Mathlib.Data.List.Perm.Subperm
import X64Asm.Proofs.JoinedText
import X64Asm.Proofs.SymbolKinds

/-! # Names in bytes

The names that a source text declares stand in it (`Grammar.mem_identifiers_of_declared`).  So they
hold no zero byte, and different ones take up no more room than the text has for them
(`nameRoom_le`). -/

namespace X64Asm

/-! ### Bytes of characters -/

theorem length_ofString (text : String) :
    (Bytes.ofString text).length = byteLength text.toList := by
  unfold Bytes.ofString
  induction text.toList with
  | nil => rfl
  | cons c cs ih =>
      rw [List.flatMap_cons, List.length_append, String.length_utf8EncodeChar, ih, byteLength]

theorem byteLength_toList (text : String) : byteLength text.toList = text.utf8ByteSize := by
  have hbytes : (Bytes.ofString text).toByteArray = text.toByteArray := String.utf8Encode_toList
  rw [← length_ofString, ← List.size_toByteArray, hbytes, String.size_toByteArray]

theorem byteLength_take_add_drop (n : Nat) (cs : List Char) :
    byteLength (cs.take n) + byteLength (cs.drop n) = byteLength cs := by
  rw [← byteLength_append, List.take_append_drop]

theorem ofNat_ne_zero {n : Nat} (h : n % 256 ≠ 0) : UInt8.ofNat n ≠ 0 := by
  intro hzero
  have hnat := congrArg UInt8.toNat hzero
  rw [UInt8.toNat_ofNat'] at hnat
  exact h hnat

/-- Only the zero character has a zero byte. -/
theorem zero_notMem_utf8EncodeChar {c : Char} (h : c ≠ '\x00') :
    0 ∉ String.utf8EncodeChar c := by
  have hval : c.val.toNat ≠ 0 := by
    intro hzero
    exact h (Char.ext (UInt32.toNat.inj hzero))
  simp only [String.utf8EncodeChar]
  split
  · rw [List.mem_singleton]
    exact (ofNat_ne_zero (by omega)).symm
  · split
    · simp only [List.mem_cons, List.not_mem_nil, or_false, not_or]
      exact ⟨(ofNat_ne_zero (by omega)).symm, (ofNat_ne_zero (by omega)).symm⟩
    · split
      · simp only [List.mem_cons, List.not_mem_nil, or_false, not_or]
        exact ⟨(ofNat_ne_zero (by omega)).symm, (ofNat_ne_zero (by omega)).symm,
          (ofNat_ne_zero (by omega)).symm⟩
      · simp only [List.mem_cons, List.not_mem_nil, or_false, not_or]
        exact ⟨(ofNat_ne_zero (by omega)).symm, (ofNat_ne_zero (by omega)).symm,
          (ofNat_ne_zero (by omega)).symm, (ofNat_ne_zero (by omega)).symm⟩

/-! ### Names among the tokens -/

/-- The number of bytes of the names, each with a zero that ends it. -/
def nameRoom (names : List String) : Nat :=
  (names.flatMap fun name => Bytes.ofString name ++ [0]).length

theorem nameRoom_cons (name : String) (names : List String) :
    nameRoom (name :: names) = (Bytes.ofString name).length + 1 + nameRoom names := by
  rw [nameRoom, List.flatMap_cons, List.length_append, List.length_append, List.length_singleton]
  rfl

/-- A name that is read is as long as what it is read from. -/
theorem Piece.ident_of_read {c : Char} {cs : List Char} {piece : Piece}
    (h : read c cs = .ok piece) (hkind : piece.kind = some .ident) :
    0 ∉ Bytes.ofString piece.text ∧
      (Bytes.ofString piece.text).length + 1 ≤ 2 * byteLength (c :: cs.take piece.more) := by
  obtain ⟨hstart, rfl⟩ := (kind_of_read h).2.1 hkind
  have hname : readName c cs =
      ⟨some .ident, String.ofList (c :: cs.takeWhile isIdentRest),
        (cs.takeWhile isIdentRest).length⟩ := by
    unfold readName at hkind ⊢
    simp only at hkind ⊢
    split at hkind
    · cases hkind
    · next hcolon => rw [if_neg hcolon]
  have htake : cs.take (cs.takeWhile isIdentRest).length = cs.takeWhile isIdentRest :=
    (List.prefix_iff_eq_take.mp (List.takeWhile_prefix isIdentRest)).symm
  have hpos : 0 < c.utf8Size := c.utf8Size_pos
  rw [hname]
  refine ⟨?_, ?_⟩
  · rw [Bytes.ofString, String.toList_ofList, List.mem_flatMap]
    rintro ⟨d, hd, hzero⟩
    refine zero_notMem_utf8EncodeChar ?_ hzero
    rintro rfl
    rcases List.mem_cons.mp hd with rfl | hd
    · cases hstart
    · cases List.all_eq_true.mp List.all_takeWhile _ hd
  · rw [length_ofString, String.toList_ofList, htake]
    simp only [byteLength]
    omega

/-- The names of a text hold no zero byte, and all together take up at most twice its room. -/
theorem identifiers_of_scan {p : Position} {cs : List Char} {tokens : List Token}
    (h : scan p cs = .ok tokens) :
    (∀ name ∈ identifiers tokens, 0 ∉ Bytes.ofString name) ∧
      nameRoom (identifiers tokens) ≤ 2 * byteLength cs := by
  fun_induction scan p cs generalizing tokens with
  | case1 p =>
      cases h
      exact ⟨by simp [identifiers], Nat.zero_le _⟩
  | case2 => cases h
  | case3 => cases h
  | case4 p c cs piece hpiece chars rest hrest =>
      rename_i ih
      cases h
      obtain ⟨hnonzero, hroom⟩ := ih hrest
      have hsize : byteLength (c :: cs) = byteLength chars + byteLength (cs.drop piece.more) := by
        simp only [chars, byteLength, ← byteLength_take_add_drop piece.more cs]
        omega
      by_cases hkind : piece.kind = some .ident
      · obtain ⟨hzero, hname⟩ := Piece.ident_of_read hpiece hkind
        have hnames : identifiers ((piece.token? p (byteLength chars)).toList ++ rest) =
            piece.text :: identifiers rest := by
          simp [identifiers, Piece.token?, hkind]
        rw [hnames, nameRoom_cons, hsize]
        refine ⟨List.forall_mem_cons.mpr ⟨hzero, hnonzero⟩, ?_⟩
        change _ ≤ 2 * byteLength chars at hname
        omega
      · have hnames : identifiers ((piece.token? p (byteLength chars)).toList ++ rest) =
            identifiers rest := by
          cases hpieceKind : piece.kind with
          | none => simp [identifiers, Piece.token?, hpieceKind]
          | some kind =>
              have hother : kind ≠ .ident := by
                rintro rfl
                exact hkind hpieceKind
              simp [identifiers, Piece.token?, hpieceKind, hother]
        rw [hnames, hsize]
        exact ⟨hnonzero, by omega⟩

/-- Different names of a text take up no more room than the text has for them. -/
theorem nameRoom_le {source : String} {tokens : List Token} {names : List String}
    (h : tokenize source = .ok tokens) (hnodup : names.Nodup)
    (hnames : names ⊆ identifiers tokens) : nameRoom names ≤ 2 * source.utf8ByteSize := by
  obtain ⟨names', hperm, hsublist⟩ := List.subperm_of_subset hnodup hnames
  calc nameRoom names
      = nameRoom names' := (hperm.flatMap_right _).length_eq.symm
    _ ≤ nameRoom (identifiers tokens) := (hsublist.flatMap _).length_le
    _ ≤ 2 * byteLength source.toList := (identifiers_of_scan h).2
    _ = 2 * source.utf8ByteSize := by rw [byteLength_toList]

/-! ### Declared names -/

namespace Grammar

/-- Each item is spelled by some of the tokens. -/
theorem Separated.exists_item {α : Type} {separator : TokenKind} {Item : List Token → α → Prop}
    {ts : List Token} {as : List α} (h : Separated separator Item ts as) :
    ∀ a ∈ as, ∃ us, us ⊆ ts ∧ Item us a := by
  induction h with
  | last item =>
      intro a ha
      rw [List.mem_singleton.mp ha]
      exact ⟨_, List.Subset.refl _, item⟩
  | cons item _ _ ih =>
      intro a ha
      rcases List.mem_cons.mp ha with rfl | ha
      · exact ⟨_, List.subset_append_left _ _, item⟩
      · obtain ⟨us, hus, hitem⟩ := ih a ha
        exact ⟨us, fun t ht => List.mem_append_right _ (List.mem_cons_of_mem _ (hus ht)), hitem⟩

theorem mem_identifiers {t : Token} {ts : List Token} (hkind : t.kind = .ident) (ht : t ∈ ts) :
    t.text ∈ identifiers ts :=
  List.mem_map.mpr ⟨t, List.mem_filter.mpr ⟨ht, decide_eq_true hkind⟩, rfl⟩

theorem identifiers_subset {ts us : List Token} (h : us ⊆ ts) : identifiers us ⊆ identifiers ts := by
  intro name hname
  obtain ⟨t, ht, rfl⟩ := List.mem_map.mp hname
  obtain ⟨hmem, hkind⟩ := List.mem_filter.mp ht
  exact mem_identifiers (of_decide_eq_true hkind) (h hmem)

/-- A word declares all the names behind it, or none. -/
theorem wordMarks_cases (word : String) (names : List String) :
    (∃ kind, wordMarks word names = names.map (.declared · kind)) ∨
      (wordMarks word names).filterMap Mark.declaration? = [] := by
  unfold wordMarks
  split
  · exact .inl ⟨_, rfl⟩
  · split
    · exact .inl ⟨_, rfl⟩
    · split
      · exact .inr rfl
      · exact .inr rfl

theorem mem_of_wordMarks {word : String} {names : List String} {d : String × SymbolKind}
    (h : d ∈ (wordMarks word names).filterMap Mark.declaration?) : d.1 ∈ names := by
  rcases wordMarks_cases word names with ⟨kind, hmarks⟩ | hnone
  · obtain ⟨mark, hmark, hd⟩ := List.mem_filterMap.mp h
    rw [hmarks] at hmark
    obtain ⟨name, hname, rfl⟩ := List.mem_map.mp hmark
    cases hd
    exact hname
  · rw [hnone] at h
    cases h

theorem mem_identifiers_of_lineMarks {ts : List Token} {d : String × SymbolKind}
    (h : d ∈ (lineMarks ts).filterMap Mark.declaration?) : d.1 ∈ identifiers ts := by
  induction ts with
  | nil => cases h
  | cons t ts ih =>
      apply identifiers_subset (List.subset_cons_self t ts)
      rw [lineMarks] at h
      split at h
      · exact ih h
      · exact mem_of_wordMarks h
      · cases h

/-- The names that lines declare stand in them. -/
theorem mem_identifiers_of_declared {ts : List Token} {lines : List (List Statement)}
    (h : Separated .newline Line ts lines) :
    ∀ d ∈ lines.flatten.flatMap Statement.declared, d.1 ∈ identifiers ts := by
  intro d hd
  obtain ⟨st, hst, hd⟩ := List.mem_flatMap.mp hd
  obtain ⟨sts, hsts, hst⟩ := List.mem_flatten.mp hst
  obtain ⟨us, hus, hline⟩ := h.exists_item sts hsts
  have hmark : d ∈ (lineMarks us).filterMap Mark.declaration? := by
    rw [hline.marks_eq, List.filterMap_flatMap]
    exact List.mem_flatMap.mpr ⟨st, hst, hd⟩
  exact identifiers_subset hus (mem_identifiers_of_lineMarks hmark)

end Grammar

end X64Asm
