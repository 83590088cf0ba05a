import X64Asm.Proofs.Decoder
import X64Asm.Proofs.EncodedBytes

/-! # Reading back the parts of an instruction

The decoder reads each part that the encoder lays out, and stops where the part ends:

* constants and displacements (`readSigned_immediate`, `readSigned_displacementBytes`);
* the prefixes (`decode_prefixes`);
* the register fields with the address behind them (`readFields_fieldsBytes`).

`Operand.place?` is the operand as the machine should see it. -/

namespace X64Asm

open Decoder

/-! ### Numbers -/

/-- A signed number of a word is its own residue. -/
theorem FitsSigned.bmod_eq {bits : Nat} {v : Int} (hbits : 0 < bits) (h : FitsSigned bits v) :
    v.bmod (wordCount bits) = v := by
  obtain ⟨hlo, hhi⟩ := h
  have hcount : wordCount bits = 2 * wordCount (bits - 1) := by
    rw [← wordCount_succ]
    congr 1
    omega
  exact Int.bmod_eq_of_le (by omega) (by omega)

/-- The bytes of a number come to its residue. -/
theorem Bytes.toNat_littleEndianInt (width : Nat) (v : Int) :
    (toNat (littleEndianInt width v) : Int) = v % wordCount (8 * width) := by
  have hpos : 0 < wordCount (8 * width) := Nat.two_pow_pos _
  have hnonneg : 0 ≤ v % (wordCount (8 * width) : Int) := Int.emod_nonneg _ (by omega)
  have hlt : v % (wordCount (8 * width) : Int) < wordCount (8 * width) :=
    Int.emod_lt_of_pos _ (by omega)
  rw [littleEndianInt, toNat_littleEndian, Nat.mod_eq_of_lt (by omega), Int.toNat_of_nonneg hnonneg]

theorem Bytes.toInt_littleEndianInt {width : Nat} {v : Int} (hw : 0 < width)
    (hv : FitsSigned (8 * width) v) : toInt (littleEndianInt width v) = v := by
  unfold toInt
  rw [toNat_littleEndianInt, length_littleEndianInt, Int.emod_bmod]
  exact hv.bmod_eq (by omega)

/-- What was laid out as a signed number is read as that number. -/
theorem readSigned_littleEndianInt {count : Nat} {v : Int} (hc : 0 < count)
    (hv : FitsSigned (8 * count) v) (rest : Bytes) :
    readSigned count (Bytes.littleEndianInt count v ++ rest) = some (v, rest) := by
  have hlen := Bytes.length_littleEndianInt count v
  unfold readSigned
  rw [if_neg (by rw [List.length_append]; omega), List.take_left' hlen, List.drop_left' hlen,
    Bytes.toInt_littleEndianInt hc hv]

theorem littleEndianInt_one (v : Int8) : Bytes.littleEndianInt 1 v.toInt = [v.toUInt8] := by
  have e : (v.toInt % (wordCount (8 * 1) : Int)).toNat = v.toUInt8.toNat := by
    show (v.toBitVec.toInt % ((256 : Nat) : Int)).toNat = v.toBitVec.toNat
    have := v.toBitVec.isLt
    rw [BitVec.toInt_eq_toNat_bmod, Int.bmod_emod]
    omega
  rw [Bytes.littleEndianInt, e]
  simp [Bytes.littleEndian]

/-- In the short layout every constant takes the bytes of its width. -/
theorem Immediate.bytes_twoBytes (imm : Immediate) :
    imm.bytes .twoBytes = Bytes.littleEndianInt (imm.width.bits / 8) imm.value := by
  cases imm <;> simp [bytes, width, Width.bits, value, littleEndianInt_one]

/-- A constant is read as its value. -/
theorem readSigned_immediate (imm : Immediate) (rest : Bytes) :
    readSigned (imm.width.bits / 8) (imm.bytes .twoBytes ++ rest) = some (imm.value, rest) := by
  have hfits := imm.fits_width
  have hbits : 0 < imm.width.bits / 8 ∧ 8 * (imm.width.bits / 8) = imm.width.bits := by
    cases imm <;> simp [Immediate.width, Width.bits]
  rw [imm.bytes_twoBytes, readSigned_littleEndianInt hbits.1 (by rw [hbits.2]; exact hfits)]

/-- A displacement is read as its value. -/
theorem readSigned_displacementBytes {disp : Immediate} {bytes : Bytes}
    (h : displacementBytes disp = .ok bytes) (rest : Bytes) :
    readSigned 4 (bytes ++ rest) = some (disp.value, rest) := by
  unfold displacementBytes at h
  split at h
  · next hfits =>
    cases h
    exact readSigned_littleEndianInt (by decide) hfits rest
  · cases h

/-! ### Prefixes -/

/-- An opcode that is not taken for a prefix. -/
def PlainOpcode (opcode : UInt8) : Prop := opcode ≠ sizeOverride ∧ isExtension opcode = false

instance (opcode : UInt8) : Decidable (PlainOpcode opcode) := inferInstanceAs (Decidable (_ ∧ _))

theorem readExtension_extensionByte (wide reg rm : Bool) (bytes : Bytes) :
    readExtension (extensionByte wide reg rm :: bytes) = (⟨wide, reg, false, rm⟩, bytes) := by
  cases wide <;> cases reg <;> cases rm <;> rfl

theorem extensionByte_ne_sizeOverride (wide reg rm : Bool) :
    extensionByte wide reg rm ≠ sizeOverride := by
  cases wide <;> cases reg <;> cases rm <;> decide

theorem readExtension_plain {opcode : UInt8} (h : PlainOpcode opcode) (bytes : Bytes) :
    readExtension (opcode :: bytes) = ({}, opcode :: bytes) := by
  simp [readExtension, h.2]

/-- The override is read off in front of bytes that do not begin with another. -/
theorem readOverride_append (override : Bool) {byte : UInt8} (h : byte ≠ sizeOverride)
    (bytes : Bytes) :
    readOverride ((if override then [sizeOverride] else []) ++ byte :: bytes) =
      (override, byte :: bytes) := by
  cases override with
  | true => rfl
  | false => exact if_neg h

/-- The prefixes are read as they were meant. -/
theorem decode_prefixes (override wide reg rm : Bool) {opcode : UInt8} (h : PlainOpcode opcode)
    (bytes : Bytes) :
    decode ((if override then [sizeOverride] else []) ++
        (if wide || reg || rm then [extensionByte wide reg rm] else []) ++ opcode :: bytes) =
      decodeOpcode override ⟨wide, reg, false, rm⟩ (opcode :: bytes) := by
  rw [List.append_assoc, decode]
  cases hset : wide || reg || rm with
  | true =>
      have hover := readOverride_append override (extensionByte_ne_sizeOverride wide reg rm)
        (opcode :: bytes)
      have hext := readExtension_extensionByte wide reg rm (opcode :: bytes)
      simp only [if_true, List.singleton_append, hover, hext]
  | false =>
      simp only [Bool.or_eq_false_iff] at hset
      obtain ⟨⟨rfl, rfl⟩, rfl⟩ := hset
      simp only [Bool.false_eq_true, if_false, List.nil_append, readOverride_append override h.1,
        readExtension_plain h]

/-! ### Register fields -/

theorem number_lowBits (n : Register.Number) : number n.lowBits n.isExtended = n := by
  revert n
  decide

theorem Register.Number.lowBits_lt (n : Register.Number) : n.lowBits < 8 :=
  Nat.mod_lt _ (by decide)

theorem toNat_fieldByte {mode reg rm : Nat} (hmode : mode < 4) (hreg : reg < 8) (hrm : rm < 8) :
    (fieldByte mode reg rm).toNat = 64 * mode + 8 * reg + rm := by
  rw [fieldByte, UInt8.toNat_ofNat', Nat.mod_eq_of_lt (by omega)]

/-- The three fields are read off the byte. -/
theorem fieldByte_parts {mode reg rm : Nat} (hmode : mode < 4) (hreg : reg < 8) (hrm : rm < 8) :
    (fieldByte mode reg rm).toNat / 64 = mode ∧ (fieldByte mode reg rm).toNat / 8 % 8 = reg ∧
      (fieldByte mode reg rm).toNat % 8 = rm := by
  have e := toNat_fieldByte hmode hreg hrm
  omega

theorem readFields_register (ext : Extension) {reg rm : Nat} (hreg : reg < 8) (hrm : rm < 8)
    (rest : Bytes) :
    readFields ext (fieldByte 3 reg rm :: rest) =
      some (.register (number rm ext.base), reg, rest) := by
  obtain ⟨hhigh, hmid, hlow⟩ := fieldByte_parts (show 3 < 4 by decide) hreg hrm
  simp only [readFields, hhigh, hmid, hlow, if_true]

theorem readFields_memory {ext : Extension} {mode reg rm : Nat} {bytes rest : Bytes}
    {reference : Reference} (hmode : mode < 3) (hreg : reg < 8) (hrm : rm < 8)
    (h : readReference ext mode rm bytes = some (reference, rest)) :
    readFields ext (fieldByte mode reg rm :: bytes) = some (.memory reference, reg, rest) := by
  obtain ⟨hhigh, hmid, hlow⟩ := fieldByte_parts (show mode < 4 by omega) hreg hrm
  simp only [readFields, hhigh, hmid, hlow, if_neg (show ¬mode = 3 by omega), h]
  rfl

theorem readSigned_zero (rest : Bytes) : readSigned 0 rest = some (0, rest) := by
  simp [readSigned, Bytes.toInt, Bytes.toNat]

/-- An address that is a base register.  Low bits 4 go through the scale-index-base byte, low bits 5
through a displacement of zero. -/
theorem readReference_base {ext : Extension} {n : Register.Number} (hindex : ext.index = false)
    (hbase : ext.base = n.isExtended) (rest : Bytes) :
    readReference ext (if n.lowBits = 5 then 1 else 0) n.lowBits
        (((if n.lowBits = 4 then some 4 else none).map baseByte).toList ++
          ((if n.lowBits = 5 then [0] else []) ++ rest)) =
      some (⟨.register n, none, 0⟩, rest) := by
  have hn := number_lowBits n
  rw [← hbase] at hn
  by_cases h4 : n.lowBits = 4
  · rw [h4] at hn
    have hsib : sibBase ext 0 (baseByte 4) = .register n := by rw [← hn]; rfl
    have hnone : sibIndex ext (baseByte 4) = none := by rw [sibIndex, hindex]; rfl
    simp [readReference, readBase, h4, hsib, hnone, displacementCount, readSigned_zero]
  · by_cases h5 : n.lowBits = 5
    · rw [h5] at hn
      have hzero : readSigned 1 (0 :: rest) = some (0, rest) := by
        simp [readSigned, Bytes.toInt, Bytes.toNat]
      simp [readReference, readBase, h5, hn, displacementCount, hzero]
    · simp [readReference, readBase, h4, h5, hn, displacementCount, readSigned_zero]

/-- An address that is a displacement alone. -/
theorem readReference_displacement {ext : Extension} {disp : Immediate} {bytes : Bytes}
    (hindex : ext.index = false) (h : displacementBytes disp = .ok bytes) (rest : Bytes) :
    readReference ext 0 4 (baseByte 5 :: (bytes ++ rest)) =
      some (⟨.absent, none, disp.value⟩, rest) := by
  have hsib : sibBase ext 0 (baseByte 5) = .absent := rfl
  have hnone : sibIndex ext (baseByte 5) = none := by rw [sibIndex, hindex]; rfl
  simp [readReference, readBase, hsib, hnone, displacementCount, readSigned_displacementBytes h]

/-- The operand as the machine should see it. -/
def Operand.place? : Operand → Option Place
  | register r => r.number.toOption.map .register
  | memory (.base r) => r.number.toOption.map fun n => .memory ⟨.register n, none, 0⟩
  | memory (.displacement disp) => some (.memory ⟨.absent, none, disp.value⟩)
  | immediate imm => some (.constant imm.value)

theorem numberOrFail_eq_ok {r : Register} {n : Register.Number} :
    r.numberOrFail = .ok n ↔ r.number = .ok n := mapError_eq_ok

theorem extensionBit_eq_ok {op : Operand} {r : Register} {bit : Bool} (hr : op.base? = some r)
    (h : extensionBit (some op) = .ok bit) : ∃ n, r.number = .ok n ∧ n.isExtended = bit := by
  simp only [extensionBit, Option.bind_some, hr] at h
  obtain ⟨n, hn, e⟩ := map_eq_ok.mp h
  exact ⟨n, numberOrFail_eq_ok.mp hn, e⟩

/-- Field bits are three bits. -/
theorem fieldBits_lt {op : Option Operand} {slot : Option Slot} {bits : Option Nat}
    (h : fieldBits op slot = .ok bits) : bits.getD 0 < 8 := by
  unfold fieldBits at h
  split at h
  · split at h
    · cases h; decide
    · obtain ⟨n, _, rfl⟩ := map_eq_ok.mp h
      exact n.lowBits_lt
  · obtain ⟨n, _, rfl⟩ := map_eq_ok.mp h
    exact n.lowBits_lt
  · cases h; decide
  · cases h; decide

/-- The operand in `rm` is read as the place that it names, and `reg` as the bits that were put
there. -/
theorem readFields_fieldsBytes {place : Placement} {op : Operand} {ext : Extension} {rm : Nat}
    {bytes : Bytes} (hop : place.rm = some op) (hindex : ext.index = false)
    (hbase : extensionBit place.rm = .ok ext.base)
    (hrm : fieldBits place.rm place.rmSlot = .ok (some rm)) (h : fieldsBytes place rm = .ok bytes) :
    ∃ p reg, op.place? = some p ∧ fieldBits place.reg place.regSlot = .ok reg ∧
      ∀ rest, readFields ext (bytes ++ rest) = some (p, reg.getD 0, rest) := by
  obtain ⟨reg, hreg, h⟩ := bind_eq_ok.mp h
  obtain ⟨disp, hdisp, h⟩ := bind_eq_ok.mp h
  have hlt := fieldBits_lt hreg
  cases h
  rw [hop] at hbase hrm hdisp ⊢
  cases op with
  | register r =>
      obtain ⟨n, hn, hext⟩ := extensionBit_eq_ok rfl hbase
      refine ⟨.register n, reg, by simp [Operand.place?, hn, Except.toOption], hreg, fun rest => ?_⟩
      have hlow : n.lowBits = rm := by
        simp only [fieldBits] at hrm
        split at hrm
        · cases hrm
        · obtain ⟨n', hn', e⟩ := map_eq_ok.mp hrm
          rw [numberOrFail_eq_ok, hn] at hn'
          cases hn'
          exact Option.some.inj e
      cases hdisp
      have hread := readFields_register ext hlt (hlow ▸ n.lowBits_lt) rest
      rw [← hlow, ← hext, number_lowBits] at hread
      simpa [modeBits, sibBase?, hlow] using hread
  | memory a =>
      cases a with
      | base r =>
          obtain ⟨n, hn, hext⟩ := extensionBit_eq_ok rfl hbase
          refine ⟨_, reg, by simp [Operand.place?, hn, Except.toOption]; rfl, hreg, fun rest => ?_⟩
          have hlow : n.lowBits = rm := by
            obtain ⟨n', hn', e⟩ := map_eq_ok.mp hrm
            rw [numberOrFail_eq_ok, hn] at hn'
            cases hn'
            exact Option.some.inj e
          cases hdisp
          subst hlow
          have hread := readReference_base hindex hext.symm rest
          have hmode : (if n.lowBits = 5 then 1 else 0) < 3 := by split <;> decide
          have := readFields_memory hmode hlt n.lowBits_lt hread
          simpa [modeBits, sibBase?] using this
      | displacement d =>
          cases hrm
          have hread := fun rest => readReference_displacement hindex hdisp rest
          refine ⟨_, reg, rfl, hreg, fun rest => ?_⟩
          have := readFields_memory (by decide) hlt (by decide) (hread rest)
          simpa [modeBits, sibBase?] using this
  | immediate imm => cases hrm

end X64Asm
