import X64Asm.Proofs.EncodingFailure
import X64Asm.Proofs.LeastWidening

/-! # The two layouts of 16-bit constants

The layout has a say in two places, far apart: at the front, where the operand-size override may be
added, and at the end, where the constant is written.  The first looks at all operands, the second at
the constant that is found first.  Both mean the same constant, since no form takes two
(`immediate?_eq_some`).

So the two codes of an instruction differ only there (`Instruction.encode_layouts`): without a 16-bit
constant they are the same, and with one the short code is the long code without the two bytes of sign
at its end, under an override. -/

namespace X64Asm

/-! ### Sign extension -/

/-- The two bytes that extend a 16-bit number to 32 bits. -/
def signBytes (v : Int16) : Bytes := if v.toInt < 0 then [0xFF, 0xFF] else [0x00, 0x00]

theorem ofNat_congr {m n : Nat} (h : m % 256 = n % 256) : UInt8.ofNat m = UInt8.ofNat n := by
  apply UInt8.toNat_inj.mp
  rw [UInt8.toNat_ofNat', UInt8.toNat_ofNat']
  exact h

/-- Four bytes of a 16-bit number are its two bytes and two bytes of sign. -/
theorem littleEndianInt_four (v : Int16) :
    Bytes.littleEndianInt 4 v.toInt = Bytes.littleEndianInt 2 v.toInt ++ signBytes v := by
  have hlo : -32768 ≤ v.toInt := v.le_toInt
  have hhi : v.toInt < 32768 := v.toInt_lt
  have hlong : (wordCount (8 * 4) : Int) = 4294967296 := rfl
  have hshort : (wordCount (8 * 2) : Int) = 65536 := rfl
  unfold Bytes.littleEndianInt signBytes
  rw [hlong, hshort]
  generalize v.toInt = n at hlo hhi ⊢
  have hfirst : UInt8.ofNat (n % 4294967296).toNat = UInt8.ofNat (n % 65536).toNat :=
    ofNat_congr (by omega)
  have hsecond : UInt8.ofNat ((n % 4294967296).toNat / 256) =
      UInt8.ofNat ((n % 65536).toNat / 256) := ofNat_congr (by omega)
  simp only [Bytes.littleEndian, hfirst, hsecond, List.cons_append, List.nil_append]
  split
  · have hthird : UInt8.ofNat ((n % 4294967296).toNat / 256 / 256) = UInt8.ofNat 255 :=
      ofNat_congr (by omega)
    have hfourth : UInt8.ofNat ((n % 4294967296).toNat / 256 / 256 / 256) = UInt8.ofNat 255 :=
      ofNat_congr (by omega)
    rw [hthird, hfourth]
    rfl
  · have hthird : UInt8.ofNat ((n % 4294967296).toNat / 256 / 256) = UInt8.ofNat 0 :=
      ofNat_congr (by omega)
    have hfourth : UInt8.ofNat ((n % 4294967296).toNat / 256 / 256 / 256) = UInt8.ofNat 0 :=
      ofNat_congr (by omega)
    rw [hthird, hfourth]
    rfl

/-! ### The constant -/

/-- The constant that is written is the first among the operands, whichever of them is placed
first. -/
theorem Placement.immediate?_of (slots : List Slot) (ops : List Operand) :
    (of slots ops).immediate? ops = ops.findSome? Operand.immediate? := by
  unfold immediate? of
  rcases ops with _ | ⟨a, _ | ⟨b, ops⟩⟩
  · rfl
  · rfl
  · cases b with
    | register r => rfl
    | immediate imm => rfl
    | memory address => simp [Operand.isMemory, List.findSome?_cons, Operand.immediate?]

theorem Placement.immediate?_eq_some {slots : List Slot} {ops : List Operand} {imm : Immediate}
    (hone : constantCount ops ≤ 1) (h : .immediate imm ∈ ops) :
    (of slots ops).immediate? ops = some imm := by
  cases hfound : (of slots ops).immediate? ops with
  | none =>
      rw [immediate?_of] at hfound
      cases List.findSome?_eq_none_iff.mp hfound _ h
  | some imm' => rw [eq_of_constantCount_le_one hone h (mem_of_immediate? hfound)]

theorem needsOverride_fourBytes (ops : List Operand) : needsOverride .fourBytes ops = false := rfl

theorem needsOverride_of_mem {ops : List Operand} {v : Int16} (h : .immediate (.imm16 v) ∈ ops) :
    needsOverride .twoBytes ops = true := by
  rw [needsOverride, decide_eq_true rfl, Bool.true_and, List.any_eq_true]
  exact ⟨_, h, rfl⟩

theorem needsOverride_of_notMem {ops : List Operand}
    (h : ∀ v, .immediate (.imm16 v) ∉ ops) (layout : Imm16Layout) :
    needsOverride layout ops = false := by
  rw [needsOverride, Bool.and_eq_false_iff]
  refine .inr (List.any_eq_false.mpr fun op hop => ?_)
  rcases op with r | a | (v | v | v | v)
  · simp [Operand.immediate?]
  · simp [Operand.immediate?]
  · simp [Operand.immediate?, Immediate.width]
  · exact absurd hop (h v)
  · simp [Operand.immediate?, Immediate.width]
  · simp [Operand.immediate?, Immediate.width]

/-- Only a 16-bit constant has two layouts. -/
theorem constantBytes_congr {slots : List Slot} {ops : List Operand}
    (h : ∀ v, .immediate (.imm16 v) ∉ ops) (layout other : Imm16Layout) :
    constantBytes layout ((Placement.of slots ops).immediate? ops) =
      constantBytes other ((Placement.of slots ops).immediate? ops) := by
  cases hfound : (Placement.of slots ops).immediate? ops with
  | none => rfl
  | some imm =>
      cases imm with
      | imm8 v => rfl
      | imm16 v => exact absurd (Placement.mem_of_immediate? hfound) (h v)
      | imm32 v => rfl
      | imm64 v => rfl

/-! ### The two codes -/

namespace Form

variable {form : Form} {row : Decoder.OpcodeRow} {ops : List Operand} {long : Bytes}

/-- Behind the overrides stands a byte that is none. -/
theorem head?_behind_override (hrow : form.opcodeAgrees row = true) {place : Placement}
    {code : Bytes} (hcode : opcodeBytes [form.opcodeByte] form.registerInOpcode place = .ok code)
    (wide reg rm : Bool) (rest : Bytes) :
    ((if wide || reg || rm then [extensionByte wide reg rm] else []) ++ code ++ rest).head? ≠
      some sizeOverride := by
  obtain ⟨opcode, tail, rfl, hplain, _⟩ := opcodeBytes_head hrow hcode
  split
  · simp [extensionByte_ne_sizeOverride]
  · simp [hplain.1]

theorem bytes_twoBytes_of_noWord
    (hopcode : form.opcode = (if form.overridden then [sizeOverride] else []) ++ [form.opcodeByte])
    (hplain : form.opcodeByte ≠ sizeOverride) (h : ∀ v, .immediate (.imm16 v) ∉ ops)
    (hlong : form.bytes .fourBytes ops = .ok long) : form.bytes .twoBytes ops = .ok long := by
  obtain ⟨reg, rm, code, hreg, hrm, hcode, rfl⟩ := (bytes_eq_ok_iff hopcode hplain).mp hlong
  refine (bytes_eq_ok_iff hopcode hplain).mpr ⟨reg, rm, code, hreg, hrm, hcode, ?_⟩
  rw [needsOverride_of_notMem h, needsOverride_of_notMem h, constantBytes_congr h]

/-- With a 16-bit constant, the long code ends in the constant and its sign, and the short code is
the long one without the sign, under an override. -/
theorem bytes_twoBytes_of_word {v : Int16}
    (hopcode : form.opcode = (if form.overridden then [sizeOverride] else []) ++ [form.opcodeByte])
    (hrow : form.opcodeAgrees row = true) (hone : constantCount ops ≤ 1)
    (h : .immediate (.imm16 v) ∈ ops) (hlong : form.bytes .fourBytes ops = .ok long) :
    ∃ front, long = front ++ Bytes.littleEndianInt 2 v.toInt ++ signBytes v ∧
      form.bytes .twoBytes ops = .ok ((if long.head? = some sizeOverride then [] else
        [sizeOverride]) ++ front ++ Bytes.littleEndianInt 2 v.toInt) := by
  have hplain := (plain_opcodeByte hrow).1
  obtain ⟨reg, rm, code, hreg, hrm, hcode, rfl⟩ := (bytes_eq_ok_iff hopcode hplain).mp hlong
  have himm : (Placement.of form.slots ops).immediate? ops = some (.imm16 v) :=
    Placement.immediate?_eq_some hone h
  have hconstant : constantBytes .fourBytes (some (.imm16 v)) =
      Bytes.littleEndianInt 2 v.toInt ++ signBytes v := littleEndianInt_four v
  have hbehind := head?_behind_override hrow hcode form.wide reg rm
    (Bytes.littleEndianInt 2 v.toInt ++ signBytes v)
  rw [← List.append_assoc] at hbehind
  rw [himm, needsOverride_fourBytes, Bool.or_false, hconstant, ← List.append_assoc]
  refine ⟨_, rfl, (bytes_eq_ok_iff hopcode hplain).mpr ⟨reg, rm, code, hreg, hrm, hcode, ?_⟩⟩
  rw [himm, needsOverride_of_mem h, Bool.or_true]
  cases form.overridden with
  | true => simp [constantBytes, Immediate.bytes]
  | false =>
      simp only [Bool.false_eq_true, if_false, List.nil_append, if_neg hbehind]
      simp [constantBytes, Immediate.bytes]

end Form

namespace Instruction

/-- Both layouts fail alike, or both give code.  Without a 16-bit constant the codes are the same.
With one, the short code is the long code without the sign at its end, and begins with an override
of its own if the long code begins with none. -/
theorem encode_layouts (i : Instruction) :
    (∃ f, i.encode .fourBytes = .error f ∧ i.encode .twoBytes = .error f) ∨
    ∃ sel long short, i.select = .ok sel ∧ i.encode .fourBytes = .ok long ∧
      i.encode .twoBytes = .ok short ∧
      ((∀ v, .immediate (.imm16 v) ∉ sel.operands) → short.toList = long.toList) ∧
      ∀ v, .immediate (.imm16 v) ∈ sel.operands → ∃ front,
        long.toList = front ++ Bytes.littleEndianInt 2 v.toInt ++ signBytes v ∧
        short.toList = (if long.toList.head? = some sizeOverride then [] else [sizeOverride]) ++
          front ++ Bytes.littleEndianInt 2 v.toInt := by
  cases hlong : i.encode .fourBytes with
  | error f => exact .inl ⟨f, rfl, encode_error_congr hlong .twoBytes⟩
  | ok long =>
      obtain ⟨sel, hsel, _⟩ := bind_eq_ok.mp hlong
      rw [mapError_eq_ok] at hsel
      obtain ⟨short, hshort⟩ : ∃ short, i.encode .twoBytes = .ok short := by
        cases hshort : i.encode .twoBytes with
        | ok short => exact ⟨short, rfl⟩
        | error f =>
            rw [encode_error_congr hshort .fourBytes] at hlong
            cases hlong
      obtain ⟨haccepts, ⟨earlier, later, hall, _⟩, _⟩ := select_spec hsel
      obtain ⟨row, _, hread⟩ := exists_row hsel
      obtain ⟨hopcode, _, hrow, _⟩ := Form.readAs_iff.mp hread
      have hform : sel.form ∈ Form.all i.mnemonic := by simp [hall]
      have hone := constantCount_le_one hform haccepts (List.forall₂_refl sel.operands)
      have hlongBytes := map_toList_encode hsel .fourBytes
      have hshortBytes := map_toList_encode hsel .twoBytes
      rw [hlong] at hlongBytes
      rw [hshort] at hshortBytes
      refine .inr ⟨sel, long, short, hsel, rfl, hshort, fun hnone => ?_, fun v hv => ?_⟩
      · have hplain := (Form.plain_opcodeByte hrow).1
        have hsame := Form.bytes_twoBytes_of_noWord hopcode hplain hnone hlongBytes.symm
        exact Except.ok.inj (hshortBytes.trans hsame)
      · obtain ⟨front, hfront, hsame⟩ :=
          Form.bytes_twoBytes_of_word hopcode hrow hone hv hlongBytes.symm
        exact ⟨front, hfront, Except.ok.inj (hshortBytes.trans hsame)⟩

/-- `push 1000`: the short code gains an override and loses two zeros. -/
theorem encode_layouts_push :
    ∃ long short, encode ⟨64, "push", [.immediate (.imm16 1000)]⟩ .fourBytes = .ok long ∧
      encode ⟨64, "push", [.immediate (.imm16 1000)]⟩ .twoBytes = .ok short ∧
      long.toList = [0x68, 0xE8, 0x03, 0x00, 0x00] ∧
      short.toList = [0x66, 0x68, 0xE8, 0x03] := by
  have hcode : (encode ⟨64, "push", [.immediate (.imm16 1000)]⟩ .fourBytes).map (·.toList) =
      .ok [0x68, 0xE8, 0x03, 0x00, 0x00] := by
    decide +kernel
  have hselect : select ⟨64, "push", [.immediate (.imm16 1000)]⟩ =
      .ok ⟨{ opcode := [0x68], slots := [Form.imm16] }, [.immediate (.imm16 1000)]⟩ := by
    decide +kernel
  obtain ⟨long, hlong, hbytes⟩ := map_eq_ok.mp hcode
  rcases encode_layouts ⟨64, "push", [.immediate (.imm16 1000)]⟩ with
    ⟨f, hfails, _⟩ | ⟨sel, long', short, hsel, hlong', hshort, _, hword⟩
  · rw [hlong] at hfails
    cases hfails
  · rw [hselect] at hsel
    cases hsel
    rw [hlong] at hlong'
    cases hlong'
    obtain ⟨front, hfront, hshortBytes⟩ := hword 1000 (by simp)
    have hends : [0x68, 0xE8, 0x03, 0x00, 0x00] =
        [0x68] ++ Bytes.littleEndianInt 2 (Int16.toInt 1000) ++ signBytes 1000 := by
      decide +kernel
    rw [hbytes] at hfront hshortBytes
    rw [hends] at hfront
    have hopcode : [0x68] = front :=
      List.append_cancel_right (List.append_cancel_right hfront)
    refine ⟨long, short, hlong, hshort, hbytes, ?_⟩
    rw [hshortBytes, ← hopcode]
    decide +kernel

end Instruction

end X64Asm
