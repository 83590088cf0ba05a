import X64Asm.Proofs.EncodingOutcome
import X64Asm.Proofs.SameCode

/-! # Why encoding fails

What is wrong with the operands of an instruction comes out when its bytes are listed part by part,
as it does when they are written into the buffer (`Form.bytes_of_malformed`).  So an instruction fails
for its operands just if its bytes do.

The bytes need the number of each register and four bytes for a displacement.  Operands that have
these are `Encodable`, and all that can be written down in a program are (`Operand.Written.encodable`):
an instruction of a program is encoded unless it has no form (`Instruction.Written.encode_cases`). -/

namespace X64Asm

/-! ### Failures of the parts -/

namespace InstructionBuffer

variable {buf : InstructionBuffer} {place : Placement} {f : Failure}

theorem not_malformed_push {byte : UInt8} (h : buf.push byte = .error f) : ¬ f.Malformed := by
  unfold push at h
  split at h
  · cases h
  · cases h
    exact id

theorem not_malformed_append {bytes : Bytes} (h : buf.append bytes = .error f) :
    ¬ f.Malformed := by
  unfold append at h
  split at h
  · cases h
  · cases h
    exact id

theorem not_malformed_writeOverrides {overrides : Bytes} {forced : Bool}
    (h : buf.writeOverrides overrides forced = .error f) : ¬ f.Malformed := by
  rcases bind_eq_error.mp h with happend | ⟨mid, _, h⟩
  · exact not_malformed_append happend
  · split at h
    · exact not_malformed_push h
    · cases h

theorem not_malformed_writeOpcodeRegister {opcode : Bytes} {rm : Option Nat}
    (h : buf.writeOpcodeRegister opcode rm = .error f) : ¬ f.Malformed := by
  unfold writeOpcodeRegister at h
  split at h
  · cases h
  · rcases bind_eq_error.mp h with happend | ⟨mid, _, hpush⟩
    · exact not_malformed_append happend
    · exact not_malformed_push hpush

theorem not_malformed_writeImmediate {layout : Imm16Layout} {imm : Immediate}
    (h : buf.writeImmediate layout imm = .error f) : ¬ f.Malformed := by
  cases imm with
  | imm8 v => exact not_malformed_push h
  | imm16 v =>
      cases layout with
      | fourBytes => exact not_malformed_append h
      | twoBytes => exact not_malformed_append h
  | imm32 v => exact not_malformed_append h
  | imm64 v => exact not_malformed_append h

theorem extensionBytes_of_malformed {wide : Bool} (h : buf.writeExtension wide place = .error f)
    (hf : f.Malformed) : extensionBytes wide place = .error f := by
  rcases bind_eq_error.mp h with hrm | ⟨rm, hrm, h⟩
  · exact bind_eq_error.mpr (.inl hrm)
  rcases bind_eq_error.mp h with hreg | ⟨reg, hreg, h⟩
  · exact bind_eq_error.mpr (.inr ⟨rm, hrm, bind_eq_error.mpr (.inl hreg)⟩)
  split at h
  · exact absurd hf (not_malformed_push h)
  · cases h

theorem rmDisplacement_of_malformed {op : Option Operand} {rm : Nat}
    (h : buf.writeDisplacement op rm = .error f) (hf : f.Malformed) :
    rmDisplacement op rm = .error f := by
  rcases op with _ | r | ⟨r | disp⟩ | imm
  · cases h
  · cases h
  · simp only [writeDisplacement] at h
    split at h
    · exact absurd hf (not_malformed_push h)
    · cases h
  · rcases bind_eq_error.mp h with hdisp | ⟨bytes, _, happend⟩
    · exact hdisp
    · exact absurd hf (not_malformed_append happend)
  · cases h

theorem fieldsBytes_of_malformed {rm : Nat} (h : buf.writeFields place rm = .error f)
    (hf : f.Malformed) : fieldsBytes place rm = .error f := by
  rcases bind_eq_error.mp h with hreg | ⟨reg, hreg, h⟩
  · exact bind_eq_error.mpr (.inl hreg)
  rcases bind_eq_error.mp h with hpush | ⟨first, _, h⟩
  · exact absurd hf (not_malformed_push hpush)
  obtain ⟨second, h⟩ : ∃ second, writeDisplacement second place.rm rm = .error f := by
    cases hsib : sibBase? place.rm rm with
    | none =>
        simp only [hsib] at h
        exact ⟨first, h⟩
    | some base =>
        simp only [hsib] at h
        rcases bind_eq_error.mp h with hpush | ⟨second, _, h⟩
        · exact absurd hf (not_malformed_push hpush)
        · exact ⟨second, h⟩
  have hdisp := rmDisplacement_of_malformed h hf
  exact bind_eq_error.mpr (.inr ⟨reg, hreg, bind_eq_error.mpr (.inl hdisp)⟩)

theorem opcodeBytes_of_malformed {opcode : Bytes} {registerInOpcode : Bool}
    (h : buf.writeOpcode opcode registerInOpcode place = .error f) (hf : f.Malformed) :
    opcodeBytes opcode registerInOpcode place = .error f := by
  rcases bind_eq_error.mp h with hrm | ⟨rm, hrm, h⟩
  · exact bind_eq_error.mpr (.inl hrm)
  refine bind_eq_error.mpr (.inr ⟨rm, hrm, ?_⟩)
  cases registerInOpcode with
  | true => exact absurd hf (not_malformed_writeOpcodeRegister h)
  | false =>
      rcases bind_eq_error.mp h with happend | ⟨mid, _, h⟩
      · exact absurd hf (not_malformed_append happend)
      cases rm with
      | none => cases h
      | some rm => exact bind_eq_error.mpr (.inl (fieldsBytes_of_malformed h hf))

end InstructionBuffer

open InstructionBuffer in
/-- What is wrong with the operands is found out from the bytes alone. -/
theorem Form.bytes_of_malformed {form : Form} {layout : Imm16Layout} {operands : List Operand}
    {f : Failure} (h : form.encode layout operands = .error f) (hf : f.Malformed) :
    form.bytes layout operands = .error f := by
  rcases bind_eq_error.mp h with hoverrides | ⟨_, _, h⟩
  · exact absurd hf (not_malformed_writeOverrides hoverrides)
  rcases bind_eq_error.mp h with hextension | ⟨buf, hextension, h⟩
  · exact bind_eq_error.mpr (.inl (extensionBytes_of_malformed hextension hf))
  obtain ⟨extension, hextension, _⟩ := toList_writeExtension hextension
  refine bind_eq_error.mpr (.inr ⟨extension, hextension, ?_⟩)
  rcases bind_eq_error.mp h with hcode | ⟨_, _, h⟩
  · exact bind_eq_error.mpr (.inl (opcodeBytes_of_malformed hcode hf))
  split at h
  · exact absurd hf (not_malformed_writeImmediate h)
  · cases h

/-- A form with a short opcode is written into the buffer byte for byte, and fails as its bytes do. -/
theorem Form.map_toList_encode (form : Form) (layout : Imm16Layout) (ops : List Operand)
    (h : form.opcode.length ≤ 8) :
    (form.encode layout ops).map (·.toList) = form.bytes layout ops := by
  cases hencode : form.encode layout ops with
  | ok buf => exact (bytes_of_encode hencode).symm
  | error f => exact (bytes_of_malformed hencode (form.fails_malformed layout ops h f hencode)).symm

/-- A selected instruction is written byte for byte, and fails as its bytes do. -/
theorem Instruction.map_toList_encode {i : Instruction} {sel : Selection}
    (h : i.select = .ok sel) (layout : Imm16Layout) :
    (i.encode layout).map (·.toList) = sel.form.bytes layout sel.operands := by
  obtain ⟨entry, hentry, _, earlier, later, hall, _⟩ := form_mem_table h
  obtain ⟨_, _, hopcode, _⟩ := table_longest entry hentry sel.form (by simp [hall])
  rw [encode_of_select h, Form.map_toList_encode _ _ _ hopcode]

/-- The layout of constants has no part in what is wrong with the operands. -/
theorem Form.bytes_error_congr {form : Form} {layout : Imm16Layout} {ops : List Operand}
    {f : Failure} (h : form.bytes layout ops = .error f) (other : Imm16Layout) :
    form.bytes other ops = .error f := by
  rcases bind_eq_error.mp h with hextension | ⟨extension, hextension, h⟩
  · exact bind_eq_error.mpr (.inl hextension)
  · rcases bind_eq_error.mp h with hcode | ⟨code, _, h⟩
    · exact bind_eq_error.mpr (.inr ⟨extension, hextension, bind_eq_error.mpr (.inl hcode)⟩)
    · cases h

theorem Instruction.encode_error_congr {i : Instruction} {layout : Imm16Layout} {f : Failure}
    (h : i.encode layout = .error f) (other : Imm16Layout) : i.encode other = .error f := by
  cases hselect : i.select with
  | error d => rw [encode_of_noForm hselect other, ← encode_of_noForm hselect layout, h]
  | ok sel =>
      rw [← map_eq_error, map_toList_encode hselect] at h ⊢
      exact Form.bytes_error_congr h other

/-! ### Operands that can be encoded -/

namespace Operand

/-- The register of the operand has a number, and its displacement takes four bytes at most. -/
structure Encodable (op : Operand) : Prop where
  number : ∀ r, op.base? = some r → ∃ n, r.number = .ok n
  displacement : ∀ disp, op = .memory (.displacement disp) → FitsSigned 32 disp.value

variable {op : Operand}

theorem Encodable.of_widens {wider : Operand} (h : op.Encodable) (hwidens : op.Widens wider) :
    wider.Encodable := by
  cases hwidens with
  | refl => exact h
  | constant =>
      constructor
      · intro r hr
        cases hr
      · intro disp hdisp
        cases hdisp

theorem Encodable.forall_of_widens {ops wider : List Operand} (h : ∀ op ∈ ops, op.Encodable)
    (hwidens : List.Forall₂ Widens ops wider) : ∀ op ∈ wider, op.Encodable := by
  induction hwidens with
  | nil => exact h
  | cons hop _ ih =>
      rw [List.forall_mem_cons] at h ⊢
      exact ⟨h.1.of_widens hop, ih h.2⟩

theorem Written.encodable (h : op.Written) : op.Encodable := by
  have hnumber : ∀ {text : String} {r : Register}, Register.parse? text = some r →
      ∃ n, r.number = .ok n := by
    intro text r hnamed
    obtain ⟨code, hcode, rfl⟩ := Option.map_eq_some_iff.mp hnamed
    refine ⟨code.number, ?_⟩
    unfold Register.number
    rw [hcode]
  constructor
  · intro r hr
    cases h with
    | register named =>
        cases hr
        exact hnumber named
    | base named =>
        cases hr
        exact hnumber named
    | displacement value => cases hr
    | constant value => cases hr
  · intro disp hdisp
    cases h with
    | register named => cases hdisp
    | base named => cases hdisp
    | displacement value =>
        cases hdisp
        exact (Immediate.imm32 value).fits_width
    | constant value => cases hdisp

end Operand

section parts

variable {op : Option Operand} (h : ∀ o ∈ op, o.Encodable)

include h

theorem exists_extensionBit : ∃ bit, extensionBit op = .ok bit := by
  unfold extensionBit
  cases hbase : op.bind Operand.base? with
  | none => exact ⟨false, rfl⟩
  | some r =>
      obtain ⟨o, ho, hr⟩ := Option.bind_eq_some_iff.mp hbase
      obtain ⟨n, hn⟩ := (h o ho).number r hr
      exact ⟨_, map_eq_ok.mpr ⟨n, numberOrFail_eq_ok.mpr hn, rfl⟩⟩

theorem exists_fieldBits (slot : Option Slot) : ∃ bits, fieldBits op slot = .ok bits := by
  rcases op with _ | r | ⟨r | disp⟩ | imm
  · exact ⟨none, rfl⟩
  · obtain ⟨n, hn⟩ := (h _ rfl).number r rfl
    by_cases hfixed : slot.any Slot.isFixed = true
    · exact ⟨none, if_pos hfixed⟩
    · refine ⟨some n.lowBits, (if_neg hfixed).trans ?_⟩
      exact map_eq_ok.mpr ⟨n, numberOrFail_eq_ok.mpr hn, rfl⟩
  · obtain ⟨n, hn⟩ := (h _ rfl).number r rfl
    exact ⟨_, map_eq_ok.mpr ⟨n, numberOrFail_eq_ok.mpr hn, rfl⟩⟩
  · exact ⟨some 4, rfl⟩
  · exact ⟨none, rfl⟩

theorem exists_rmDisplacement (rm : Nat) : ∃ bytes, rmDisplacement op rm = .ok bytes := by
  rcases op with _ | r | ⟨r | disp⟩ | imm
  · exact ⟨[], rfl⟩
  · exact ⟨[], rfl⟩
  · exact ⟨_, rfl⟩
  · exact ⟨_, if_pos ((h _ rfl).displacement disp rfl)⟩
  · exact ⟨[], rfl⟩

end parts

section placed

variable {place : Placement} (hrm : ∀ o ∈ place.rm, o.Encodable)
  (hreg : ∀ o ∈ place.reg, o.Encodable)

include hrm hreg

theorem exists_extensionBytes (wide : Bool) : ∃ bytes, extensionBytes wide place = .ok bytes := by
  obtain ⟨rm, hrmBit⟩ := exists_extensionBit hrm
  obtain ⟨reg, hregBit⟩ := exists_extensionBit hreg
  exact ⟨_, bind_eq_ok.mpr ⟨rm, hrmBit, bind_eq_ok.mpr ⟨reg, hregBit, rfl⟩⟩⟩

theorem exists_fieldsBytes (rm : Nat) : ∃ bytes, fieldsBytes place rm = .ok bytes := by
  obtain ⟨reg, hfield⟩ := exists_fieldBits hreg place.regSlot
  obtain ⟨disp, hdisp⟩ := exists_rmDisplacement hrm rm
  exact ⟨_, bind_eq_ok.mpr ⟨reg, hfield, bind_eq_ok.mpr ⟨disp, hdisp, rfl⟩⟩⟩

theorem exists_opcodeBytes (opcode : Bytes) (registerInOpcode : Bool) :
    ∃ bytes, opcodeBytes opcode registerInOpcode place = .ok bytes := by
  obtain ⟨rm, hfield⟩ := exists_fieldBits hrm place.rmSlot
  cases registerInOpcode with
  | true => exact ⟨_, bind_eq_ok.mpr ⟨rm, hfield, rfl⟩⟩
  | false =>
      cases rm with
      | none => exact ⟨opcode, bind_eq_ok.mpr ⟨none, hfield, rfl⟩⟩
      | some rm =>
          obtain ⟨fields, hfields⟩ := exists_fieldsBytes hrm hreg rm
          refine ⟨opcode ++ fields, bind_eq_ok.mpr ⟨some rm, hfield, ?_⟩⟩
          exact bind_eq_ok.mpr ⟨fields, hfields, rfl⟩

end placed

/-- Encodable operands have bytes in every form, whether or not it accepts them. -/
theorem Form.exists_bytes (form : Form) (layout : Imm16Layout) {ops : List Operand}
    (h : ∀ op ∈ ops, op.Encodable) : ∃ bytes, form.bytes layout ops = .ok bytes := by
  have hrm : ∀ o ∈ (Placement.of form.slots ops).rm, o.Encodable :=
    fun o ho => h o (Placement.mem_of (.inl ho))
  have hreg : ∀ o ∈ (Placement.of form.slots ops).reg, o.Encodable :=
    fun o ho => h o (Placement.mem_of (.inr ho))
  obtain ⟨extension, hextension⟩ := exists_extensionBytes hrm hreg form.wide
  obtain ⟨code, hcode⟩ := exists_opcodeBytes hrm hreg
    (form.opcode.dropWhile (· == sizeOverride)) form.registerInOpcode
  exact ⟨_, bind_eq_ok.mpr ⟨extension, hextension, bind_eq_ok.mpr ⟨code, hcode, rfl⟩⟩⟩

/-! ### Instructions of a program -/

namespace Instruction

variable {i : Instruction} {layout : Imm16Layout}

/-- An instruction fails for its operands only if one of them cannot be encoded. -/
theorem not_malformed_encode (h : ∀ op ∈ i.operands, op.Encodable) {f : Failure}
    (hf : i.encode layout = .error f) : ¬ f.Malformed := by
  intro hmalformed
  rcases bind_eq_error.mp hf with hselect | ⟨sel, hselect, hform⟩
  · obtain ⟨d, hd, rfl⟩ := mapError_eq_error.mp hselect
    obtain rfl := eq_noEncoding_of_select hd
    cases hmalformed
  · obtain ⟨_, _, hwidens⟩ := select_spec (mapError_eq_ok.mp hselect)
    have hencodable := Operand.Encodable.forall_of_widens h hwidens
    obtain ⟨bytes, hbytes⟩ := sel.form.exists_bytes layout hencodable
    exact nomatch hbytes.symm.trans (Form.bytes_of_malformed hform hmalformed)

/-- An instruction of a program is encoded, unless it has no form. -/
theorem Written.encode_cases (h : i.Written) (layout : Imm16Layout) :
    i.encode layout = .error (.diagnostic (.noEncoding i.render)) ∨
      ∃ buf, i.encode layout = .ok buf := by
  rcases i.encode_outcome layout with hform | ⟨f, hf, hmalformed⟩ | ⟨buf, hbuf, _⟩
  · exact .inl hform
  · have hencodable : ∀ op ∈ i.operands, op.Encodable := fun op hop => (h op hop).encodable
    exact absurd hmalformed (not_malformed_encode hencodable hf)
  · exact .inr ⟨buf, hbuf⟩

end Instruction

end X64Asm
