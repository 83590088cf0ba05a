import X64Asm.MachineCode.Encode
import X64Asm.Proofs.Success

/-! # The bytes of an instruction

The encoder writes into a buffer.  Here the same bytes are given as a list, part by part, without a
buffer: `overrideBytes`, `extensionBytes`, `opcodeBytes` with `fieldsBytes` inside it, and
`Immediate.bytes`.  `Form.bytes` puts the parts together.

Each writing step adds the bytes of its part to the buffer (`toList_writeOverrides` and its like), so
an instruction that is encoded has the bytes of its form (`Form.bytes_of_encode`). -/

namespace X64Asm

/-! ### The parts -/

/-- The overrides of the form, or the one that the constant asks for. -/
def overrideBytes (overrides : Bytes) (forced : Bool) : Bytes :=
  if forced && overrides.isEmpty then overrides ++ [sizeOverride] else overrides

/-- The byte of extension bits, if one of them is set. -/
def extensionBytes (wide : Bool) (place : Placement) : Except Failure Bytes := do
  let rm ← extensionBit place.rm
  let reg ← extensionBit place.reg
  pure (if wide || reg || rm then [extensionByte wide reg rm] else [])

/-- The opcode with a register in its last byte. -/
def opcodeRegisterBytes (opcode : Bytes) (rm : Option Nat) : Bytes :=
  match opcode.getLast? with
  | none => []
  | some last => opcode.dropLast ++ [last + UInt8.ofNat (rm.getD 0)]

/-- The displacement that goes with an operand in `rm`. -/
def rmDisplacement (op : Option Operand) (rm : Nat) : Except Failure Bytes :=
  match op with
  | some (.memory (.base _)) => .ok (if rm = 5 then [0] else [])
  | some (.memory (.displacement disp)) => displacementBytes disp
  | _ => .ok []

/-- The register fields and what the address needs beside them. -/
def fieldsBytes (place : Placement) (rm : Nat) : Except Failure Bytes := do
  let reg ← fieldBits place.reg place.regSlot
  let disp ← rmDisplacement place.rm rm
  pure (fieldByte (modeBits place.rm rm) (reg.getD 0) rm ::
    ((sibBase? place.rm rm).map baseByte).toList ++ disp)

/-- The opcode and the operands that stand in registers or memory. -/
def opcodeBytes (opcode : Bytes) (registerInOpcode : Bool) (place : Placement) :
    Except Failure Bytes := do
  let rm ← fieldBits place.rm place.rmSlot
  if registerInOpcode then pure (opcodeRegisterBytes opcode rm)
  else
    match rm with
    | some rm => do
      let fields ← fieldsBytes place rm
      pure (opcode ++ fields)
    | none => pure opcode

/-- A constant. -/
def Immediate.bytes (layout : Imm16Layout) : Immediate → Bytes
  | imm8 v => [v.toUInt8]
  | imm16 v =>
    match layout with
    | .fourBytes => Bytes.littleEndianInt 4 v.toInt
    | .twoBytes => Bytes.littleEndianInt 2 v.toInt
  | imm32 v => Bytes.littleEndianInt 4 v.toInt
  | imm64 v => Bytes.littleEndianInt 8 v.toInt

/-- The constant of the instruction, if there is one. -/
def constantBytes (layout : Imm16Layout) (imm : Option Immediate) : Bytes :=
  (imm.map (Immediate.bytes layout)).getD []

/-- All the bytes of the operands in the given form. -/
def Form.bytes (form : Form) (layout : Imm16Layout) (operands : List Operand) :
    Except Failure Bytes := do
  let place := Placement.of form.slots operands
  let overrides := form.opcode.takeWhile (· == sizeOverride)
  let opcode := form.opcode.dropWhile (· == sizeOverride)
  let extension ← extensionBytes form.wide place
  let code ← opcodeBytes opcode form.registerInOpcode place
  pure (overrideBytes overrides (needsOverride layout operands) ++ extension ++ code ++
    constantBytes layout (place.immediate? operands))

/-! ### The steps of the encoder -/

namespace InstructionBuffer

variable {buf grown : InstructionBuffer} {place : Placement}

theorem toList_writeOverrides {overrides : Bytes} {forced : Bool}
    (h : buf.writeOverrides overrides forced = .ok grown) :
    grown.toList = buf.toList ++ overrideBytes overrides forced := by
  obtain ⟨mid, hmid, h⟩ := bind_eq_ok.mp h
  have e := toList_append hmid
  unfold overrideBytes
  split at h
  · next hforced => rw [if_pos hforced, toList_push h, e, List.append_assoc]
  · next hforced =>
    cases h
    rw [if_neg hforced, e]

theorem toList_writeExtension {wide : Bool} (h : buf.writeExtension wide place = .ok grown) :
    ∃ bytes, extensionBytes wide place = .ok bytes ∧ grown.toList = buf.toList ++ bytes := by
  obtain ⟨rm, hrm, h⟩ := bind_eq_ok.mp h
  obtain ⟨reg, hreg, h⟩ := bind_eq_ok.mp h
  refine ⟨_, bind_eq_ok.mpr ⟨rm, hrm, bind_eq_ok.mpr ⟨reg, hreg, rfl⟩⟩, ?_⟩
  split at h
  · next hset => rw [if_pos hset, toList_push h]
  · next hset =>
    cases h
    rw [if_neg hset, List.append_nil]

theorem toList_writeOpcodeRegister {opcode : Bytes} {rm : Option Nat}
    (h : buf.writeOpcodeRegister opcode rm = .ok grown) :
    grown.toList = buf.toList ++ opcodeRegisterBytes opcode rm := by
  cases hlast : opcode.getLast? with
  | none =>
      simp only [writeOpcodeRegister, hlast] at h
      cases h
      simp [opcodeRegisterBytes, hlast]
  | some last =>
      simp only [writeOpcodeRegister, hlast] at h
      obtain ⟨mid, hmid, h⟩ := bind_eq_ok.mp h
      simp only [opcodeRegisterBytes, hlast]
      rw [toList_push h, toList_append hmid, List.append_assoc]

theorem toList_writeDisplacement {op : Option Operand} {rm : Nat}
    (h : buf.writeDisplacement op rm = .ok grown) :
    ∃ bytes, rmDisplacement op rm = .ok bytes ∧ grown.toList = buf.toList ++ bytes := by
  rcases op with _ | r | ⟨r | disp⟩ | imm
  · cases h
    exact ⟨[], rfl, (List.append_nil _).symm⟩
  · cases h
    exact ⟨[], rfl, (List.append_nil _).symm⟩
  · refine ⟨_, rfl, ?_⟩
    simp only [writeDisplacement] at h
    by_cases h5 : rm = 5
    · rw [if_pos h5] at h ⊢
      rw [toList_push h]
    · rw [if_neg h5] at h ⊢
      cases h
      exact (List.append_nil _).symm
  · obtain ⟨bytes, hbytes, h⟩ := bind_eq_ok.mp h
    exact ⟨bytes, hbytes, toList_append h⟩
  · cases h
    exact ⟨[], rfl, (List.append_nil _).symm⟩

theorem toList_writeFields {rm : Nat} (h : buf.writeFields place rm = .ok grown) :
    ∃ bytes, fieldsBytes place rm = .ok bytes ∧ grown.toList = buf.toList ++ bytes := by
  obtain ⟨reg, hreg, h⟩ := bind_eq_ok.mp h
  obtain ⟨first, hfirst, h⟩ := bind_eq_ok.mp h
  have e1 := toList_push hfirst
  obtain ⟨second, e2, h⟩ : ∃ second : InstructionBuffer,
      second.toList = first.toList ++ ((sibBase? place.rm rm).map baseByte).toList ∧
        second.writeDisplacement place.rm rm = .ok grown := by
    cases hsib : sibBase? place.rm rm with
    | none =>
        simp only [hsib] at h
        exact ⟨first, (List.append_nil _).symm, h⟩
    | some base =>
        simp only [hsib] at h
        obtain ⟨second, hsecond, h⟩ := bind_eq_ok.mp h
        exact ⟨second, toList_push hsecond, h⟩
  obtain ⟨disp, hdisp, e3⟩ := toList_writeDisplacement h
  refine ⟨_, bind_eq_ok.mpr ⟨reg, hreg, bind_eq_ok.mpr ⟨disp, hdisp, rfl⟩⟩, ?_⟩
  rw [e3, e2, e1]
  simp

theorem toList_writeOpcode {opcode : Bytes} {registerInOpcode : Bool}
    (h : buf.writeOpcode opcode registerInOpcode place = .ok grown) :
    ∃ bytes, opcodeBytes opcode registerInOpcode place = .ok bytes ∧
      grown.toList = buf.toList ++ bytes := by
  obtain ⟨rm, hrm, h⟩ := bind_eq_ok.mp h
  cases registerInOpcode with
  | true => exact ⟨_, bind_eq_ok.mpr ⟨rm, hrm, rfl⟩, toList_writeOpcodeRegister h⟩
  | false =>
      obtain ⟨mid, hmid, h⟩ := bind_eq_ok.mp h
      cases rm with
      | none =>
          cases h
          exact ⟨opcode, bind_eq_ok.mpr ⟨none, hrm, rfl⟩, toList_append hmid⟩
      | some rm =>
          obtain ⟨fields, hfields, e⟩ := toList_writeFields h
          refine ⟨opcode ++ fields, ?_, ?_⟩
          · exact bind_eq_ok.mpr ⟨some rm, hrm, bind_eq_ok.mpr ⟨fields, hfields, rfl⟩⟩
          · rw [e, toList_append hmid, List.append_assoc]

theorem toList_writeImmediate {layout : Imm16Layout} {imm : Immediate}
    (h : buf.writeImmediate layout imm = .ok grown) :
    grown.toList = buf.toList ++ imm.bytes layout := by
  cases imm with
  | imm8 v => exact toList_push h
  | imm16 v =>
      cases layout with
      | fourBytes => exact toList_append h
      | twoBytes => exact toList_append h
  | imm32 v => exact toList_append h
  | imm64 v => exact toList_append h

end InstructionBuffer

/-! ### The whole instruction -/

open InstructionBuffer in
/-- What is encoded in a form are the bytes of the form. -/
theorem Form.bytes_of_encode {form : Form} {layout : Imm16Layout} {operands : List Operand}
    {buf : InstructionBuffer} (h : form.encode layout operands = .ok buf) :
    form.bytes layout operands = .ok buf.toList := by
  obtain ⟨buf1, h1, h⟩ := bind_eq_ok.mp h
  obtain ⟨buf2, h2, h⟩ := bind_eq_ok.mp h
  obtain ⟨buf3, h3, h⟩ := bind_eq_ok.mp h
  have e1 := toList_writeOverrides h1
  obtain ⟨extension, hextension, e2⟩ := toList_writeExtension h2
  obtain ⟨code, hcode, e3⟩ := toList_writeOpcode h3
  refine bind_eq_ok.mpr ⟨extension, hextension, bind_eq_ok.mpr ⟨code, hcode, ?_⟩⟩
  have e4 : buf.toList = buf3.toList ++
      constantBytes layout ((Placement.of form.slots operands).immediate? operands) := by
    split at h
    · next imm himm => rw [himm, toList_writeImmediate h]; rfl
    · next himm =>
      cases h
      rw [himm]
      exact (List.append_nil _).symm
  rw [e4, e3, e2, e1, toList_empty]
  rfl

end X64Asm
