import Mathlib.Data.List.TakeWhile
import X64Asm.Proofs.ConstantLayouts
import X64Asm.Proofs.OperandFaults

/-! # The parts of an instruction

`Decoder.cut` divides the bytes of an instruction the way the machine does, from what it finds in
them: the overrides, the byte of extension bits, the opcode, the register fields with the
scale-index-base byte and the displacement behind them, and the rest.

`Instruction.encode_parts` says of the code of an instruction, cut in this way, that each part is
there just if the form or an operand needs it (`Parts.AsNeeded`).

* The parts do not run into each other: an opcode is never taken for a prefix, also with a register
  in it (`cut_prefixes`), and the fields end where the machine takes them to end
  (`cutFields_fieldsBytes`).
* Where the fields are missing is seen from the form (`Form.arranged`). -/

namespace X64Asm

open Decoder

/-! ### Cutting code into parts -/

namespace Decoder

/-- Whether a byte of register fields follows the opcode. -/
def Pattern.hasFields : Pattern → Bool
  | fieldsRegister | registerFields | fieldsConstant => true
  | accumulatorConstant | opcodeRegister | opcodeRegisterConstant | constant => false

/-- A byte of register fields, and what the address needs behind it. -/
structure Fields where
  byte : UInt8
  sib : Option UInt8
  displacement : Bytes
  deriving DecidableEq, Repr

namespace Fields

def mode (f : Fields) : Nat := f.byte.toNat / 64

def reg (f : Fields) : Nat := f.byte.toNat / 8 % 8

def rm (f : Fields) : Nat := f.byte.toNat % 8

def bytes (f : Fields) : Bytes := f.byte :: (f.sib.toList ++ f.displacement)

end Fields

/-- An instruction, part by part. -/
structure Parts where
  /-- The number of operand-size overrides. -/
  overrides : Nat
  extension : Option UInt8
  opcode : UInt8
  fields : Option Fields
  /-- What is left. -/
  constant : Bytes
  deriving DecidableEq, Repr

def Parts.bytes (p : Parts) : Bytes :=
  List.replicate p.overrides sizeOverride ++ (p.extension.toList ++
    p.opcode :: ((p.fields.map Fields.bytes).getD [] ++ p.constant))

/-- Cuts off the register fields. -/
def cutFields (ext : Extension) : Bytes → Option (Fields × Bytes)
  | [] => none
  | byte :: bytes =>
    let mode := byte.toNat / 64
    let rm := byte.toNat % 8
    if mode = 3 then some (⟨byte, none, []⟩, bytes)
    else do
      let (base, _, rest) ← readBase ext mode rm bytes
      let count := displacementCount mode base
      if rest.length < count then none
      else some (⟨byte, if rm = 4 then bytes.head? else none, rest.take count⟩, rest.drop count)

/-- Cuts off the register fields if the opcode asks for them. -/
def cutOperands (pattern : Pattern) (ext : Extension) (bytes : Bytes) :
    Option (Option Fields × Bytes) :=
  if pattern.hasFields then (cutFields ext bytes).map fun (fields, rest) => (some fields, rest)
  else some (none, bytes)

/-- Cuts one instruction into its parts. -/
def cut (bytes : Bytes) : Option Parts :=
  let behind := bytes.dropWhile (· = sizeOverride)
  let (ext, code) := readExtension behind
  match code with
  | [] => none
  | opcode :: operands => do
    let row ← opcodeRow? opcode
    let (fields, constant) ← cutOperands row.pattern ext operands
    some {
      overrides := (bytes.takeWhile (· = sizeOverride)).length
      extension := behind.head?.filter isExtension
      opcode, fields, constant }

/-! ### Nothing is lost -/

theorem bytes_of_readBase {ext : Extension} {mode rm : Nat} {bytes rest : Bytes} {base : Base}
    {index : Option (Register.Number × Nat)}
    (h : readBase ext mode rm bytes = some (base, index, rest)) :
    (if rm = 4 then bytes.head? else none).toList ++ rest = bytes := by
  unfold readBase at h
  split at h
  · next hrm =>
    cases bytes with
    | nil => cases h
    | cons sib bytes =>
        cases h
        simp [hrm]
  · next hrm =>
    split at h
    · cases h
      simp [hrm]
    · cases h
      simp [hrm]

theorem bytes_of_cutFields {ext : Extension} {bytes rest : Bytes} {f : Fields}
    (h : cutFields ext bytes = some (f, rest)) : f.bytes ++ rest = bytes := by
  cases bytes with
  | nil => cases h
  | cons byte bytes =>
      simp only [cutFields] at h
      split at h
      · cases h
        simp [Fields.bytes]
      · obtain ⟨⟨base, index, behind⟩, hbase, h⟩ := Option.bind_eq_some_iff.mp h
        split at h
        · cases h
        · cases h
          have hbytes := bytes_of_readBase hbase
          simp only [Fields.bytes, List.cons_append, List.append_assoc, List.take_append_drop]
          rw [hbytes]

theorem bytes_of_cutOperands {pattern : Pattern} {ext : Extension} {bytes rest : Bytes}
    {fields : Option Fields} (h : cutOperands pattern ext bytes = some (fields, rest)) :
    (fields.map Fields.bytes).getD [] ++ rest = bytes := by
  unfold cutOperands at h
  split at h
  · obtain ⟨⟨f, behind⟩, hfields, h⟩ := Option.map_eq_some_iff.mp h
    cases h
    exact bytes_of_cutFields hfields
  · cases h
    rfl

theorem bytes_of_readExtension {bytes rest : Bytes} {ext : Extension}
    (h : readExtension bytes = (ext, rest)) :
    (bytes.head?.filter isExtension).toList ++ rest = bytes := by
  cases bytes with
  | nil =>
      cases h
      rfl
  | cons byte bytes =>
      simp only [readExtension] at h
      split at h
      · next hext =>
        cases h
        simp [Option.filter, hext]
      · next hext =>
        cases h
        simp [Option.filter, hext]

/-- The parts in their order are the code. -/
theorem bytes_of_cut {bytes : Bytes} {p : Parts} (h : cut bytes = some p) : p.bytes = bytes := by
  cases hext : readExtension (bytes.dropWhile (· = sizeOverride)) with
  | mk ext code =>
      simp only [cut, hext] at h
      cases code with
      | nil => cases h
      | cons opcode operands =>
          obtain ⟨row, _, h⟩ := Option.bind_eq_some_iff.mp h
          obtain ⟨⟨fields, constant⟩, hoperands, h⟩ := Option.bind_eq_some_iff.mp h
          cases h
          have hoverrides : List.replicate (bytes.takeWhile (· = sizeOverride)).length sizeOverride =
              bytes.takeWhile (· = sizeOverride) := by
            refine (List.eq_replicate_of_mem fun byte hbyte => ?_).symm
            simpa using List.mem_takeWhile_imp hbyte
          simp only [Parts.bytes, hoverrides, bytes_of_cutOperands hoperands,
            bytes_of_readExtension hext, List.takeWhile_append_dropWhile]

end Decoder

/-! ### The operands of each part -/

/-- The number of the register that the operand mentions. -/
def Operand.number? (op : Operand) : Option Register.Number :=
  op.base?.bind fun r => r.number.toOption

/-- Whether the operand mentions a register above 7. -/
def Operand.isExtended (op : Operand) : Bool := op.number?.any fun n => 8 ≤ n.val

/-- The three bits that stand for the operand in a field.  An address without a base has the bits of
the scale-index-base byte. -/
def Operand.fieldBits? : Operand → Option Nat
  | memory (.displacement _) => some 4
  | op => op.number?.map fun n => n.val % 8

/-- The low bits of the base. -/
def Address.baseBits? : Address → Option Nat
  | base r => r.number.toOption.map fun n => n.val % 8
  | displacement _ => none

/-- Forms without register fields: those with a register in the opcode, those for one register by
name, and those of constants alone. -/
def Form.Fieldless (form : Form) : Prop :=
  form.registerInOpcode = true ∨ (∃ slot ∈ form.slots, slot.isFixed = true) ∨
    ∀ slot ∈ form.slots, slot.kind = .immediate

/-- The bits of one operand stand in `rm` or in the opcode, those of the other in `reg`. -/
structure HoldsBits (opcode : UInt8) (fields : Option Fields) (form : Form)
    (rm reg : Option Nat) : Prop where
  opcode_plain : form.registerInOpcode = false → opcode = form.opcodeByte
  opcode_register : form.registerInOpcode = true →
    ∃ bits, rm = some bits ∧ opcode = form.opcodeByte + UInt8.ofNat bits
  fields_none : fields = none ↔ form.Fieldless
  fields_rm : ∀ f ∈ fields, rm = some f.rm
  fields_reg : ∀ f ∈ fields, f.reg = reg.getD 0

/-- What stands behind the fields is what the address needs. -/
structure Addressing (fields : Option Fields) (accessed : Address → Prop) : Prop where
  /-- A scale-index-base byte is there for an address without a base and for a base of low bits 4,
  and each of the two has its own. -/
  sib : ∀ byte ∈ fields.bind Fields.sib, byte = 0x25 ∨ byte = 0x24
  sib_displacement : fields.bind Fields.sib = some 0x25 ↔ ∃ disp, accessed (.displacement disp)
  sib_base : fields.bind Fields.sib = some 0x24 ↔ ∃ a, accessed a ∧ a.baseBits? = some 4
  /-- A displacement of one byte, a zero, is there in mode 1 for a base of low bits 5. -/
  mode : ∀ f ∈ fields, f.mode = 1 ↔ f.displacement = [0]
  displacement : fields.map Fields.displacement = some [0] ↔
    ∃ a, accessed a ∧ a.baseBits? = some 5

/-- Each part is there just if the form or the operands need it.  The operand in memory, or else the
first, is the one that goes into `rm` or into the opcode. -/
structure Decoder.Parts.AsNeeded (p : Parts) (form : Form) (ops : List Operand) : Prop where
  /-- Extension bits are there for a wide form and for registers above 7. -/
  extension : p.extension.isSome = true ↔ form.wide = true ∨ ∃ op ∈ ops, op.isExtended = true
  extension_bits : ∀ byte ∈ p.extension, Extension.ofByte byte =
    { wide := form.wide
      reg := (lookupOrder ops)[1]?.any Operand.isExtended
      index := false
      base := (lookupOrder ops)[0]?.any Operand.isExtended }
  operands : HoldsBits p.opcode p.fields form
    ((lookupOrder ops)[0]?.bind Operand.fieldBits?) ((lookupOrder ops)[1]?.bind Operand.fieldBits?)
  addressing : Addressing p.fields fun a => .memory a ∈ ops

/-! ### Bits of operands -/

theorem isExtended_of_extensionBit {op : Option Operand} {bit : Bool}
    (h : extensionBit op = .ok bit) : op.any Operand.isExtended = bit := by
  cases op with
  | none =>
      cases h
      rfl
  | some op =>
      cases hr : op.base? with
      | none =>
          simp only [extensionBit, Option.bind_some, hr] at h
          cases h
          simp [Operand.isExtended, Operand.number?, hr]
      | some r =>
          obtain ⟨n, hn, rfl⟩ := extensionBit_eq_ok hr h
          simp [Operand.isExtended, Operand.number?, hr, hn, Except.toOption,
            Register.Number.isExtended]

theorem fieldBits?_of_number {op : Operand} {r : Register} {n : Register.Number}
    (hr : op.base? = some r) (hn : r.number = .ok n) : op.fieldBits? = some n.lowBits := by
  have hnumber : op.number? = some n := by simp [Operand.number?, hr, hn, Except.toOption]
  rcases op with r | ⟨r | disp⟩ | imm
  · simp [Operand.fieldBits?, hnumber, Register.Number.lowBits]
  · simp [Operand.fieldBits?, hnumber, Register.Number.lowBits]
  · cases hr
  · cases hr

/-- Field bits are those of the operand, unless the form fixes it by name. -/
theorem fieldBits?_of_fieldBits {op : Option Operand} {slot : Option Slot} {bits : Option Nat}
    (hslot : slot.any Slot.isFixed = false) (h : fieldBits op slot = .ok bits) :
    op.bind Operand.fieldBits? = bits := by
  rcases op with _ | r | ⟨r | disp⟩ | imm
  · cases h
    rfl
  · simp only [fieldBits, hslot, Bool.false_eq_true, if_false] at h
    obtain ⟨n, hn, rfl⟩ := map_eq_ok.mp h
    rw [Option.bind_some]
    exact fieldBits?_of_number rfl (numberOrFail_eq_ok.mp hn)
  · obtain ⟨n, hn, rfl⟩ := map_eq_ok.mp h
    rw [Option.bind_some]
    exact fieldBits?_of_number rfl (numberOrFail_eq_ok.mp hn)
  · cases h
    rfl
  · cases h
    rfl

/-! ### The fields that were laid out -/

theorem cutFields_register (ext : Extension) {reg rm : Nat} (hreg : reg < 8) (hrm : rm < 8)
    (rest : Bytes) :
    cutFields ext (fieldByte 3 reg rm :: rest) = some (⟨fieldByte 3 reg rm, none, []⟩, rest) := by
  obtain ⟨hhigh, _, _⟩ := fieldByte_parts (show 3 < 4 by decide) hreg hrm
  simp only [cutFields, hhigh, if_true]

theorem cutFields_memory {ext : Extension} {mode reg rm : Nat} {bytes disp rest : Bytes}
    {base : Base} {index : Option (Register.Number × Nat)} (hmode : mode < 3) (hreg : reg < 8)
    (hrm : rm < 8) (hbase : readBase ext mode rm bytes = some (base, index, disp ++ rest))
    (hcount : disp.length = displacementCount mode base) :
    cutFields ext (fieldByte mode reg rm :: bytes) =
      some (⟨fieldByte mode reg rm, if rm = 4 then bytes.head? else none, disp⟩, rest) := by
  obtain ⟨hhigh, _, hlow⟩ := fieldByte_parts (show mode < 4 by omega) hreg hrm
  have hlength : ¬ (disp ++ rest).length < displacementCount mode base := by
    rw [List.length_append]
    omega
  simp only [cutFields, hhigh, hlow, if_neg (show ¬mode = 3 by omega), hbase]
  rw [Option.bind_eq_bind, Option.bind_some, if_neg hlength, List.take_left' hcount,
    List.drop_left' hcount]

/-- The fields of a base register. -/
def baseFields (reg : Nat) (n : Register.Number) : Fields where
  byte := fieldByte (if n.lowBits = 5 then 1 else 0) reg n.lowBits
  sib := (if n.lowBits = 4 then some 4 else none).map baseByte
  displacement := if n.lowBits = 5 then [0] else []

theorem baseFields_parts {reg : Nat} (hreg : reg < 8) (n : Register.Number) :
    (baseFields reg n).mode = (if n.lowBits = 5 then 1 else 0) ∧ (baseFields reg n).reg = reg ∧
      (baseFields reg n).rm = n.lowBits := by
  have hmode : (if n.lowBits = 5 then 1 else 0) < 4 := by split <;> decide
  exact fieldByte_parts hmode hreg n.lowBits_lt

theorem cutFields_base (ext : Extension) {reg : Nat} (hreg : reg < 8) (n : Register.Number)
    (rest : Bytes) : cutFields ext ((baseFields reg n).bytes ++ rest) =
      some (baseFields reg n, rest) := by
  -- Low bits 4 and, in mode 0, low bits 5 would not be read as a base; these go their own ways.
  by_cases h4 : n.lowBits = 4
  · have hbase : readBase ext 0 4 (baseByte 4 :: rest) =
        some (.register (number 4 ext.base), sibIndex ext (baseByte 4), [] ++ rest) := rfl
    have hcut := cutFields_memory (by decide) hreg (by decide) hbase rfl
    simpa [baseFields, Fields.bytes, h4] using hcut
  · by_cases h5 : n.lowBits = 5
    · have hbase : readBase ext 1 5 (0 :: rest) =
          some (.register (number 5 ext.base), none, [0] ++ rest) := rfl
      have hcut := cutFields_memory (by decide) hreg (by decide) hbase rfl
      simpa [baseFields, Fields.bytes, h5] using hcut
    · have hbase : readBase ext 0 n.lowBits rest =
          some (.register (number n.lowBits ext.base), none, [] ++ rest) := by
        simp [readBase, h4, h5]
      have hcut := cutFields_memory (by decide) hreg n.lowBits_lt hbase rfl
      simpa [baseFields, Fields.bytes, h4, h5] using hcut

theorem cutFields_displacement (ext : Extension) {reg : Nat} (hreg : reg < 8) {disp : Bytes}
    (hdisp : disp.length = 4) (rest : Bytes) :
    cutFields ext (fieldByte 0 reg 4 :: baseByte 5 :: (disp ++ rest)) =
      some (⟨fieldByte 0 reg 4, some (baseByte 5), disp⟩, rest) := by
  have hbase : readBase ext 0 4 (baseByte 5 :: (disp ++ rest)) =
      some (.absent, sibIndex ext (baseByte 5), disp ++ rest) := rfl
  exact cutFields_memory (by decide) hreg (by decide) hbase hdisp

namespace Addressing

variable {accessed : Address → Prop} {reg rm : Nat}

theorem absent (h : ∀ a, ¬ accessed a) : Addressing none accessed where
  sib := by simp
  sib_displacement := by simp [h]
  sib_base := by simp [h]
  mode := by simp
  displacement := by simp [h]

theorem register (hreg : reg < 8) (hrm : rm < 8) (h : ∀ a, ¬ accessed a) :
    Addressing (some ⟨fieldByte 3 reg rm, none, []⟩) accessed where
  sib := by simp
  sib_displacement := by simp [h]
  sib_base := by simp [h]
  mode := by
    obtain ⟨hhigh, _, _⟩ := fieldByte_parts (show 3 < 4 by decide) hreg hrm
    simp [Fields.mode, hhigh]
  displacement := by simp [h]

theorem base {r : Register} {n : Register.Number} (hreg : reg < 8) (hn : r.number = .ok n)
    (h : ∀ a, accessed a ↔ a = .base r) : Addressing (some (baseFields reg n)) accessed := by
  have hbits (bits : Nat) : (∃ a, accessed a ∧ a.baseBits? = some bits) ↔ n.lowBits = bits := by
    simp [h, Address.baseBits?, hn, Except.toOption, Register.Number.lowBits]
  have hdisp : (baseFields reg n).displacement = if n.lowBits = 5 then [0] else [] := rfl
  obtain ⟨hmode, _, _⟩ := baseFields_parts hreg n
  constructor
  · simp [baseFields, baseByte]
  · simp [baseFields, baseByte, h]
  · simp [hbits, baseFields, baseByte]
  · simp [hmode, hdisp]
  · simp [hbits, hdisp]

theorem absolute (d : Immediate) {disp : Bytes} (hreg : reg < 8) (hdisp : disp.length = 4)
    (h : ∀ a, accessed a ↔ a = .displacement d) :
    Addressing (some ⟨fieldByte 0 reg 4, some (baseByte 5), disp⟩) accessed := by
  have hlong : disp ≠ [0] := by
    rintro rfl
    cases hdisp
  constructor
  · simp [baseByte]
  · simp [baseByte, h]
  · simp [baseByte, h, Address.baseBits?]
  · obtain ⟨hhigh, _, _⟩ := fieldByte_parts (show 0 < 4 by decide) hreg (show 4 < 8 by decide)
    simp [Fields.mode, hhigh, hlong]
  · simp [hlong, h, Address.baseBits?]

end Addressing

/-- Fields that were laid out for an operand in `rm` are cut off as they were meant. -/
theorem cutFields_fieldsBytes {place : Placement} {rm : Nat} {bytes : Bytes}
    (hrm : fieldBits place.rm place.rmSlot = .ok (some rm)) (h : fieldsBytes place rm = .ok bytes) :
    ∃ f reg, fieldBits place.reg place.regSlot = .ok reg ∧ f.reg = reg.getD 0 ∧ f.rm = rm ∧
      Addressing (some f) (fun a => place.rm = some (.memory a)) ∧
      ∀ ext rest, cutFields ext (bytes ++ rest) = some (f, rest) := by
  obtain ⟨reg, hreg, h⟩ := bind_eq_ok.mp h
  obtain ⟨disp, hdisp, h⟩ := bind_eq_ok.mp h
  have hreg8 := fieldBits_lt hreg
  have hrm8 : rm < 8 := fieldBits_lt hrm
  cases h
  generalize place.rm = op at hrm hdisp ⊢
  rcases op with _ | r | ⟨r | d⟩ | imm
  · cases hrm
  · cases hdisp
    obtain ⟨_, hmid, hlow⟩ := fieldByte_parts (show 3 < 4 by decide) hreg8 hrm8
    refine ⟨⟨fieldByte 3 (reg.getD 0) rm, none, []⟩, reg, hreg, hmid, hlow, ?_, fun ext rest => ?_⟩
    · exact .register hreg8 hrm8 (by simp)
    · exact cutFields_register ext hreg8 hrm8 rest
  · obtain ⟨n, hn, e⟩ := map_eq_ok.mp hrm
    cases hdisp
    cases e
    obtain ⟨_, hmid, hlow⟩ := baseFields_parts hreg8 n
    refine ⟨baseFields (reg.getD 0) n, reg, hreg, hmid, hlow, ?_, fun ext rest => ?_⟩
    · exact .base hreg8 (numberOrFail_eq_ok.mp hn) (by simp [eq_comm])
    · exact cutFields_base ext hreg8 n rest
  · cases hrm
    have hlength := length_displacementBytes hdisp
    obtain ⟨_, hmid, hlow⟩ := fieldByte_parts (show 0 < 4 by decide) hreg8 (show 4 < 8 by decide)
    refine ⟨⟨fieldByte 0 (reg.getD 0) 4, some (baseByte 5), disp⟩, reg, hreg, hmid, hlow, ?_,
      fun ext rest => ?_⟩
    · exact .absolute d hreg8 hlength (by simp [eq_comm])
    · exact cutFields_displacement ext hreg8 hlength rest
  · cases hrm

/-! ### Where the operands are -/

/-- The ways in which a form can arrange its operands. -/
inductive Form.Arranged (form : Form) (row : OpcodeRow) (place : Placement) : Prop where
  | fields (hfields : row.pattern.hasFields = true) (hform : ¬ form.Fieldless)
      (hrm : ∃ op, place.rm = some op ∧ op.immediate? = none)
  | opcode (hfields : row.pattern.hasFields = false) (hform : form.registerInOpcode = true)
      (hslots : ∀ slot ∈ form.slots, slot.isFixed = false)
      (hrm : ∃ r, place.rm = some (.register r))
  | fieldless (hfields : row.pattern.hasFields = false) (hform : form.Fieldless)
      (hopcode : form.registerInOpcode = false)
      (hrm : fieldBits place.rm place.rmSlot = .ok none)
      (hmemory : ∀ a, place.rm ≠ some (.memory a))

theorem Form.not_fieldless {form : Form} {s t : Slot} (hopcode : form.registerInOpcode = false)
    (hslots : form.slots = [s, t]) (hs : s.isFixed = false) (ht : t.isFixed = false)
    (hkind : s.kind ≠ .immediate) : ¬ form.Fieldless := by
  rintro (h | ⟨slot, hslot, h⟩ | h)
  · rw [hopcode] at h
    cases h
  · have hcases : slot = s ∨ slot = t := by simpa [hslots] using hslot
    rcases hcases with rfl | rfl
    · rw [hs] at h
      cases h
    · rw [ht] at h
      cases h
  · exact hkind (h s (by simp [hslots]))

theorem Form.arranged {form : Form} {row : OpcodeRow} {ops : List Operand}
    (hplaces : form.placesAgree row = true) (haccepts : form.accepts ops = true) :
    form.Arranged row (Placement.of form.slots ops) := by
  have hall := accepts_iff.mp haccepts
  unfold placesAgree at hplaces
  split at hplaces
  · next w w' hpattern hslots =>
    rw [Bool.not_eq_true'] at hplaces
    have hform := not_fieldless hplaces hslots rfl rfl (by simp [Slot.kind])
    rw [hslots] at hall ⊢
    rcases hall with _ | ⟨h0, _ | ⟨h1, _ | _⟩⟩
    obtain ⟨r, rfl, _⟩ := Slot.accepts_register h1
    refine .fields (by rw [hpattern]; rfl) hform ?_
    rcases Slot.accepts_memory h0 with ⟨r', rfl, _⟩ | ⟨address, rfl, _⟩
    · exact ⟨_, rfl, rfl⟩
    · exact ⟨_, rfl, rfl⟩
  · next w w' hpattern hslots =>
    rw [Bool.not_eq_true'] at hplaces
    have hform := not_fieldless hplaces hslots rfl rfl (by simp [Slot.kind])
    rw [hslots] at hall ⊢
    rcases hall with _ | ⟨h0, _ | ⟨h1, _ | _⟩⟩
    obtain ⟨r, rfl, _⟩ := Slot.accepts_register h0
    refine .fields (by rw [hpattern]; rfl) hform ?_
    -- Of two registers the first goes into `rm`.
    rcases Slot.accepts_memory h1 with ⟨r', rfl, _⟩ | ⟨address, rfl, _⟩
    · exact ⟨_, rfl, rfl⟩
    · exact ⟨_, rfl, rfl⟩
  · next w width hpattern hslots =>
    rw [Bool.and_eq_true, Bool.not_eq_true'] at hplaces
    have hform := not_fieldless hplaces.1 hslots rfl rfl (by simp [Slot.kind])
    rw [hslots] at hall ⊢
    rcases hall with _ | ⟨h0, _ | ⟨h1, _ | _⟩⟩
    obtain ⟨r, rfl, _⟩ := Slot.accepts_register h0
    obtain ⟨imm, rfl, _⟩ := Slot.accepts_immediate h1
    exact .fields (by rw [hpattern]; rfl) hform ⟨_, rfl, rfl⟩
  · next name w width hpattern hslots =>
    rw [Bool.and_eq_true, Bool.and_eq_true, Bool.not_eq_true'] at hplaces
    have hform : form.Fieldless := .inr (.inl ⟨.fixed name w, by simp [hslots], rfl⟩)
    rw [hslots] at hall ⊢
    rcases hall with _ | ⟨h0, _ | ⟨h1, _ | _⟩⟩
    obtain ⟨r, rfl, _⟩ := Slot.accepts_fixed h0
    obtain ⟨imm, rfl, _⟩ := Slot.accepts_immediate h1
    exact .fieldless (by rw [hpattern]; rfl) hform hplaces.1.1 rfl fun a h => by cases h
  · next w hpattern hslots =>
    rw [hslots] at hall
    rcases hall with _ | ⟨h0, _ | _⟩
    obtain ⟨r, rfl, _⟩ := Slot.accepts_register h0
    exact .opcode (by rw [hpattern]; rfl) hplaces (by simp [hslots, Slot.isFixed]) ⟨r, rfl⟩
  · next w width hpattern hslots =>
    rw [Bool.and_eq_true] at hplaces
    rw [hslots] at hall
    rcases hall with _ | ⟨h0, _ | ⟨h1, _ | _⟩⟩
    obtain ⟨r, rfl, _⟩ := Slot.accepts_register h0
    obtain ⟨imm, rfl, _⟩ := Slot.accepts_immediate h1
    exact .opcode (by rw [hpattern]; rfl) hplaces.1 (by simp [hslots, Slot.isFixed]) ⟨r, rfl⟩
  · next width hpattern hslots =>
    rw [Bool.and_eq_true, Bool.not_eq_true'] at hplaces
    have hform : form.Fieldless := .inr (.inr (by simp [hslots, Slot.kind]))
    rw [hslots] at hall ⊢
    rcases hall with _ | ⟨h0, _ | _⟩
    obtain ⟨imm, rfl, _⟩ := Slot.accepts_immediate h0
    exact .fieldless (by rw [hpattern]; rfl) hform hplaces.1 rfl fun a h => by cases h
  · cases hplaces

theorem Placement.isFixed_of {slots : List Slot} (h : ∀ slot ∈ slots, slot.isFixed = false)
    (ops : List Operand) :
    (of slots ops).rmSlot.any Slot.isFixed = false ∧
      (of slots ops).regSlot.any Slot.isFixed = false := by
  have hany (k : Nat) : slots[k]?.any Slot.isFixed = false := by
    cases hslot : slots[k]? with
    | none => rfl
    | some slot => exact h slot (List.mem_of_getElem? hslot)
  unfold of
  split
  · exact ⟨hany 1, hany 0⟩
  · exact ⟨hany 0, hany 1⟩

namespace HoldsBits

variable {form : Form} {rm reg : Option Nat}

theorem of_fields {f : Fields} (hform : ¬ form.Fieldless) (hrm : rm = some f.rm)
    (hreg : f.reg = reg.getD 0) : HoldsBits form.opcodeByte (some f) form rm reg where
  opcode_plain := fun _ => rfl
  opcode_register := fun hregister => absurd (.inl hregister) hform
  fields_none := by simp [hform]
  fields_rm := by simpa using hrm
  fields_reg := by simpa using hreg

theorem of_opcode {bits : Nat} (hform : form.registerInOpcode = true) (hrm : rm = some bits) :
    HoldsBits (form.opcodeByte + UInt8.ofNat bits) none form rm reg where
  opcode_plain := by simp [hform]
  opcode_register := fun _ => ⟨bits, hrm, rfl⟩
  fields_none := ⟨fun _ => .inl hform, fun _ => rfl⟩
  fields_rm := by simp
  fields_reg := by simp

theorem of_fieldless (hopcode : form.registerInOpcode = false) (hform : form.Fieldless) :
    HoldsBits form.opcodeByte none form rm reg where
  opcode_plain := fun _ => rfl
  opcode_register := by simp [hopcode]
  fields_none := ⟨fun _ => hform, fun _ => rfl⟩
  fields_rm := by simp
  fields_reg := by simp

end HoldsBits

namespace Form

variable {form : Form} {row : OpcodeRow} {ops : List Operand} {code : Bytes}

/-- What is laid out behind the prefixes is cut as it was meant. -/
theorem cutOperands_opcodeBytes (harranged : form.Arranged row (Placement.of form.slots ops))
    (h : opcodeBytes [form.opcodeByte] form.registerInOpcode (Placement.of form.slots ops) =
      .ok code) :
    ∃ opcode tail fields, code = opcode :: tail ∧
      HoldsBits opcode fields form ((Placement.of form.slots ops).rm.bind Operand.fieldBits?)
        ((Placement.of form.slots ops).reg.bind Operand.fieldBits?) ∧
      Addressing fields (fun a => (Placement.of form.slots ops).rm = some (.memory a)) ∧
      ∀ ext rest, cutOperands row.pattern ext (tail ++ rest) = some (fields, rest) := by
  cases harranged with
  | fields hfields hform hrm =>
      have hopcode : form.registerInOpcode = false := by
        rw [← Bool.not_eq_true]
        exact fun hopcode => hform (.inl hopcode)
      have hslots : ∀ slot ∈ form.slots, slot.isFixed = false := by
        intro slot hslot
        rw [← Bool.not_eq_true]
        exact fun hfixed => hform (.inr (.inl ⟨slot, hslot, hfixed⟩))
      obtain ⟨hrmSlot, hregSlot⟩ := Placement.isFixed_of hslots ops
      obtain ⟨op, hop, hconstant⟩ := hrm
      rw [hopcode] at h
      rcases opcodeBytes_fields h with ⟨hnone, _⟩ | ⟨rm, fields, hbits, hbytes, rfl⟩
      · rw [hop] at hnone
        exact absurd hnone (fieldBits_ne_none hconstant hrmSlot)
      · obtain ⟨f, reg, hreg, hfreg, rfl, haddress, hcut⟩ := cutFields_fieldsBytes hbits hbytes
        refine ⟨_, _, some f, rfl, .of_fields hform ?_ ?_, haddress, fun ext rest => ?_⟩
        · exact fieldBits?_of_fieldBits hrmSlot hbits
        · rw [fieldBits?_of_fieldBits hregSlot hreg, hfreg]
        · simp [cutOperands, hfields, hcut]
  | opcode hfields hform hslots hrm =>
      obtain ⟨hrmSlot, _⟩ := Placement.isFixed_of hslots ops
      obtain ⟨r, hop⟩ := hrm
      rw [hform] at h
      obtain ⟨bits, hbits, rfl⟩ := opcodeBytes_register h
      have hfield := fieldBits?_of_fieldBits hrmSlot hbits
      cases bits with
      | none =>
          rw [hop] at hbits
          exact absurd hbits (fieldBits_ne_none rfl hrmSlot)
      | some bits =>
          refine ⟨_, _, none, rfl, .of_opcode hform hfield, .absent (by simp [hop]),
            fun ext rest => ?_⟩
          simp [cutOperands, hfields]
  | fieldless hfields hform hopcode hrm hmemory =>
      rw [hopcode] at h
      rcases opcodeBytes_fields h with ⟨_, rfl⟩ | ⟨rm, fields, hbits, _, _⟩
      · refine ⟨_, _, none, rfl, .of_fieldless hopcode hform, .absent hmemory,
          fun ext rest => ?_⟩
        simp [cutOperands, hfields]
      · rw [hrm] at hbits
        cases hbits

end Form

/-! ### Prefixes -/

theorem isExtension_extensionByte (wide reg rm : Bool) :
    isExtension (extensionByte wide reg rm) = true := by
  cases wide <;> cases reg <;> cases rm <;> decide

theorem ofByte_extensionByte (wide reg rm : Bool) :
    Extension.ofByte (extensionByte wide reg rm) = ⟨wide, reg, false, rm⟩ := by
  cases wide <;> cases reg <;> cases rm <;> decide

/-- The prefixes are cut off as they were meant. -/
theorem cut_prefixes (override wide reg rm : Bool) {opcode : UInt8} {row : OpcodeRow}
    {operands constant : Bytes} {fields : Option Fields} (hplain : PlainOpcode opcode)
    (hrow : opcodeRow? opcode = some row)
    (hcut : cutOperands row.pattern ⟨wide, reg, false, rm⟩ operands = some (fields, constant)) :
    cut ((if override then [sizeOverride] else []) ++
        (if wide || reg || rm then [extensionByte wide reg rm] else []) ++ opcode :: operands) =
      some {
        overrides := if override then 1 else 0
        extension := if wide || reg || rm then some (extensionByte wide reg rm) else none
        opcode, fields, constant } := by
  have hskip {byte : UInt8} (hbyte : byte ≠ sizeOverride) (bytes : Bytes) :
      ((if override then [sizeOverride] else []) ++ byte :: bytes).dropWhile (· = sizeOverride) =
          byte :: bytes ∧
        (((if override then [sizeOverride] else []) ++ byte :: bytes).takeWhile
          (· = sizeOverride)).length = if override then 1 else 0 := by
    cases override <;> simp [hbyte]
  rw [List.append_assoc]
  cases hset : wide || reg || rm with
  | true =>
      obtain ⟨hdrop, htake⟩ := hskip (extensionByte_ne_sizeOverride wide reg rm) (opcode :: operands)
      have hext := readExtension_extensionByte wide reg rm (opcode :: operands)
      simp only [if_true, List.singleton_append, cut, hdrop, htake, hext, hrow]
      simp [hcut, Option.filter, isExtension_extensionByte]
  | false =>
      simp only [Bool.or_eq_false_iff] at hset
      obtain ⟨⟨rfl, rfl⟩, rfl⟩ := hset
      obtain ⟨hdrop, htake⟩ := hskip hplain.1 operands
      have hext := readExtension_plain hplain operands
      simp only [Bool.false_eq_true, if_false, List.nil_append, cut, hdrop, htake, hext, hrow]
      simp [hcut, Option.filter, hplain.2]

/-! ### Placed operands -/

section placed

variable (slots : List Slot) {ops : List Operand} (h : Placeable ops)

include h

theorem getElem?_lookupOrder :
    (lookupOrder ops)[0]? = (Placement.of slots ops).rm ∧
      (lookupOrder ops)[1]? = (Placement.of slots ops).reg := by
  rw [lookupOrder_eq_placed slots h]
  rcases ops with _ | ⟨a, _ | ⟨b, ops⟩⟩
  · simp [Placement.of]
  · simp [Placement.of]
  · cases hb : b.isMemory <;> simp [Placement.of, hb]

theorem memory_mem_iff {a : Address} :
    .memory a ∈ ops ↔ (Placement.of slots ops).rm = some (.memory a) :=
  ⟨fun ha => (rm_of_memory slots h ha).1, fun ha => Placement.mem_of (.inl ha)⟩

theorem exists_isExtended_iff :
    (∃ op ∈ ops, op.isExtended = true) ↔
      (Placement.of slots ops).reg.any Operand.isExtended = true ∨
        (Placement.of slots ops).rm.any Operand.isExtended = true := by
  have hmem (op : Operand) : op ∈ ops ↔
      (Placement.of slots ops).rm = some op ∨ (Placement.of slots ops).reg = some op := by
    rw [← mem_lookupOrder, lookupOrder_eq_placed slots h]
    simp
  simp only [hmem, Option.any_eq_true, or_and_right, exists_or]
  exact or_comm

end placed

/-! ### Widened operands -/

theorem Operand.Widens.isExtended_eq {a b : Operand} (h : a.Widens b) :
    b.isExtended = a.isExtended := by
  cases h with
  | refl => rfl
  | constant => rfl

theorem Operand.Widens.fieldBits?_eq {a b : Operand} (h : a.Widens b) :
    b.fieldBits? = a.fieldBits? := by
  cases h with
  | refl => rfl
  | constant => rfl

/-- What a wider constant leaves alone is the same for all operands. -/
theorem map_of_widens {β : Type} {f : Operand → β} (hf : ∀ {a b : Operand}, a.Widens b → f b = f a)
    {ops wider : List Operand} (h : List.Forall₂ Operand.Widens ops wider) :
    wider.map f = ops.map f := by
  induction h with
  | nil => rfl
  | cons hop _ ih => rw [List.map_cons, List.map_cons, hf hop, ih]

theorem Decoder.Parts.AsNeeded.of_widens {p : Parts} {form : Form} {ops wider : List Operand}
    (hp : p.AsNeeded form wider) (h : List.Forall₂ Operand.Widens ops wider) :
    p.AsNeeded form ops := by
  have horder := forall₂_lookupOrder h
  have hextended (k : Nat) : (lookupOrder wider)[k]?.any Operand.isExtended =
      (lookupOrder ops)[k]?.any Operand.isExtended := by
    have hmap := congrArg (·[k]?.any id) (map_of_widens Operand.Widens.isExtended_eq horder)
    simpa [Option.any_map] using hmap
  have hbits (k : Nat) : (lookupOrder wider)[k]?.bind Operand.fieldBits? =
      (lookupOrder ops)[k]?.bind Operand.fieldBits? := by
    have hmap := congrArg (·[k]?.bind id) (map_of_widens Operand.Widens.fieldBits?_eq horder)
    simpa [Option.bind_map] using hmap
  constructor
  · rw [hp.extension, ← List.mem_map, ← List.mem_map, map_of_widens Operand.Widens.isExtended_eq h]
  · simpa only [hextended] using hp.extension_bits
  · simpa only [hbits] using hp.operands
  · simpa only [memory_mem_of_widens h] using hp.addressing

/-! ### The code of an instruction -/

namespace Form

variable {form : Form} {mnemonic : String} {row : OpcodeRow} {layout : Imm16Layout}
  {ops : List Operand} {bytes : Bytes}

theorem cut_bytes (hform : form.readAs mnemonic row = true) (haccepts : form.accepts ops = true)
    (hplaceable : Placeable ops) (h : form.bytes layout ops = .ok bytes) :
    ∃ p, cut bytes = some p ∧ p.AsNeeded form ops ∧
      p.constant = constantBytes layout (ops.findSome? Operand.immediate?) := by
  obtain ⟨hopcode, _, hrow, hplaces⟩ := readAs_iff.mp hform
  obtain ⟨reg, rm, code, hreg, hrm, hcode, rfl⟩ :=
    (bytes_eq_ok_iff hopcode (plain_opcodeByte hrow).1).mp h
  obtain ⟨opcode, tail, fields, rfl, hholds, haddress, hcut⟩ :=
    cutOperands_opcodeBytes (arranged hplaces haccepts) hcode
  obtain ⟨_, _, e, hplain, hopcodeRow⟩ := opcodeBytes_head hrow hcode
  cases e
  obtain ⟨hfirst, hsecond⟩ := getElem?_lookupOrder form.slots hplaceable
  have hregBit := isExtended_of_extensionBit hreg
  have hrmBit := isExtended_of_extensionBit hrm
  rw [List.append_assoc, List.cons_append, Placement.immediate?_of]
  refine ⟨_, cut_prefixes _ _ _ _ hplain hopcodeRow (hcut _ _), ?_, rfl⟩
  constructor
  · rw [exists_isExtended_iff form.slots hplaceable, hregBit, hrmBit]
    cases form.wide <;> cases reg <;> cases rm <;> simp
  · intro byte hbyte
    obtain ⟨_, rfl⟩ : _ ∧ extensionByte form.wide reg rm = byte := by simpa using hbyte
    rw [ofByte_extensionByte, hfirst, hsecond, hregBit, hrmBit]
  · rw [hfirst, hsecond]
    exact hholds
  · simpa only [memory_mem_iff form.slots hplaceable] using haddress

end Form

/-- The code of an instruction, cut as the machine cuts it, has each of its parts just if the form or
an operand needs it; behind them is the constant and nothing else. -/
theorem Instruction.encode_parts {i : Instruction} {layout : Imm16Layout} {buf : InstructionBuffer}
    (h : i.encode layout = .ok buf) :
    ∃ sel p, i.select = .ok sel ∧ cut buf.toList = some p ∧ p.bytes = buf.toList ∧
      p.AsNeeded sel.form i.operands ∧
      p.constant = constantBytes layout (sel.operands.findSome? Operand.immediate?) := by
  obtain ⟨sel, hsel, h⟩ := bind_eq_ok.mp h
  rw [mapError_eq_ok] at hsel
  obtain ⟨haccepts, _, hwidens⟩ := select_spec hsel
  obtain ⟨row, _, hread⟩ := exists_row hsel
  obtain ⟨p, hcut, hneeded, hconstant⟩ := Form.cut_bytes hread haccepts
    (placeable_of_select hsel).1 (Form.bytes_of_encode h)
  exact ⟨sel, p, hsel, hcut, bytes_of_cut hcut, hneeded.of_widens hwidens, hconstant⟩

/-- `mov [r13], r9`: both registers are extended, and the base takes a displacement of zero. -/
theorem Instruction.encode_parts_extended :
    (encode ⟨64, "mov", [.memory (.base ⟨"r13", .qword⟩), .register ⟨"r9", .qword⟩]⟩
      .fourBytes).map (·.toList) = .ok [0x4D, 0x89, 0x4D, 0x00] ∧
    Parts.AsNeeded
      { overrides := 0, extension := some 0x4D, opcode := 0x89
        fields := some ⟨0x4D, none, [0x00]⟩, constant := [] }
      { opcode := [0x89], slots := [Form.m64, Form.r64], wide := true }
      [.memory (.base ⟨"r13", .qword⟩), .register ⟨"r9", .qword⟩] := by
  have hcode : (encode ⟨64, "mov", [.memory (.base ⟨"r13", .qword⟩), .register ⟨"r9", .qword⟩]⟩
      .fourBytes).map (·.toList) = .ok [0x4D, 0x89, 0x4D, 0x00] := by
    decide +kernel
  have hselect : select ⟨64, "mov",
      [.memory (.base ⟨"r13", .qword⟩), .register ⟨"r9", .qword⟩]⟩ =
        .ok ⟨{ opcode := [0x89], slots := [Form.m64, Form.r64], wide := true },
          [.memory (.base ⟨"r13", .qword⟩), .register ⟨"r9", .qword⟩]⟩ := by
    decide +kernel
  have hparts : cut [0x4D, 0x89, 0x4D, 0x00] =
      some ⟨0, some 0x4D, 0x89, some ⟨0x4D, none, [0x00]⟩, []⟩ := by
    decide
  obtain ⟨buf, hbuf, hbytes⟩ := map_eq_ok.mp hcode
  obtain ⟨sel, p, hsel, hcut, _, hneeded, _⟩ := encode_parts hbuf
  rw [hselect] at hsel
  cases hsel
  rw [hbytes, hparts] at hcut
  cases hcut
  exact ⟨hcode, hneeded⟩

end X64Asm
