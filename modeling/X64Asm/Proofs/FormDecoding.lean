import X64Asm.Proofs.ReadBack
import X64Asm.Proofs.Selection

/-! # Decoding what was encoded

The form table and the opcode map of the decoder were written apart.  `Form.readAs` says of one form
that the map reads its opcode as the mnemonic and finds the operands where the form puts them; it is
checked for every form of the table (`table_readAs`).  From it follows, for each pattern of operands,
that the decoder reads the bytes of the form back and stops at their end (`Form.decode_bytes`),
whatever stands behind them. -/

namespace X64Asm

open Decoder

/-! ### Forms and the opcode map -/

namespace Form

/-- The opcode behind the override. -/
def opcodeByte (form : Form) : UInt8 := form.opcode.getLast?.getD 0

/-- Whether the opcode has an override in front. -/
def overridden (form : Form) : Bool := form.opcode.head? = some sizeOverride

/-- Whether the constant of the form has 16 bits. -/
def wordConstant (form : Form) : Bool := form.slots.any (· = .typed .immediate .word)

/-- The width at which the machine works on the operands of the form. -/
def machineWidth (form : Form) (row : OpcodeRow) : Width :=
  row.sizing.width (form.overridden || form.wordConstant) form.wide

/-- Whether the machine expects a constant of the given width. -/
def takesConstant (form : Form) (row : OpcodeRow) (width : Width) : Bool :=
  row.constant.count (form.machineWidth row) = width.bits / 8

/-- Whether the operands are where the machine looks for them. -/
def placesAgree (form : Form) (row : OpcodeRow) : Bool :=
  match row.pattern, form.slots with
  | .fieldsRegister, [.typed .memory _, .typed .register _] => !form.registerInOpcode
  | .registerFields, [.typed .register _, .typed .memory _] => !form.registerInOpcode
  | .fieldsConstant, [.typed .register _, .typed .immediate width] =>
    !form.registerInOpcode && form.takesConstant row width
  | .accumulatorConstant, [.fixed name _, .typed .immediate width] =>
    !form.registerInOpcode && form.takesConstant row width &&
      (Register.table.find? name).any (·.number.val = 0)
  | .opcodeRegister, [.typed .register _] => form.registerInOpcode
  | .opcodeRegisterConstant, [.typed .register _, .typed .immediate width] =>
    form.registerInOpcode && form.takesConstant row width
  | .constant, [.typed .immediate width] =>
    !form.registerInOpcode && form.takesConstant row width
  | _, _ => false

/-- Whether the map reads the opcode as the given row, also with a register in it. -/
def opcodeAgrees (form : Form) (row : OpcodeRow) : Bool :=
  if form.registerInOpcode then
    (List.range 8).all fun low =>
      let opcode := form.opcodeByte + UInt8.ofNat low
      PlainOpcode opcode && opcodeRow? opcode = some row && opcode.toNat % 8 = low
  else PlainOpcode form.opcodeByte && opcodeRow? form.opcodeByte = some row

/-- Whether the map reads the form as the mnemonic, by the given row. -/
def readAs (form : Form) (mnemonic : String) (row : OpcodeRow) : Bool :=
  form.opcode = (if form.overridden then [sizeOverride] else []) ++ [form.opcodeByte] &&
    row.mnemonic = mnemonic && form.opcodeAgrees row && form.placesAgree row

theorem readAs_iff {form : Form} {mnemonic : String} {row : OpcodeRow} :
    form.readAs mnemonic row = true ↔
      form.opcode = (if form.overridden then [sizeOverride] else []) ++ [form.opcodeByte] ∧
        row.mnemonic = mnemonic ∧ form.opcodeAgrees row = true ∧ form.placesAgree row = true := by
  simp only [readAs, Bool.and_eq_true, decide_eq_true_eq, and_assoc]

end Form

/-- The opcode map reads every form of the table. -/
theorem table_readAs : ∀ entry ∈ Form.table.rows.toList, ∀ form ∈ entry.2,
    (opcodeRow? form.opcodeByte).any (form.readAs entry.1) = true := by
  decide +kernel

/-! ### Opcode and prefixes -/

theorem opcodeBytes_register {opcode : UInt8} {place : Placement} {code : Bytes}
    (h : opcodeBytes [opcode] true place = .ok code) :
    ∃ bits, fieldBits place.rm place.rmSlot = .ok bits ∧
      code = [opcode + UInt8.ofNat (bits.getD 0)] := by
  obtain ⟨bits, hbits, h⟩ := bind_eq_ok.mp h
  cases h
  exact ⟨bits, hbits, rfl⟩

theorem opcodeBytes_fields {opcode : UInt8} {place : Placement} {code : Bytes}
    (h : opcodeBytes [opcode] false place = .ok code) :
    (fieldBits place.rm place.rmSlot = .ok none ∧ code = [opcode]) ∨
      ∃ rm fields, fieldBits place.rm place.rmSlot = .ok (some rm) ∧
        fieldsBytes place rm = .ok fields ∧ code = opcode :: fields := by
  obtain ⟨bits, hbits, h⟩ := bind_eq_ok.mp h
  cases bits with
  | none =>
      cases h
      exact .inl ⟨hbits, rfl⟩
  | some rm =>
      obtain ⟨fields, hfields, h⟩ := bind_eq_ok.mp h
      cases h
      exact .inr ⟨rm, fields, hbits, hfields, rfl⟩

namespace Form

variable {form : Form} {mnemonic : String} {row : OpcodeRow} {ops : List Operand} {bytes : Bytes}

/-- The code begins with an opcode that the map reads by the given row. -/
theorem opcodeBytes_head (hform : form.opcodeAgrees row = true) {place : Placement} {code : Bytes}
    (h : opcodeBytes [form.opcodeByte] form.registerInOpcode place = .ok code) :
    ∃ opcode tail, code = opcode :: tail ∧ PlainOpcode opcode ∧ opcodeRow? opcode = some row := by
  cases hreg : form.registerInOpcode with
  | true =>
      rw [hreg] at h
      obtain ⟨bits, hbits, rfl⟩ := opcodeBytes_register h
      simp only [opcodeAgrees, hreg, if_true, List.all_eq_true, Bool.and_eq_true,
        decide_eq_true_eq, List.mem_range] at hform
      obtain ⟨⟨hplain, hrow⟩, _⟩ := hform _ (fieldBits_lt hbits)
      exact ⟨_, [], rfl, hplain, hrow⟩
  | false =>
      rw [hreg] at h
      simp only [opcodeAgrees, hreg, Bool.false_eq_true, if_false, Bool.and_eq_true,
        decide_eq_true_eq] at hform
      obtain ⟨hplain, hrow⟩ := hform
      rcases opcodeBytes_fields h with ⟨_, rfl⟩ | ⟨rm, fields, _, _, rfl⟩
      · exact ⟨_, [], rfl, hplain, hrow⟩
      · exact ⟨_, fields, rfl, hplain, hrow⟩

theorem plain_opcodeByte (hform : form.opcodeAgrees row = true) : PlainOpcode form.opcodeByte := by
  cases hreg : form.registerInOpcode with
  | true =>
      simp only [opcodeAgrees, hreg, if_true, List.all_eq_true, Bool.and_eq_true,
        decide_eq_true_eq, List.mem_range] at hform
      obtain ⟨⟨hplain, _⟩, _⟩ := hform 0 (by decide)
      simpa using hplain
  | false =>
      simp only [opcodeAgrees, hreg, Bool.false_eq_true, if_false, Bool.and_eq_true,
        decide_eq_true_eq] at hform
      exact hform.1

/-- The register in the opcode is read off it. -/
theorem toNat_opcode_mod (hform : form.opcodeAgrees row = true)
    (hreg : form.registerInOpcode = true) {low : Nat} (hlow : low < 8) :
    (form.opcodeByte + UInt8.ofNat low).toNat % 8 = low := by
  simp only [opcodeAgrees, hreg, if_true, List.all_eq_true, Bool.and_eq_true,
    decide_eq_true_eq, List.mem_range] at hform
  exact (hform low hlow).2

theorem overrideBytes_eq (overridden forced : Bool) :
    overrideBytes (if overridden then [sizeOverride] else []) forced =
      if overridden || forced then [sizeOverride] else [] := by
  cases overridden <;> cases forced <;> rfl

/-- The bytes of a form are its prefixes, the opcode with its operands, and the constant. -/
theorem bytes_eq_ok_iff {layout : Imm16Layout}
    (hopcode : form.opcode = (if form.overridden then [sizeOverride] else []) ++ [form.opcodeByte])
    (hplain : form.opcodeByte ≠ sizeOverride) :
    form.bytes layout ops = .ok bytes ↔
      ∃ reg rm code, extensionBit (Placement.of form.slots ops).reg = .ok reg ∧
        extensionBit (Placement.of form.slots ops).rm = .ok rm ∧
        opcodeBytes [form.opcodeByte] form.registerInOpcode (Placement.of form.slots ops) =
          .ok code ∧
        bytes = (if form.overridden || needsOverride layout ops then [sizeOverride] else []) ++
          (if form.wide || reg || rm then [extensionByte form.wide reg rm] else []) ++ code ++
          constantBytes layout ((Placement.of form.slots ops).immediate? ops) := by
  have htake : form.opcode.takeWhile (· == sizeOverride) =
      if form.overridden then [sizeOverride] else [] := by
    rw [hopcode]
    cases form.overridden <;> simp [hplain]
  have hdrop : form.opcode.dropWhile (· == sizeOverride) = [form.opcodeByte] := by
    rw [hopcode]
    cases form.overridden <;> simp [hplain]
  simp only [Form.bytes, htake, hdrop, overrideBytes_eq]
  constructor
  · intro h
    obtain ⟨extension, hextension, h⟩ := bind_eq_ok.mp h
    obtain ⟨code, hcode, h⟩ := bind_eq_ok.mp h
    obtain ⟨rm, hrm, hextension⟩ := bind_eq_ok.mp hextension
    obtain ⟨reg, hreg, hextension⟩ := bind_eq_ok.mp hextension
    cases h
    cases hextension
    exact ⟨reg, rm, code, hreg, hrm, hcode, rfl⟩
  · rintro ⟨reg, rm, code, hreg, hrm, hcode, rfl⟩
    have hextension : extensionBytes form.wide (Placement.of form.slots ops) = .ok _ :=
      bind_eq_ok.mpr ⟨rm, hrm, bind_eq_ok.mpr ⟨reg, hreg, rfl⟩⟩
    exact bind_eq_ok.mpr ⟨_, hextension, bind_eq_ok.mpr ⟨code, hcode, rfl⟩⟩

/-- The prefixes of a form are read as they were meant; what remains is opcode, operands and
constant. -/
theorem decode_bytes_prefixes
    (hopcode : form.opcode = (if form.overridden then [sizeOverride] else []) ++ [form.opcodeByte])
    (hrow : form.opcodeAgrees row = true) (h : form.bytes .twoBytes ops = .ok bytes) :
    ∃ reg rm code, extensionBit (Placement.of form.slots ops).reg = .ok reg ∧
      extensionBit (Placement.of form.slots ops).rm = .ok rm ∧
      opcodeBytes [form.opcodeByte] form.registerInOpcode (Placement.of form.slots ops) = .ok code ∧
      ∀ rest, decode (bytes ++ rest) =
        decodeOpcode (form.overridden || needsOverride .twoBytes ops) ⟨form.wide, reg, false, rm⟩
          (code ++ (constantBytes .twoBytes ((Placement.of form.slots ops).immediate? ops) ++ rest)) := by
  obtain ⟨reg, rm, code, hreg, hrm, hcode, rfl⟩ :=
    (bytes_eq_ok_iff hopcode (plain_opcodeByte hrow).1).mp h
  refine ⟨reg, rm, code, hreg, hrm, hcode, fun rest => ?_⟩
  obtain ⟨opcode, tail, rfl, hopcode', _⟩ := opcodeBytes_head hrow hcode
  rw [List.append_assoc, List.append_assoc]
  exact decode_prefixes _ _ _ _ hopcode' _

end Form

/-! ### Operands, pattern by pattern -/

/-- The places that the operands name, one for one. -/
abbrev Located (ops : List Operand) (places : List Place) : Prop :=
  List.Forall₂ (fun op place => op.place? = some place) ops places

/-- The operands are read back from the opcode, what follows it, and the constant. -/
def ReadsOperands (row : OpcodeRow) (ext : Extension) (width : Width) (ops : List Operand)
    (code constant : Bytes) : Prop :=
  ∃ opcode tail places, code = opcode :: tail ∧ Located ops places ∧
    ∀ rest, row.readOperands ext opcode width (tail ++ (constant ++ rest)) = some (places, rest)

/-- The extension bits are those that the operands ask for where they are placed. -/
structure ExtendedBy (place : Placement) (ext : Extension) : Prop where
  index : ext.index = false
  reg : extensionBit place.reg = .ok ext.reg
  base : extensionBit place.rm = .ok ext.base

section patterns

variable {row : OpcodeRow} {ext : Extension} {width : Width} {opcode : UInt8} {code : Bytes}
  {a : Operand} {r : Register} {imm : Immediate} {s t : Slot}

theorem place?_register {n : Register.Number} (h : r.number = .ok n) :
    (Operand.register r).place? = some (.register n) := by
  simp [Operand.place?, h, Except.toOption]

theorem fieldBits_register {bits : Option Nat} (hs : s.isFixed = false)
    (h : fieldBits (some (.register r)) (some s) = .ok bits) :
    ∃ n, r.number = .ok n ∧ bits = some n.lowBits := by
  simp only [fieldBits, Option.any_some, hs, Bool.false_eq_true, if_false] at h
  obtain ⟨n, hn, e⟩ := map_eq_ok.mp h
  exact ⟨n, numberOrFail_eq_ok.mp hn, e.symm⟩

/-- The number of a register is put together from its low bits and its extension bit. -/
theorem number_of_extensionBit {n : Register.Number} {bit : Bool} (hn : r.number = .ok n)
    (h : extensionBit (some (.register r)) = .ok bit) : number n.lowBits bit = n := by
  obtain ⟨n', hn', hbit⟩ := extensionBit_eq_ok rfl h
  rw [hn] at hn'
  cases hn'
  rw [← hbit, number_lowBits]

/-- Only constants and fixed registers are left out of the register fields. -/
theorem fieldBits_ne_none {slot : Option Slot} (ha : a.immediate? = none)
    (hslot : slot.any Slot.isFixed = false) : fieldBits (some a) slot ≠ .ok none := by
  intro h
  rcases a with r | ⟨r | disp⟩ | imm
  · simp only [fieldBits, hslot, Bool.false_eq_true, if_false] at h
    obtain ⟨n, _, e⟩ := map_eq_ok.mp h
    cases e
  · obtain ⟨n, _, e⟩ := map_eq_ok.mp h
    cases e
  · cases h
  · cases ha

/-- An operand in a register or in memory is read back from `rm`, and `reg` holds the bits of the
other operand. -/
theorem readFields_opcodeBytes {reg : Option Operand} (ha : a.immediate? = none)
    (hs : s.isFixed = false) (hext : ExtendedBy ⟨some a, some s, reg, some t⟩ ext)
    (h : opcodeBytes [opcode] false ⟨some a, some s, reg, some t⟩ = .ok code) :
    ∃ fields p bits, code = opcode :: fields ∧ a.place? = some p ∧
      fieldBits reg (some t) = .ok bits ∧
      ∀ rest, readFields ext (fields ++ rest) = some (p, bits.getD 0, rest) := by
  rcases opcodeBytes_fields h with ⟨hnone, _⟩ | ⟨rm, fields, hbits, hfields, rfl⟩
  · exact absurd hnone (fieldBits_ne_none ha hs)
  · obtain ⟨p, bits, hp, hreg, hread⟩ :=
      readFields_fieldsBytes rfl hext.index hext.base hbits hfields
    exact ⟨fields, p, bits, rfl, hp, hreg, hread⟩

/-- One operand in `rm` and a register in `reg` are both read back. -/
theorem readFields_register_opcodeBytes (ha : a.immediate? = none) (hs : s.isFixed = false)
    (ht : t.isFixed = false) (hext : ExtendedBy ⟨some a, some s, some (.register r), some t⟩ ext)
    (h : opcodeBytes [opcode] false ⟨some a, some s, some (.register r), some t⟩ = .ok code) :
    ∃ fields p n, code = opcode :: fields ∧ a.place? = some p ∧
      (Operand.register r).place? = some (.register n) ∧ number n.lowBits ext.reg = n ∧
      ∀ rest, readFields ext (fields ++ rest) = some (p, n.lowBits, rest) := by
  obtain ⟨fields, p, bits, rfl, hp, hbits, hread⟩ := readFields_opcodeBytes ha hs hext h
  obtain ⟨n, hn, rfl⟩ := fieldBits_register ht hbits
  exact ⟨fields, p, n, rfl, hp, place?_register hn, number_of_extensionBit hn hext.reg, hread⟩

theorem reads_fieldsRegister (hrow : row.pattern = .fieldsRegister) (ha : a.immediate? = none)
    (hs : s.isFixed = false) (ht : t.isFixed = false)
    (hext : ExtendedBy ⟨some a, some s, some (.register r), some t⟩ ext)
    (h : opcodeBytes [opcode] false ⟨some a, some s, some (.register r), some t⟩ = .ok code) :
    ReadsOperands row ext width [a, .register r] code [] := by
  obtain ⟨fields, p, n, rfl, hp, hr, hn, hread⟩ :=
    readFields_register_opcodeBytes ha hs ht hext h
  refine ⟨opcode, fields, _, rfl, .cons hp (.cons hr .nil), fun rest => ?_⟩
  simp [OpcodeRow.readOperands, hrow, hread, hn]

theorem reads_registerFields (hrow : row.pattern = .registerFields) (ha : a.immediate? = none)
    (hs : s.isFixed = false) (ht : t.isFixed = false)
    (hext : ExtendedBy ⟨some a, some s, some (.register r), some t⟩ ext)
    (h : opcodeBytes [opcode] false ⟨some a, some s, some (.register r), some t⟩ = .ok code) :
    ReadsOperands row ext width [.register r, a] code [] := by
  obtain ⟨fields, p, n, rfl, hp, hr, hn, hread⟩ :=
    readFields_register_opcodeBytes ha hs ht hext h
  refine ⟨opcode, fields, _, rfl, .cons hr (.cons hp .nil), fun rest => ?_⟩
  simp [OpcodeRow.readOperands, hrow, hread, hn]

theorem reads_fieldsConstant (hrow : row.pattern = .fieldsConstant)
    (hcount : row.constant.count width = imm.width.bits / 8) (ha : a.immediate? = none)
    (hs : s.isFixed = false) (hext : ExtendedBy ⟨some a, some s, some (.immediate imm), some t⟩ ext)
    (h : opcodeBytes [opcode] false ⟨some a, some s, some (.immediate imm), some t⟩ = .ok code) :
    ReadsOperands row ext width [a, .immediate imm] code (imm.bytes .twoBytes) := by
  obtain ⟨fields, p, bits, rfl, hp, hbits, hread⟩ := readFields_opcodeBytes ha hs hext h
  cases hbits
  refine ⟨opcode, fields, _, rfl, .cons hp (.cons rfl .nil), fun rest => ?_⟩
  simp [OpcodeRow.readOperands, hrow, hread, hcount, readSigned_immediate]

/-- A register that the form fixes by name is register 0, and leaves no trace in the code. -/
theorem reads_accumulatorConstant (hrow : row.pattern = .accumulatorConstant)
    (hcount : row.constant.count width = imm.width.bits / 8) (hr : r.number = .ok (number 0 false))
    (hs : s.isFixed = true)
    (h : opcodeBytes [opcode] false ⟨some (.register r), some s, some (.immediate imm), some t⟩ =
      .ok code) :
    ReadsOperands row ext width [.register r, .immediate imm] code (imm.bytes .twoBytes) := by
  have hbits : fieldBits (some (.register r)) (some s) = .ok none := by simp [fieldBits, hs]
  rcases opcodeBytes_fields h with ⟨_, rfl⟩ | ⟨rm, fields, hsome, _⟩
  · refine ⟨opcode, [], _, rfl, .cons (place?_register hr) (.cons rfl .nil), fun rest => ?_⟩
    simp [OpcodeRow.readOperands, hrow, hcount, readSigned_immediate]
  · rw [hbits] at hsome
    cases hsome

/-- A register in the opcode is read back from it. -/
theorem number_opcodeBytes {reg : Option Operand} {regSlot : Option Slot} (hs : s.isFixed = false)
    (hmod : ∀ low < 8, (opcode + UInt8.ofNat low).toNat % 8 = low)
    (hbase : extensionBit (some (.register r)) = .ok ext.base)
    (h : opcodeBytes [opcode] true ⟨some (.register r), some s, reg, regSlot⟩ = .ok code) :
    ∃ full n, code = [full] ∧ (Operand.register r).place? = some (.register n) ∧
      number (full.toNat % 8) ext.base = n := by
  obtain ⟨bits, hbits, rfl⟩ := opcodeBytes_register h
  obtain ⟨n, hn, rfl⟩ := fieldBits_register hs hbits
  refine ⟨_, n, rfl, place?_register hn, ?_⟩
  rw [Option.getD_some, hmod _ n.lowBits_lt, number_of_extensionBit hn hbase]

theorem reads_opcodeRegister {reg : Option Operand} {regSlot : Option Slot}
    (hrow : row.pattern = .opcodeRegister) (hs : s.isFixed = false)
    (hmod : ∀ low < 8, (opcode + UInt8.ofNat low).toNat % 8 = low)
    (hbase : extensionBit (some (.register r)) = .ok ext.base)
    (h : opcodeBytes [opcode] true ⟨some (.register r), some s, reg, regSlot⟩ = .ok code) :
    ReadsOperands row ext width [.register r] code [] := by
  obtain ⟨full, n, rfl, hr, hn⟩ := number_opcodeBytes hs hmod hbase h
  refine ⟨full, [], _, rfl, .cons hr .nil, fun rest => ?_⟩
  simp [OpcodeRow.readOperands, hrow, hn]

theorem reads_opcodeRegisterConstant {reg : Option Operand} {regSlot : Option Slot}
    (hrow : row.pattern = .opcodeRegisterConstant)
    (hcount : row.constant.count width = imm.width.bits / 8) (hs : s.isFixed = false)
    (hmod : ∀ low < 8, (opcode + UInt8.ofNat low).toNat % 8 = low)
    (hbase : extensionBit (some (.register r)) = .ok ext.base)
    (h : opcodeBytes [opcode] true ⟨some (.register r), some s, reg, regSlot⟩ = .ok code) :
    ReadsOperands row ext width [.register r, .immediate imm] code (imm.bytes .twoBytes) := by
  obtain ⟨full, n, rfl, hr, hn⟩ := number_opcodeBytes hs hmod hbase h
  refine ⟨full, [], _, rfl, .cons hr (.cons rfl .nil), fun rest => ?_⟩
  simp [OpcodeRow.readOperands, hrow, hcount, readSigned_immediate, hn]

theorem reads_constant {slot : Option Slot} {reg : Option Operand} {regSlot : Option Slot}
    (hrow : row.pattern = .constant) (hcount : row.constant.count width = imm.width.bits / 8)
    (h : opcodeBytes [opcode] false ⟨some (.immediate imm), slot, reg, regSlot⟩ = .ok code) :
    ReadsOperands row ext width [.immediate imm] code (imm.bytes .twoBytes) := by
  rcases opcodeBytes_fields h with ⟨_, rfl⟩ | ⟨rm, fields, hsome, _⟩
  · refine ⟨opcode, [], _, rfl, .cons rfl .nil, fun rest => ?_⟩
    simp [OpcodeRow.readOperands, hrow, hcount, readSigned_immediate]
  · cases hsome

end patterns

/-! ### Forms -/

theorem Slot.isWordConstant_of_accepts {slot : Slot} {op : Operand} (h : slot.accepts op = true) :
    slot = .typed .immediate .word ↔ op.immediate?.any (fun imm => imm.width = .word) = true := by
  constructor
  · rintro rfl
    obtain ⟨imm, rfl, hw⟩ := accepts_immediate h
    simp [Operand.immediate?, hw]
  · intro hop
    cases op with
    | register r => cases hop
    | memory a => cases hop
    | immediate imm =>
        simp only [Operand.immediate?, Option.any_some, decide_eq_true_eq] at hop
        rw [eq_of_accepts_immediate h, hop]

namespace Form

variable {form : Form} {mnemonic : String} {row : OpcodeRow} {ops : List Operand} {bytes : Bytes}

/-- A constant asks for the override just where its slot has 16 bits. -/
theorem needsOverride_of_accepts (h : form.accepts ops = true) :
    needsOverride .twoBytes ops = form.wordConstant := by
  have hall := accepts_iff.mp h
  unfold wordConstant needsOverride
  rw [decide_eq_true rfl, Bool.true_and]
  clear h
  generalize form.slots = slots at hall ⊢
  induction hall with
  | nil => rfl
  | @cons slot op _ _ haccepts _ ih =>
      have e : decide (slot = .typed .immediate .word) =
          op.immediate?.any fun imm => imm.width = .word := by
        rw [Bool.eq_iff_iff, decide_eq_true_eq]
        exact Slot.isWordConstant_of_accepts haccepts
      rw [List.any_cons, List.any_cons, ih, e]

theorem number_eq_zero {r : Register}
    (h : (Register.table.find? r.name).any (·.number.val = 0) = true) :
    r.number = .ok (number 0 false) := by
  cases hfind : Register.table.find? r.name with
  | none =>
      rw [hfind] at h
      cases h
  | some code =>
      rw [hfind, Option.any_some, decide_eq_true_eq] at h
      have hzero : code.number = number 0 false := Fin.ext h
      simp [Register.number, hfind, hzero]

/-- The operands that a form accepts are read back from the code that it lays out.  Where the second
operand goes into `rm` it has to be in memory: of two registers the first would go there. -/
theorem readsOperands_of_accepts (hplaces : form.placesAgree row = true)
    (hrow : form.opcodeAgrees row = true) (haccepts : form.accepts ops = true)
    (hload : row.pattern = .registerFields → ∃ a address, ops = [a, .memory address])
    {ext : Extension} {code : Bytes} (hext : ExtendedBy (Placement.of form.slots ops) ext)
    (h : opcodeBytes [form.opcodeByte] form.registerInOpcode (Placement.of form.slots ops) =
      .ok code) :
    ReadsOperands row ext (form.machineWidth row) ops code
      (constantBytes .twoBytes ((Placement.of form.slots ops).immediate? ops)) := by
  have hall := accepts_iff.mp haccepts
  have hmod : form.registerInOpcode = true →
      ∀ low < 8, (form.opcodeByte + UInt8.ofNat low).toNat % 8 = low :=
    fun hreg low hlow => toNat_opcode_mod hrow hreg hlow
  unfold placesAgree at hplaces
  split at hplaces
  · next w w' hpattern hslots =>
    rw [Bool.not_eq_true'] at hplaces
    rw [hslots] at hall hext h ⊢
    rw [hplaces] at h
    rcases hall with _ | ⟨h0, _ | ⟨h1, _ | _⟩⟩
    obtain ⟨r, rfl, _⟩ := Slot.accepts_register h1
    rcases Slot.accepts_memory h0 with ⟨r', rfl, _⟩ | ⟨address, rfl, _⟩
    · exact reads_fieldsRegister hpattern rfl rfl rfl hext h
    · exact reads_fieldsRegister hpattern rfl rfl rfl hext h
  · next w w' hpattern hslots =>
    rw [Bool.not_eq_true'] at hplaces
    obtain ⟨a, address, rfl⟩ := hload hpattern
    rw [hslots] at hall hext h ⊢
    rw [hplaces] at h
    rcases hall with _ | ⟨h0, _⟩
    obtain ⟨r, rfl, _⟩ := Slot.accepts_register h0
    exact reads_registerFields hpattern rfl rfl rfl hext h
  · next w width hpattern hslots =>
    rw [Bool.and_eq_true, Bool.not_eq_true'] at hplaces
    rw [hslots] at hall hext h ⊢
    rw [hplaces.1] at h
    rcases hall with _ | ⟨h0, _ | ⟨h1, _ | _⟩⟩
    obtain ⟨r, rfl, _⟩ := Slot.accepts_register h0
    obtain ⟨imm, rfl, rfl⟩ := Slot.accepts_immediate h1
    exact reads_fieldsConstant hpattern (of_decide_eq_true hplaces.2) rfl rfl hext h
  · next name w width hpattern hslots =>
    rw [Bool.and_eq_true, Bool.and_eq_true, Bool.not_eq_true'] at hplaces
    rw [hslots] at hall hext h ⊢
    rw [hplaces.1.1] at h
    rcases hall with _ | ⟨h0, _ | ⟨h1, _ | _⟩⟩
    obtain ⟨r, rfl, rfl, _⟩ := Slot.accepts_fixed h0
    obtain ⟨imm, rfl, rfl⟩ := Slot.accepts_immediate h1
    exact reads_accumulatorConstant hpattern (of_decide_eq_true hplaces.1.2)
      (number_eq_zero hplaces.2) rfl h
  · next w hpattern hslots =>
    rw [hslots] at hall hext h ⊢
    rw [hplaces] at h
    rcases hall with _ | ⟨h0, _ | _⟩
    obtain ⟨r, rfl, _⟩ := Slot.accepts_register h0
    exact reads_opcodeRegister hpattern rfl (hmod hplaces) hext.base h
  · next w width hpattern hslots =>
    rw [Bool.and_eq_true] at hplaces
    rw [hslots] at hall hext h ⊢
    rw [hplaces.1] at h
    rcases hall with _ | ⟨h0, _ | ⟨h1, _ | _⟩⟩
    obtain ⟨r, rfl, _⟩ := Slot.accepts_register h0
    obtain ⟨imm, rfl, rfl⟩ := Slot.accepts_immediate h1
    exact reads_opcodeRegisterConstant hpattern (of_decide_eq_true hplaces.2) rfl
      (hmod hplaces.1) hext.base h
  · next width hpattern hslots =>
    rw [Bool.and_eq_true, Bool.not_eq_true'] at hplaces
    rw [hslots] at hall hext h ⊢
    rw [hplaces.1] at h
    rcases hall with _ | ⟨h0, _ | _⟩
    obtain ⟨imm, rfl, rfl⟩ := Slot.accepts_immediate h0
    exact reads_constant hpattern (of_decide_eq_true hplaces.2) h
  · cases hplaces

theorem decodeOpcode_cons {override : Bool} {ext : Extension} {opcode : UInt8} {rest left : Bytes}
    {places : List Place} (hrow : opcodeRow? opcode = some row)
    (h : row.readOperands ext opcode (row.sizing.width override ext.wide) rest =
      some (places, left)) :
    decodeOpcode override ext (opcode :: rest) =
      some (⟨row.mnemonic, row.pattern, row.sizing.width override ext.wide, places⟩, left) := by
  simp [decodeOpcode, hrow, h]

/-- The bytes of a form are read as its mnemonic with the places of the operands, whatever
follows. -/
theorem decode_bytes (hform : form.readAs mnemonic row = true) (haccepts : form.accepts ops = true)
    (hload : row.pattern = .registerFields → ∃ a address, ops = [a, .memory address])
    (h : form.bytes .twoBytes ops = .ok bytes) :
    ∃ places, Located ops places ∧ ∀ rest, decode (bytes ++ rest) =
      some (⟨mnemonic, row.pattern, form.machineWidth row, places⟩, rest) := by
  obtain ⟨hopcode, rfl, hrow, hplaces⟩ := readAs_iff.mp hform
  obtain ⟨reg, rm, code, hreg, hrm, hcode, hdecode⟩ := decode_bytes_prefixes hopcode hrow h
  have hext : ExtendedBy (Placement.of form.slots ops) ⟨form.wide, reg, false, rm⟩ :=
    ⟨rfl, hreg, hrm⟩
  obtain ⟨opcode, tail, places, rfl, hlocated, hread⟩ :=
    readsOperands_of_accepts hplaces hrow haccepts hload hext hcode
  refine ⟨places, hlocated, fun rest => ?_⟩
  obtain ⟨opcode', tail', e, _, hopcodeRow⟩ := opcodeBytes_head hrow hcode
  cases e
  rw [hdecode, needsOverride_of_accepts haccepts, List.cons_append]
  exact decodeOpcode_cons hopcodeRow (hread rest)

end Form

end X64Asm
