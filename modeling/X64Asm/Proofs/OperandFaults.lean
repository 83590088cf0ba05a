import X64Asm.Proofs.EncodingFailure

/-! # What is wrong with the operands

An instruction that has a form can still name a register that the machine does not have, or an
address that four bytes do not hold.  `Instruction.encode_verdict` says exactly when encoding fails
for which cause, and what is reported.

* Registers are looked up before anything else, first that of the operand in memory and then the
  others in order (`lookupOrder`).  For the forms of the table this is the order in which operands
  are placed (`lookupOrder_eq_placed`), so every register is looked up, used or not.
* Displacements are looked at when all registers are known.  An operand in memory always goes into
  `rm` (`rm_of_memory`), under an opcode that holds no register, so none of them is passed over. -/

namespace X64Asm

/-! ### Unknown registers -/

/-- The name of the register that the operand mentions, if the machine has no such register. -/
def Operand.unknown? (op : Operand) : Option String :=
  (op.base?.map (·.name)).filter (· ∉ Register.table.names)

/-- The operands in the order in which their registers are looked up: first the one in memory. -/
def lookupOrder (ops : List Operand) : List Operand :=
  ops.filter (·.isMemory) ++ ops.filter (!·.isMemory)

theorem mem_lookupOrder {ops : List Operand} {op : Operand} : op ∈ lookupOrder ops ↔ op ∈ ops := by
  cases h : op.isMemory <;> simp [lookupOrder, h]

theorem Operand.unknown?_eq_some {op : Operand} {name : String} :
    op.unknown? = some name ↔
      ∃ r, op.base? = some r ∧ r.name = name ∧ name ∉ Register.table.names := by
  simp only [unknown?, Option.filter_eq_some_iff, Option.map_eq_some_iff, decide_eq_true_eq]
  constructor
  · rintro ⟨⟨r, hr, rfl⟩, hname⟩
    exact ⟨r, hr, rfl, hname⟩
  · rintro ⟨r, hr, rfl, hname⟩
    exact ⟨⟨r, hr, rfl⟩, hname⟩

theorem Operand.number_of_known {op : Operand} (h : op.unknown? = none) {r : Register}
    (hr : op.base? = some r) : ∃ n, r.number = .ok n := by
  unfold Register.number
  cases hfind : Register.table.find? r.name with
  | some code => exact ⟨code.number, rfl⟩
  | none =>
      have hname := unknown?_eq_some.mpr ⟨r, hr, rfl, SortedTable.find?_eq_none.mp hfind⟩
      rw [h] at hname
      cases hname

section bits

variable {op : Option Operand} {name : String}

theorem extensionBit_of_unknown (h : op.bind Operand.unknown? = some name) :
    extensionBit op = .error (.diagnostic (.unknownRegister name)) := by
  obtain ⟨op, rfl, h⟩ := Option.bind_eq_some_iff.mp h
  obtain ⟨r, hr, rfl, hname⟩ := Operand.unknown?_eq_some.mp h
  have hnumber : r.number = .error (.unknownRegister r.name) := by
    unfold Register.number
    rw [SortedTable.find?_eq_none.mpr hname]
  simp [extensionBit, hr, Register.numberOrFail, hnumber, Except.mapError, Except.map]

theorem extensionBit_of_known (h : op.bind Operand.unknown? = none) :
    ∃ bit, extensionBit op = .ok bit := by
  unfold extensionBit
  cases hbase : op.bind Operand.base? with
  | none => exact ⟨false, rfl⟩
  | some r =>
      obtain ⟨op, rfl, hr⟩ := Option.bind_eq_some_iff.mp hbase
      obtain ⟨n, hn⟩ := Operand.number_of_known h hr
      exact ⟨n.isExtended, map_eq_ok.mpr ⟨n, numberOrFail_eq_ok.mpr hn, rfl⟩⟩

theorem findSome?_toList (f : Operand → Option String) : op.toList.findSome? f = op.bind f := by
  cases op <;> simp

end bits

/-- The extension bits of placed operands report the first register that is unknown. -/
theorem extensionBytes_of_unknown {place : Placement} {name : String} (wide : Bool)
    (h : (place.rm.toList ++ place.reg.toList).findSome? Operand.unknown? = some name) :
    extensionBytes wide place = .error (.diagnostic (.unknownRegister name)) := by
  rw [List.findSome?_append, findSome?_toList, findSome?_toList, Option.or_eq_some_iff] at h
  rcases h with hrm | ⟨hrm, hreg⟩
  · exact bind_eq_error.mpr (.inl (extensionBit_of_unknown hrm))
  · obtain ⟨bit, hbit⟩ := extensionBit_of_known hrm
    refine bind_eq_error.mpr (.inr ⟨bit, hbit, ?_⟩)
    exact bind_eq_error.mpr (.inl (extensionBit_of_unknown hreg))

/-! ### Placed operands -/

/-- A form has at most two operands, at most one of them in memory, and none in memory where the
opcode holds a register. -/
theorem table_oneAddress : ∀ entry ∈ Form.table.rows.toList, ∀ form ∈ entry.2,
    form.slots.length ≤ 2 ∧ form.slots.countP (·.kind = .memory) ≤ 1 ∧
      (form.registerInOpcode = true → form.slots.countP (·.kind = .memory) = 0) := by
  decide +kernel

/-- There are at most two operands, at most one of them in memory. -/
def Placeable (ops : List Operand) : Prop := ops.length ≤ 2 ∧ ops.countP (·.isMemory) ≤ 1

section placeable

variable (slots : List Slot) {ops : List Operand} (h : Placeable ops)

include h

/-- Operands are looked up in the order in which they are placed. -/
theorem lookupOrder_eq_placed :
    lookupOrder ops =
      (Placement.of slots ops).rm.toList ++ (Placement.of slots ops).reg.toList := by
  obtain ⟨hlength, hmemory⟩ := h
  rcases ops with _ | ⟨a, _ | ⟨b, _ | ⟨c, ops⟩⟩⟩
  · rfl
  · cases ha : a.isMemory <;> simp [lookupOrder, Placement.of, ha]
  · cases ha : a.isMemory <;> cases hb : b.isMemory <;>
      simp_all [lookupOrder, Placement.of]
  · simp at hlength

/-- The operand in memory goes into `rm`, and the other one is not in memory. -/
theorem rm_of_memory {a : Address} (ha : .memory a ∈ ops) :
    (Placement.of slots ops).rm = some (.memory a) ∧
      ∀ op ∈ (Placement.of slots ops).reg, op.isMemory = false := by
  obtain ⟨hlength, hmemory⟩ := h
  rcases ops with _ | ⟨b, _ | ⟨c, _ | ⟨d, ops⟩⟩⟩
  · cases ha
  · obtain rfl := List.mem_singleton.mp ha
    simp [Placement.of]
  · rcases List.mem_cons.mp ha with rfl | ha
    · cases hc : c.isMemory <;> simp_all [Placement.of, Operand.isMemory]
    · obtain rfl := List.mem_singleton.mp ha
      cases hb : b.isMemory <;> simp_all [Placement.of, Operand.isMemory]
  · simp at hlength

end placeable

namespace Form

variable {form : Form} {ops : List Operand} (layout : Imm16Layout)

theorem bytes_of_unknown {name : String} (h : Placeable ops)
    (hunknown : (lookupOrder ops).findSome? Operand.unknown? = some name) :
    form.bytes layout ops = .error (.diagnostic (.unknownRegister name)) := by
  rw [lookupOrder_eq_placed form.slots h] at hunknown
  exact bind_eq_error.mpr (.inl (extensionBytes_of_unknown form.wide hunknown))

/-- A displacement that is too wide is reported once the registers are known. -/
theorem bytes_of_tooWide {disp : Immediate} (h : Placeable ops)
    (hopcode : form.registerInOpcode = false) (hknown : ∀ op ∈ ops, op.unknown? = none)
    (hdisp : .memory (.displacement disp) ∈ ops) (hwide : ¬ FitsSigned 32 disp.value) :
    form.bytes layout ops = .error (.diagnostic
      (.missingDisplacement (Complaint.displacementTooWide disp.value).message)) := by
  obtain ⟨hrm, hother⟩ := rm_of_memory form.slots h hdisp
  have hreg : ∀ op ∈ (Placement.of form.slots ops).reg, op.Encodable := by
    intro op hop
    constructor
    · intro r hr
      exact Operand.number_of_known (hknown op (Placement.mem_of (.inr hop))) hr
    · rintro disp rfl
      cases hother _ hop
  obtain ⟨regBit, hregBit⟩ := exists_extensionBit hreg
  obtain ⟨regField, hregField⟩ := exists_fieldBits hreg (Placement.of form.slots ops).regSlot
  have hrmBit : extensionBit (Placement.of form.slots ops).rm = .ok false := by
    rw [hrm]
    rfl
  have hrmField : fieldBits (Placement.of form.slots ops).rm (Placement.of form.slots ops).rmSlot =
      .ok (some 4) := by
    rw [hrm]
    rfl
  have hfields : fieldsBytes (Placement.of form.slots ops) 4 = .error (.diagnostic
      (.missingDisplacement (Complaint.displacementTooWide disp.value).message)) := by
    refine bind_eq_error.mpr (.inr ⟨regField, hregField, bind_eq_error.mpr (.inl ?_)⟩)
    rw [hrm]
    exact if_neg hwide
  have hextension : extensionBytes form.wide (Placement.of form.slots ops) = .ok _ :=
    bind_eq_ok.mpr ⟨false, hrmBit, bind_eq_ok.mpr ⟨regBit, hregBit, rfl⟩⟩
  refine bind_eq_error.mpr (.inr ⟨_, hextension, bind_eq_error.mpr (.inl ?_)⟩)
  refine bind_eq_error.mpr (.inr ⟨some 4, hrmField, ?_⟩)
  rw [hopcode]
  exact bind_eq_error.mpr (.inl hfields)

end Form

/-! ### Widened operands -/

theorem Operand.Widens.unknown?_eq {a b : Operand} (h : a.Widens b) : b.unknown? = a.unknown? := by
  cases h with
  | refl => rfl
  | constant => rfl

theorem Operand.Widens.isMemory_eq {a b : Operand} (h : a.Widens b) : b.isMemory = a.isMemory := by
  cases h with
  | refl => rfl
  | constant => rfl

section widened

variable {ops wider : List Operand} (h : List.Forall₂ Operand.Widens ops wider)

include h

theorem forall₂_lookupOrder :
    List.Forall₂ Operand.Widens (lookupOrder ops) (lookupOrder wider) := by
  refine List.rel_append (List.rel_filter ?_ h) (List.rel_filter ?_ h)
  · intro a b hab
    simp only [hab.isMemory_eq]
  · intro a b hab
    simp only [hab.isMemory_eq]

theorem findSome?_unknown?_of_widens :
    wider.findSome? Operand.unknown? = ops.findSome? Operand.unknown? := by
  induction h with
  | nil => rfl
  | cons hop _ ih => rw [List.findSome?_cons, List.findSome?_cons, hop.unknown?_eq, ih]

theorem known_of_widens :
    (∀ op ∈ wider, op.unknown? = none) ↔ ∀ op ∈ ops, op.unknown? = none := by
  rw [← List.findSome?_eq_none_iff, ← List.findSome?_eq_none_iff, findSome?_unknown?_of_widens h]

theorem memory_mem_of_widens {a : Address} : .memory a ∈ wider ↔ .memory a ∈ ops := by
  induction h with
  | nil => rfl
  | cons hop _ ih =>
      rw [List.mem_cons, List.mem_cons, ih]
      cases hop with
      | refl => rfl
      | constant => simp

end widened

/-! ### The verdict -/

theorem known_iff_lookupOrder (ops : List Operand) :
    (lookupOrder ops).findSome? Operand.unknown? = none ↔ ∀ op ∈ ops, op.unknown? = none := by
  simp only [List.findSome?_eq_none_iff, mem_lookupOrder]

namespace Instruction

variable {i : Instruction} {sel : Selection} (layout : Imm16Layout)

theorem placeable_of_select (h : i.select = .ok sel) :
    Placeable sel.operands ∧ ∀ a, .memory a ∈ sel.operands → sel.form.registerInOpcode = false := by
  obtain ⟨haccepts, _, _⟩ := select_spec h
  obtain ⟨entry, hentry, _, earlier, later, hall, _⟩ := form_mem_table h
  obtain ⟨hlength, hone, hnone⟩ := table_oneAddress entry hentry sel.form (by simp [hall])
  have hcount : sel.operands.countP (·.isMemory) ≤ sel.form.slots.countP (·.kind = .memory) := by
    refine Form.countP_le_of_accepts haccepts ?_
    intro slot op hslot hop
    cases op with
    | memory a => rw [Slot.eq_of_accepts_memory hslot]; rfl
    | register r => cases hop
    | immediate imm => cases hop
  have hsame := (Form.accepts_iff.mp haccepts).length_eq
  refine ⟨⟨by omega, by omega⟩, fun a ha => ?_⟩
  rw [← Bool.not_eq_true]
  intro hreg
  have hpos : 0 < sel.operands.countP (·.isMemory) := List.countP_pos_iff.mpr ⟨_, ha, rfl⟩
  have hzero := hnone hreg
  omega

section selected

variable (h : i.select = .ok sel)

include h

theorem encode_of_unknown {name : String}
    (hunknown : (lookupOrder i.operands).findSome? Operand.unknown? = some name) :
    i.encode layout = .error (.diagnostic (.unknownRegister name)) := by
  obtain ⟨_, _, hwidens⟩ := select_spec h
  rw [← findSome?_unknown?_of_widens (forall₂_lookupOrder hwidens)] at hunknown
  rw [← map_eq_error, map_toList_encode h]
  exact Form.bytes_of_unknown layout (placeable_of_select h).1 hunknown

theorem encode_of_tooWide {disp : Immediate} (hknown : ∀ op ∈ i.operands, op.unknown? = none)
    (hdisp : .memory (.displacement disp) ∈ i.operands) (hwide : ¬ FitsSigned 32 disp.value) :
    i.encode layout = .error (.diagnostic
      (.missingDisplacement (Complaint.displacementTooWide disp.value).message)) := by
  obtain ⟨_, _, hwidens⟩ := select_spec h
  obtain ⟨hplaceable, hopcode⟩ := placeable_of_select h
  rw [← memory_mem_of_widens hwidens] at hdisp
  rw [← known_of_widens hwidens] at hknown
  rw [← map_eq_error, map_toList_encode h]
  exact Form.bytes_of_tooWide layout hplaceable (hopcode _ hdisp) hknown hdisp hwide

theorem encode_of_sound (hknown : ∀ op ∈ i.operands, op.unknown? = none)
    (hfits : ∀ disp, .memory (.displacement disp) ∈ i.operands → FitsSigned 32 disp.value) :
    ∃ buf, i.encode layout = .ok buf := by
  obtain ⟨_, _, hwidens⟩ := select_spec h
  have hencodable : ∀ op ∈ i.operands, op.Encodable := by
    intro op hop
    constructor
    · intro r hr
      exact Operand.number_of_known (hknown op hop) hr
    · rintro disp rfl
      exact hfits disp hop
  obtain ⟨bytes, hbytes⟩ :=
    sel.form.exists_bytes layout (Operand.Encodable.forall_of_widens hencodable hwidens)
  rw [← map_toList_encode h] at hbytes
  obtain ⟨buf, hbuf, _⟩ := map_eq_ok.mp hbytes
  exact ⟨buf, hbuf⟩

/-- One of three things comes of an instruction that has a form. -/
theorem encode_trichotomy :
    (∃ name, (lookupOrder i.operands).findSome? Operand.unknown? = some name ∧
      i.encode layout = .error (.diagnostic (.unknownRegister name))) ∨
    (∀ op ∈ i.operands, op.unknown? = none) ∧
      ((∃ disp, .memory (.displacement disp) ∈ i.operands ∧ ¬ FitsSigned 32 disp.value ∧
        i.encode layout = .error (.diagnostic
          (.missingDisplacement (Complaint.displacementTooWide disp.value).message))) ∨
      (∀ disp, .memory (.displacement disp) ∈ i.operands → FitsSigned 32 disp.value) ∧
        ∃ buf, i.encode layout = .ok buf) := by
  cases hblame : (lookupOrder i.operands).findSome? Operand.unknown? with
  | some name => exact .inl ⟨name, rfl, encode_of_unknown layout h hblame⟩
  | none =>
      have hknown := (known_iff_lookupOrder i.operands).mp hblame
      refine .inr ⟨hknown, ?_⟩
      by_cases hfits : ∀ disp, .memory (.displacement disp) ∈ i.operands → FitsSigned 32 disp.value
      · exact .inr ⟨hfits, encode_of_sound layout h hknown hfits⟩
      · push Not at hfits
        obtain ⟨disp, hdisp, hwide⟩ := hfits
        exact .inl ⟨disp, hdisp, hwide, encode_of_tooWide layout h hknown hdisp hwide⟩

theorem encode_eq_unknownRegister_iff {name : String} :
    i.encode layout = .error (.diagnostic (.unknownRegister name)) ↔
      (lookupOrder i.operands).findSome? Operand.unknown? = some name := by
  refine ⟨fun hencode => ?_, encode_of_unknown layout h⟩
  rcases encode_trichotomy layout h with
    ⟨name', hblame, hcase⟩ | ⟨_, ⟨_, _, _, hcase⟩ | ⟨_, _, hcase⟩⟩
  all_goals
    rw [hcase] at hencode
    cases hencode
  exact hblame

theorem exists_unknownRegister_iff :
    (∃ name, i.encode layout = .error (.diagnostic (.unknownRegister name))) ↔
      ∃ op ∈ i.operands, ∃ name, op.unknown? = some name := by
  simp only [encode_eq_unknownRegister_iff layout h]
  rw [← Option.ne_none_iff_exists', Ne, known_iff_lookupOrder]
  simp only [not_forall, exists_prop, ← ne_eq, Option.ne_none_iff_exists']

theorem encode_eq_missingDisplacement_iff {detail : String} :
    i.encode layout = .error (.diagnostic (.missingDisplacement detail)) ↔
      (∀ op ∈ i.operands, op.unknown? = none) ∧
        ∃ disp, .memory (.displacement disp) ∈ i.operands ∧ ¬ FitsSigned 32 disp.value ∧
          detail = (Complaint.displacementTooWide disp.value).message := by
  constructor
  · intro hencode
    rcases encode_trichotomy layout h with
      ⟨_, _, hcase⟩ | ⟨hknown, ⟨disp, hdisp, hwide, hcase⟩ | ⟨_, _, hcase⟩⟩
    all_goals
      rw [hcase] at hencode
      cases hencode
    exact ⟨hknown, disp, hdisp, hwide, rfl⟩
  · rintro ⟨hknown, disp, hdisp, hwide, rfl⟩
    exact encode_of_tooWide layout h hknown hdisp hwide

theorem exists_encode_iff :
    (∃ buf, i.encode layout = .ok buf) ↔ (∀ op ∈ i.operands, op.unknown? = none) ∧
      ∀ disp, .memory (.displacement disp) ∈ i.operands → FitsSigned 32 disp.value := by
  refine ⟨?_, fun hsound => encode_of_sound layout h hsound.1 hsound.2⟩
  rintro ⟨buf, hencode⟩
  rcases encode_trichotomy layout h with
    ⟨_, _, hcase⟩ | ⟨hknown, ⟨_, _, _, hcase⟩ | ⟨hfits, _⟩⟩
  · rw [hcase] at hencode
    cases hencode
  · rw [hcase] at hencode
    cases hencode
  · exact ⟨hknown, hfits⟩

end selected

theorem encode_eq_noEncoding_iff {text : String} :
    i.encode layout = .error (.diagnostic (.noEncoding text)) ↔
      i.select = .error (.noEncoding text) := by
  refine ⟨fun hencode => ?_, fun hselect => encode_of_noForm hselect layout⟩
  cases hselect : i.select with
  | error d =>
      rw [encode_of_noForm hselect layout] at hencode
      cases hencode
      rfl
  | ok sel =>
      rcases encode_trichotomy layout hselect with
        ⟨_, _, hcase⟩ | ⟨_, ⟨_, _, _, hcase⟩ | ⟨_, _, hcase⟩⟩
      all_goals
        rw [hcase] at hencode
        cases hencode

/-- What comes of encoding.  No form is found just if none is selected.  With a form, a register is
reported just if one is unknown, and it is the first in the order of look-up; a displacement is
reported just if the registers are known and it does not fit; and else there is code.  The layout of
constants makes no difference to failures. -/
theorem encode_verdict (i : Instruction) (layout : Imm16Layout) :
    (∀ text, i.encode layout = .error (.diagnostic (.noEncoding text)) ↔
      i.select = .error (.noEncoding text)) ∧
    (∀ sel, i.select = .ok sel →
      ((∃ name, i.encode layout = .error (.diagnostic (.unknownRegister name))) ↔
        ∃ op ∈ i.operands, ∃ name, op.unknown? = some name) ∧
      (∀ name, i.encode layout = .error (.diagnostic (.unknownRegister name)) ↔
        (lookupOrder i.operands).findSome? Operand.unknown? = some name) ∧
      (∀ detail, i.encode layout = .error (.diagnostic (.missingDisplacement detail)) ↔
        (∀ op ∈ i.operands, op.unknown? = none) ∧
          ∃ disp, .memory (.displacement disp) ∈ i.operands ∧ ¬ FitsSigned 32 disp.value ∧
            detail = (Complaint.displacementTooWide disp.value).message) ∧
      ((∃ buf, i.encode layout = .ok buf) ↔
        (∀ op ∈ i.operands, op.unknown? = none) ∧
          ∀ disp, .memory (.displacement disp) ∈ i.operands → FitsSigned 32 disp.value)) ∧
    ∀ other f, i.encode layout = .error f ↔ i.encode other = .error f := by
  refine ⟨fun text => encode_eq_noEncoding_iff layout, fun sel h => ?_, fun other f => ?_⟩
  · exact ⟨exists_unknownRegister_iff layout h, fun name => encode_eq_unknownRegister_iff layout h,
      fun detail => encode_eq_missingDisplacement_iff layout h, exists_encode_iff layout h⟩
  · exact ⟨fun h => encode_error_congr h other, fun h => encode_error_congr h layout⟩

/-- Of two unknown registers the base is reported, and without an operand in memory the first; an
address of 33 bits is reported as it stands. -/
theorem encode_verdict_faults :
    encode ⟨64, "mov", [.register ⟨"foo", .qword⟩, .memory (.base ⟨"bar", .word⟩)]⟩ .twoBytes =
      .error (.diagnostic (.unknownRegister "bar")) ∧
    encode ⟨64, "add", [.register ⟨"foo", .dword⟩, .register ⟨"bar", .dword⟩]⟩ .fourBytes =
      .error (.diagnostic (.unknownRegister "foo")) ∧
    encode ⟨64, "mov", [.memory (.displacement (.imm64 0x80000000)), .register ⟨"rax", .qword⟩]⟩
      .twoBytes = .error (.diagnostic
        (.missingDisplacement "displacement 2147483648 does not fit in 32 bits")) := by
  have hload : select ⟨64, "mov", [.register ⟨"foo", .qword⟩, .memory (.base ⟨"bar", .word⟩)]⟩ =
      .ok ⟨{ opcode := [0x8B], slots := [Form.r64, Form.m64], wide := true },
        [.register ⟨"foo", .qword⟩, .memory (.base ⟨"bar", .word⟩)]⟩ := by
    decide +kernel
  have hregisters : select ⟨64, "add", [.register ⟨"foo", .dword⟩, .register ⟨"bar", .dword⟩]⟩ =
      .ok ⟨{ opcode := [0x01], slots := [Form.m32, Form.r32] },
        [.register ⟨"foo", .dword⟩, .register ⟨"bar", .dword⟩]⟩ := by
    decide +kernel
  have hstore : select ⟨64, "mov",
      [.memory (.displacement (.imm64 0x80000000)), .register ⟨"rax", .qword⟩]⟩ =
        .ok ⟨{ opcode := [0x89], slots := [Form.m64, Form.r64], wide := true },
          [.memory (.displacement (.imm64 0x80000000)), .register ⟨"rax", .qword⟩]⟩ := by
    decide +kernel
  refine ⟨?_, ?_, ?_⟩
  · exact (((encode_verdict _ .twoBytes).2.1 _ hload).2.1 "bar").mpr (by decide +kernel)
  · exact (((encode_verdict _ .fourBytes).2.1 _ hregisters).2.1 "foo").mpr (by decide +kernel)
  · refine (((encode_verdict _ .twoBytes).2.1 _ hstore).2.2.1 _).mpr ⟨?_, .imm64 0x80000000, ?_⟩
    · decide +kernel
    · decide +kernel

end Instruction

end X64Asm
