import X64Asm.Proofs.ProgramDecoding

/-! # What comes of encoding

An instruction is encoded in one to eight bytes, or it has no form, or one of its operands is
malformed (`Instruction.encode_outcome`).  The buffer never overflows.

* `Adds n step` says that a writing step adds at most `n` bytes, and that where there is room for
  them it fails for malformed operands alone.  Steps in a row add up (`Adds.bind`), so a form whose
  opcode is short cannot fill the buffer (`Form.fails_malformed`).
* `Form.longest` bounds the bytes of a form by its slots; the bound is checked for the forms of the
  table (`table_longest`). -/

namespace X64Asm

/-- A failure because of an operand that no source text can spell. -/
def Failure.Malformed : Failure → Prop
  | diagnostic d => d.isFatal = true
  | overflow _ => False

/-- The step fails because of malformed operands at most. -/
def FailsMalformed {α : Type} (step : Except Failure α) : Prop :=
  ∀ f, step = .error f → f.Malformed

section steps

variable {α β : Type}

theorem FailsMalformed.ok (a : α) : FailsMalformed (.ok a : Except Failure α) := by
  intro f h
  cases h

theorem FailsMalformed.bind {x : Except Failure α} {next : α → Except Failure β}
    (hx : FailsMalformed x) (hnext : ∀ a, x = .ok a → FailsMalformed (next a)) :
    FailsMalformed (x >>= next) := by
  intro f h
  cases hcase : x with
  | error f' =>
      rw [hcase] at h
      cases h
      exact hx f hcase
  | ok a =>
      rw [hcase] at h
      exact hnext a hcase f h

theorem FailsMalformed.map {x : Except Failure α} (hx : FailsMalformed x) (g : α → β) :
    FailsMalformed (x.map g) := by
  intro f h
  cases x with
  | error f' =>
      cases h
      exact hx f rfl
  | ok a => cases h

end steps

/-! ### Operands -/

theorem Register.fails_numberOrFail (r : Register) : FailsMalformed r.numberOrFail := by
  intro f h
  unfold numberOrFail number at h
  cases hfind : table.find? r.name with
  | none =>
      rw [hfind] at h
      cases h
      rfl
  | some code =>
      rw [hfind] at h
      cases h

theorem fails_extensionBit (op : Option Operand) : FailsMalformed (extensionBit op) := by
  unfold extensionBit
  cases op.bind Operand.base? with
  | none => exact .ok false
  | some r => exact r.fails_numberOrFail.map _

theorem fails_fieldBits (op : Option Operand) (slot : Option Slot) :
    FailsMalformed (fieldBits op slot) := by
  rcases op with _ | r | ⟨r | disp⟩ | imm
  · exact .ok none
  · unfold fieldBits
    by_cases hfixed : slot.any Slot.isFixed = true
    · simp only [hfixed, if_true]
      exact .ok none
    · simp only [hfixed]
      exact r.fails_numberOrFail.map _
  · exact r.fails_numberOrFail.map _
  · exact .ok (some 4)
  · exact .ok none

theorem fails_displacementBytes (disp : Immediate) : FailsMalformed (displacementBytes disp) := by
  intro f h
  unfold displacementBytes at h
  split at h
  · cases h
  · cases h
    rfl

theorem length_displacementBytes {disp : Immediate} {bytes : Bytes}
    (h : displacementBytes disp = .ok bytes) : bytes.length = 4 := by
  unfold displacementBytes at h
  split at h
  · cases h
    exact Bytes.length_littleEndianInt 4 _
  · cases h

/-! ### Writing steps -/

/-- The step adds at most `n` bytes; with room for them it fails for malformed operands alone. -/
def Adds (n : Nat) (step : InstructionBuffer → Except Failure InstructionBuffer) : Prop :=
  ∀ buf : InstructionBuffer, buf.size + n ≤ instructionCapacity →
    FailsMalformed (step buf) ∧ ∀ grown, step buf = .ok grown → grown.size ≤ buf.size + n

namespace Adds

variable {m n : Nat} {step next : InstructionBuffer → Except Failure InstructionBuffer}

theorem mono (h : Adds m step) (hle : m ≤ n) : Adds n step := by
  intro buf hroom
  obtain ⟨hfails, hsize⟩ := h buf (by omega)
  refine ⟨hfails, ?_⟩
  intro grown hgrown
  have hgrows := hsize grown hgrown
  omega

theorem bind (h : Adds m step) (hnext : Adds n next) :
    Adds (m + n) fun buf => step buf >>= next := by
  intro buf hroom
  obtain ⟨hfails, hsize⟩ := h buf (by omega)
  refine ⟨hfails.bind ?_, ?_⟩
  · intro mid hmid
    have hgrows := hsize mid hmid
    exact (hnext mid (by omega)).1
  · intro grown hgrown
    obtain ⟨mid, hmid, hgrown⟩ := bind_eq_ok.mp hgrown
    have hfirst := hsize mid hmid
    have hsecond := (hnext mid (by omega)).2 grown hgrown
    omega

/-- What is found out about the operands first adds nothing. -/
theorem after {α : Type} {x : Except Failure α}
    {next : α → InstructionBuffer → Except Failure InstructionBuffer} (hx : FailsMalformed x)
    (hnext : ∀ a, x = .ok a → Adds n (next a)) : Adds n fun buf => x >>= fun a => next a buf := by
  intro buf hroom
  refine ⟨hx.bind fun a ha => (hnext a ha buf hroom).1, ?_⟩
  intro grown hgrown
  obtain ⟨a, ha, hgrown⟩ := bind_eq_ok.mp hgrown
  exact (hnext a ha buf hroom).2 grown hgrown

theorem none : Adds 0 fun buf => .ok buf := by
  intro buf _
  refine ⟨.ok buf, ?_⟩
  intro grown hgrown
  cases hgrown
  exact Nat.le_refl _

theorem push (byte : UInt8) : Adds 1 fun buf => buf.push byte := by
  intro buf hroom
  have hpush : buf.push byte =
      .ok ⟨buf.storage.set buf.size byte hroom, buf.size + 1, hroom⟩ := dif_pos hroom
  beta_reduce
  rw [hpush]
  refine ⟨.ok _, ?_⟩
  intro grown hgrown
  cases hgrown
  exact Nat.le_refl _

theorem append (bytes : Bytes) : Adds bytes.length fun buf => buf.append bytes := by
  intro buf hroom
  have happend : buf.append bytes =
      .ok ⟨InstructionBuffer.store buf.storage buf.size bytes, buf.size + bytes.length, hroom⟩ :=
    dif_pos hroom
  beta_reduce
  rw [happend]
  refine ⟨.ok _, ?_⟩
  intro grown hgrown
  cases hgrown
  exact Nat.le_refl _

theorem writeOverrides (overrides : Bytes) (forced : Bool) :
    Adds (overrides.length + 1) fun buf => buf.writeOverrides overrides forced := by
  refine (append overrides).bind ?_
  by_cases hforced : (forced && overrides.isEmpty) = true
  · simp only [hforced, if_true]
    exact push sizeOverride
  · simp only [hforced]
    exact none.mono (Nat.zero_le 1)

theorem writeExtension (wide : Bool) (place : Placement) :
    Adds 1 fun buf => buf.writeExtension wide place := by
  refine after (fails_extensionBit place.rm) fun rm _ => ?_
  refine after (fails_extensionBit place.reg) fun reg _ => ?_
  by_cases hset : (wide || reg || rm) = true
  · simp only [hset, if_true]
    exact push _
  · simp only [hset]
    exact none.mono (Nat.zero_le 1)

theorem writeOpcodeRegister (opcode : Bytes) (rm : Option Nat) :
    Adds opcode.length fun buf => buf.writeOpcodeRegister opcode rm := by
  unfold InstructionBuffer.writeOpcodeRegister
  cases hlast : opcode.getLast? with
  | none => exact none.mono (Nat.zero_le _)
  | some last =>
      have hpos : 0 < opcode.length := List.length_pos_of_mem (List.mem_of_getLast? hlast)
      have hlength : opcode.dropLast.length + 1 = opcode.length := by
        rw [List.length_dropLast]
        omega
      rw [← hlength]
      exact (append opcode.dropLast).bind (push _)

theorem writeDisplacement (op : Option Operand) (rm : Nat) :
    Adds 4 fun buf => buf.writeDisplacement op rm := by
  rcases op with _ | r | ⟨r | disp⟩ | imm
  · exact none.mono (Nat.zero_le 4)
  · exact none.mono (Nat.zero_le 4)
  · unfold InstructionBuffer.writeDisplacement
    by_cases h5 : rm = 5
    · simp only [h5, if_true]
      exact (push 0).mono (by omega)
    · simp only [h5]
      exact none.mono (Nat.zero_le 4)
  · refine after (fails_displacementBytes disp) fun bytes hbytes => ?_
    rw [← length_displacementBytes hbytes]
    exact append bytes
  · exact none.mono (Nat.zero_le 4)

theorem writeFields (place : Placement) (rm : Nat) :
    Adds 6 fun buf => buf.writeFields place rm := by
  refine after (fails_fieldBits place.reg place.regSlot) fun reg _ => ?_
  refine bind (m := 1) (n := 5) (push _) ?_
  cases sibBase? place.rm rm with
  | none => exact (writeDisplacement place.rm rm).mono (by omega)
  | some base => exact bind (m := 1) (n := 4) (push _) (writeDisplacement place.rm rm)

theorem writeOpcode (opcode : Bytes) (registerInOpcode : Bool) (place : Placement) :
    Adds (opcode.length + 6) fun buf => buf.writeOpcode opcode registerInOpcode place := by
  refine after (fails_fieldBits place.rm place.rmSlot) fun rm _ => ?_
  cases registerInOpcode with
  | true => exact (writeOpcodeRegister opcode rm).mono (by omega)
  | false =>
      refine (append opcode).bind ?_
      cases rm with
      | none => exact none.mono (Nat.zero_le 6)
      | some rm => exact writeFields place rm

theorem writeImmediate (layout : Imm16Layout) (imm : Immediate) :
    Adds 8 fun buf => buf.writeImmediate layout imm := by
  cases imm with
  | imm8 v => exact (push _).mono (by omega)
  | imm16 v =>
      cases layout with
      | fourBytes => exact (append _).mono (by simp)
      | twoBytes => exact (append _).mono (by simp)
  | imm32 v => exact (append _).mono (by simp)
  | imm64 v => exact (append _).mono (by simp)

theorem writeConstant (layout : Imm16Layout) (imm? : Option Immediate) :
    Adds 8 fun buf =>
      match imm? with
      | some imm => buf.writeImmediate layout imm
      | .none => pure buf := by
  cases imm? with
  | none => exact none.mono (Nat.zero_le 8)
  | some imm => exact writeImmediate layout imm

end Adds

/-- A form with a short opcode fails for malformed operands alone, whether or not it accepts the
others. -/
theorem Form.fails_malformed (form : Form) (layout : Imm16Layout) (ops : List Operand)
    (h : form.opcode.length ≤ 8) : FailsMalformed (form.encode layout ops) := by
  have hopcode : (form.opcode.takeWhile (· == sizeOverride)).length +
      (form.opcode.dropWhile (· == sizeOverride)).length = form.opcode.length := by
    rw [← List.length_append, List.takeWhile_append_dropWhile]
  have hall := (Adds.writeOverrides (form.opcode.takeWhile (· == sizeOverride))
    (needsOverride layout ops)).bind <|
      (Adds.writeExtension form.wide (Placement.of form.slots ops)).bind <|
        (Adds.writeOpcode (form.opcode.dropWhile (· == sizeOverride)) form.registerInOpcode
          (Placement.of form.slots ops)).bind <|
            Adds.writeConstant layout ((Placement.of form.slots ops).immediate? ops)
  have hroom : InstructionBuffer.empty.size = 0 := rfl
  exact (hall InstructionBuffer.empty (by rw [hroom, instructionCapacity]; omega)).1

/-! ### Lengths -/

theorem Placement.mem_of {slots : List Slot} {ops : List Operand} {op : Operand}
    (h : op ∈ (Placement.of slots ops).rm ∨ op ∈ (Placement.of slots ops).reg) : op ∈ ops := by
  have hmem : ∀ {i : Nat}, op ∈ ops[i]? → op ∈ ops := fun hop => List.mem_of_getElem? hop
  unfold Placement.of at h
  split at h
  · exact h.elim hmem hmem
  · exact h.elim hmem hmem

theorem Placement.mem_of_immediate? {slots : List Slot} {ops : List Operand} {imm : Immediate}
    (h : (Placement.of slots ops).immediate? ops = some imm) : .immediate imm ∈ ops := by
  obtain ⟨op, hop, himm⟩ := List.exists_of_findSome?_eq_some h
  obtain rfl : op = .immediate imm := by
    cases op with
    | register r => cases himm
    | memory a => cases himm
    | immediate imm' =>
        cases himm
        rfl
  rcases List.mem_append.mp hop with hop | hop
  · apply mem_of
    rcases List.mem_append.mp hop with hop | hop
    · exact .inl (Option.mem_toList.mp hop)
    · exact .inr (Option.mem_toList.mp hop)
  · exact List.mem_of_mem_drop hop

theorem Immediate.length_bytes_le {imm : Immediate} (h : imm.width ≠ .qword)
    (layout : Imm16Layout) : (imm.bytes layout).length ≤ 4 := by
  cases imm with
  | imm8 v => simp [bytes]
  | imm16 v => cases layout <;> simp [bytes]
  | imm32 v => simp [bytes]
  | imm64 v => exact absurd rfl h

/-- Only an operand in memory needs more than the register fields. -/
theorem length_fieldsBytes {place : Placement} {rm : Nat} {bytes : Bytes}
    (h : fieldsBytes place rm = .ok bytes) :
    bytes.length ≤ 6 ∧ ((∀ a, place.rm ≠ some (.memory a)) → bytes.length = 1) := by
  obtain ⟨reg, _, h⟩ := bind_eq_ok.mp h
  obtain ⟨disp, hdisp, h⟩ := bind_eq_ok.mp h
  cases h
  generalize place.rm = op at hdisp ⊢
  rcases op with _ | r | ⟨r | value⟩ | imm
  · cases hdisp
    simp [sibBase?]
  · cases hdisp
    simp [sibBase?]
  · cases hdisp
    refine ⟨?_, fun hnot => absurd rfl (hnot _)⟩
    simp only [sibBase?]
    split <;> split <;> simp
  · refine ⟨?_, fun hnot => absurd rfl (hnot _)⟩
    simp [sibBase?, length_displacementBytes hdisp]
  · cases hdisp
    simp [sibBase?]

namespace Form

variable {form : Form} {ops : List Operand} {layout : Imm16Layout} {bytes : Bytes}

/-- The number of bytes that encodings in the form do not pass. -/
def longest (form : Form) : Nat :=
  (if form.overridden || form.wordConstant then 1 else 0) + 1 + 1 +
    (if form.registerInOpcode then 0 else 1) +
    (if .typed .memory .qword ∈ form.slots then 5 else 0) +
    (if form.slots.any (·.kind = .immediate) then 4 else 0)

/-- Whether the constants of the form have at most 32 bits. -/
def shortConstants (form : Form) : Bool :=
  form.slots.all fun slot => slot ≠ .typed .immediate .qword

theorem exists_slot (h : form.accepts ops = true) {op : Operand} (hop : op ∈ ops) :
    ∃ slot ∈ form.slots, slot.accepts op = true := by
  replace h := accepts_iff.mp h
  generalize form.slots = slots at h ⊢
  induction h with
  | nil => cases hop
  | cons haccepts _ ih =>
      rcases List.mem_cons.mp hop with rfl | hop
      · exact ⟨_, List.mem_cons_self, haccepts⟩
      · obtain ⟨slot, hslot, haccepts⟩ := ih hop
        exact ⟨slot, List.mem_cons_of_mem _ hslot, haccepts⟩

theorem wordConstant_of_needsOverride (h : form.accepts ops = true)
    (hneeds : needsOverride layout ops = true) : form.wordConstant = true := by
  rw [needsOverride, Bool.and_eq_true, List.any_eq_true] at hneeds
  obtain ⟨op, hop, himm⟩ := hneeds.2
  obtain ⟨slot, hslot, haccepts⟩ := exists_slot h hop
  rw [wordConstant, List.any_eq_true]
  exact ⟨slot, hslot, decide_eq_true ((Slot.isWordConstant_of_accepts haccepts).mpr himm)⟩

theorem width_ne_qword (h : form.accepts ops = true) (hshort : form.shortConstants = true)
    {imm : Immediate} (himm : .immediate imm ∈ ops) : imm.width ≠ .qword := by
  obtain ⟨slot, hslot, haccepts⟩ := exists_slot h himm
  intro hqword
  rw [shortConstants, List.all_eq_true] at hshort
  have hne := of_decide_eq_true (hshort slot hslot)
  rw [Slot.eq_of_accepts_immediate haccepts, hqword] at hne
  exact hne rfl

theorem length_constantBytes (h : form.accepts ops = true) (hshort : form.shortConstants = true) :
    (constantBytes layout ((Placement.of form.slots ops).immediate? ops)).length ≤
      if form.slots.any (·.kind = .immediate) then 4 else 0 := by
  cases himm : (Placement.of form.slots ops).immediate? ops with
  | none => exact Nat.zero_le _
  | some imm =>
      obtain ⟨slot, hslot, haccepts⟩ := exists_slot h (Placement.mem_of_immediate? himm)
      have heq := Slot.eq_of_accepts_immediate haccepts
      have hany : form.slots.any (·.kind = .immediate) = true := by
        rw [List.any_eq_true]
        exact ⟨slot, hslot, by rw [heq]; rfl⟩
      have hwidth := width_ne_qword h hshort (Placement.mem_of_immediate? himm)
      rw [if_pos hany]
      exact imm.length_bytes_le hwidth layout

theorem length_opcodeBytes (h : form.accepts ops = true) {opcode : UInt8} {code : Bytes}
    (hcode : opcodeBytes [opcode] form.registerInOpcode (Placement.of form.slots ops) = .ok code) :
    1 ≤ code.length ∧ code.length ≤ 1 + (if form.registerInOpcode then 0 else 1) +
      if .typed .memory .qword ∈ form.slots then 5 else 0 := by
  cases hreg : form.registerInOpcode with
  | true =>
      rw [hreg] at hcode
      obtain ⟨bits, _, rfl⟩ := opcodeBytes_register hcode
      simp
  | false =>
      rw [hreg] at hcode
      rcases opcodeBytes_fields hcode with ⟨_, rfl⟩ | ⟨rm, fields, _, hfields, rfl⟩
      · refine ⟨Nat.le_refl 1, ?_⟩
        rw [Nat.add_assoc]
        exact Nat.le_add_right 1 _
      · obtain ⟨hle, hone⟩ := length_fieldsBytes hfields
        rw [List.length_cons]
        by_cases hmemory : ∃ a, (Placement.of form.slots ops).rm = some (.memory a)
        · obtain ⟨a, ha⟩ := hmemory
          obtain ⟨slot, hslot, haccepts⟩ := exists_slot h (Placement.mem_of (.inl ha))
          rw [Slot.eq_of_accepts_memory haccepts] at hslot
          rw [if_neg Bool.false_ne_true, if_pos hslot]
          omega
        · rw [hone fun a ha => hmemory ⟨a, ha⟩, if_neg Bool.false_ne_true]
          omega

/-- An encoding is not empty and not longer than its form tells. -/
theorem length_bytes (h : form.accepts ops = true)
    (hopcode : form.opcode = (if form.overridden then [sizeOverride] else []) ++ [form.opcodeByte])
    (hplain : form.opcodeByte ≠ sizeOverride) (hshort : form.shortConstants = true)
    (hbytes : form.bytes layout ops = .ok bytes) :
    1 ≤ bytes.length ∧ bytes.length ≤ form.longest := by
  obtain ⟨reg, rm, code, _, _, hcode, rfl⟩ := (bytes_eq_ok_iff hopcode hplain).mp hbytes
  have hoverride : (if form.overridden || needsOverride layout ops then [sizeOverride] else
      []).length ≤ if form.overridden || form.wordConstant then 1 else 0 := by
    by_cases hneeds : needsOverride layout ops = true
    · simp [hneeds, wordConstant_of_needsOverride h hneeds]
    · cases form.overridden <;> simp [hneeds]
  have hextension : (if form.wide || reg || rm then [extensionByte form.wide reg rm] else
      []).length ≤ 1 := by
    split <;> simp
  obtain ⟨hpos, hlength⟩ := length_opcodeBytes h hcode
  have hconstant := @length_constantBytes form ops layout h hshort
  simp only [List.length_append, longest]
  omega

end Form

theorem table_longest : ∀ entry ∈ Form.table.rows.toList, ∀ form ∈ entry.2,
    form.opcodeByte ≠ sizeOverride ∧ form.shortConstants = true ∧ form.opcode.length ≤ 8 ∧
      form.longest ≤ 8 := by
  decide +kernel

/-! ### The outcome -/

theorem Instruction.encode_of_select {i : Instruction} {sel : Selection} (h : i.select = .ok sel)
    (layout : Imm16Layout) : i.encode layout = sel.form.encode layout sel.operands := by
  unfold encode
  rw [h]
  rfl

theorem Instruction.encode_of_noForm {i : Instruction} {d : Diagnostic} (h : i.select = .error d)
    (layout : Imm16Layout) : i.encode layout = .error (.diagnostic d) := by
  unfold encode
  rw [h]
  rfl

/-- An instruction has no form, or malformed operands, or an encoding of one to eight bytes. -/
theorem Instruction.encode_outcome (i : Instruction) (layout : Imm16Layout) :
    i.encode layout = .error (.diagnostic (.noEncoding i.render)) ∨
    (∃ f, i.encode layout = .error f ∧ f.Malformed) ∨
    ∃ buf, i.encode layout = .ok buf ∧ 1 ≤ buf.toList.length ∧ buf.toList.length ≤ 8 := by
  cases hselect : i.select with
  | error d =>
      obtain rfl := eq_noEncoding_of_select hselect
      exact .inl (encode_of_noForm hselect layout)
  | ok sel =>
      obtain ⟨haccepts, _, _⟩ := select_spec hselect
      obtain ⟨entry, hentry, _, earlier, later, hall, _⟩ := form_mem_table hselect
      obtain ⟨hplain, hshort, hopcode, hlongest⟩ :=
        table_longest entry hentry sel.form (by simp [hall])
      obtain ⟨row, _, hread⟩ := exists_row hselect
      obtain ⟨hform, _, _, _⟩ := Form.readAs_iff.mp hread
      rw [encode_of_select hselect]
      refine .inr ?_
      cases hcase : sel.form.encode layout sel.operands with
      | error f => exact .inl ⟨f, rfl, sel.form.fails_malformed layout sel.operands hopcode f hcase⟩
      | ok buf =>
          obtain ⟨hpos, hle⟩ := Form.length_bytes haccepts hform hplain hshort
            (Form.bytes_of_encode hcase)
          exact .inr ⟨buf, rfl, hpos, by omega⟩

end X64Asm
