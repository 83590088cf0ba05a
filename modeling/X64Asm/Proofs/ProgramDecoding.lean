import X64Asm.Proofs.FormDecoding

/-! # Decoding a program

The code of an instruction is decoded to the instruction (`Instruction.decode_encode`), and the
decoder stops just behind it.  So a sweep over the code of a whole program finds its instructions one
by one, whatever stands behind the program (`sweep_program`).

What is found again is said by `Recovers`: mnemonic, operands in order, and the width, except where
the machine works at another width than that of the operands. -/

namespace X64Asm

open Decoder

/-! ### Facts about the table -/

/-- The slots of a store between operands of the widths of a load. -/
def Form.storeSlots? (form : Form) : Option (List Slot) :=
  match form.slots with
  | [.typed .register w, .typed .memory w'] => some [.typed .memory w, .typed .register w']
  | _ => none

/-- Ahead of every load stands the store of the same widths. -/
theorem table_store_before_load : ∀ entry ∈ Form.table.rows.toList, ∀ k : Fin entry.2.length,
    entry.2[k].storeSlots?.all (fun slots => (entry.2.take k).any (·.slots = slots)) = true := by
  decide +kernel

/-- Whether the machine works on registers and memory at the width that the slots ask for. -/
def Form.keepsWidth (form : Form) (row : OpcodeRow) : Bool :=
  form.slots.all fun slot => slot.kind = .immediate || slot.width = form.machineWidth row

/-- Whether the mnemonic promises to work at the width of its operands in the given form.  Pushes and
pops do not, and neither does the move of a constant under an opcode that holds the register. -/
def Form.Exact (mnemonic : String) (form : Form) : Prop :=
  mnemonic = "add" ∨ mnemonic = "mov" ∧ form.opcode ≠ [0xB8]

instance (mnemonic : String) (form : Form) : Decidable (form.Exact mnemonic) :=
  inferInstanceAs (Decidable (_ ∨ _))

theorem table_keepsWidth : ∀ entry ∈ Form.table.rows.toList, ∀ form ∈ entry.2,
    form.Exact entry.1 → (opcodeRow? form.opcodeByte).all form.keepsWidth = true := by
  decide +kernel

/-! ### Selected forms -/

namespace Instruction

variable {i : Instruction} {sel : Selection} {row : OpcodeRow}

/-- A selected form stands in the table, under the mnemonic of the instruction. -/
theorem form_mem_table (h : i.select = .ok sel) :
    ∃ entry ∈ Form.table.rows.toList, entry.1 = i.mnemonic ∧ ∃ earlier later,
      entry.2 = earlier ++ sel.form :: later ∧ ∀ f ∈ earlier, f.accepts sel.operands = false := by
  obtain ⟨_, ⟨earlier, later, hall, hearlier⟩, _⟩ := select_spec h
  rcases Form.all_eq_nil_or_mem i.mnemonic with hnil | hmem
  · rw [hnil] at hall
    simp at hall
  · exact ⟨_, hmem, rfl, earlier, later, hall, hearlier⟩

theorem exists_row (h : i.select = .ok sel) :
    ∃ row, opcodeRow? sel.form.opcodeByte = some row ∧ sel.form.readAs i.mnemonic row = true := by
  obtain ⟨entry, hmem, hentry, earlier, later, hall, _⟩ := form_mem_table h
  have hread := table_readAs entry hmem sel.form (by simp [hall])
  rw [hentry] at hread
  cases hrow : opcodeRow? sel.form.opcodeByte with
  | none =>
      rw [hrow] at hread
      cases hread
  | some row =>
      rw [hrow] at hread
      exact ⟨row, rfl, hread⟩

/-- A store that takes the registers of a load is tried before it. -/
theorem store_mem_earlier {entry : String × List Form} (hmem : entry ∈ Form.table.rows.toList)
    {earlier later : List Form} {load : Form} (hall : entry.2 = earlier ++ load :: later)
    {w w' : Width} (hslots : load.slots = [.typed .register w, .typed .memory w']) :
    ∃ store ∈ earlier, store.slots = [.typed .memory w, .typed .register w'] := by
  have hk : earlier.length < entry.2.length := by
    rw [hall]
    simp
  have hstore := table_store_before_load entry hmem ⟨earlier.length, hk⟩
  have hload : entry.2[earlier.length] = load := by simp [hall]
  have htake : entry.2.take earlier.length = earlier := by simp [hall]
  simp only [Fin.getElem_fin, hload, htake, Form.storeSlots?, hslots, Option.all_some,
    List.any_eq_true, decide_eq_true_eq] at hstore
  exact hstore

/-- Where memory is asked for, a register is accepted too; so of two registers the store takes
both, and a load is left with a place in memory. -/
theorem memory_of_load (h : i.select = .ok sel) (hform : sel.form.placesAgree row = true)
    (hrow : row.pattern = .registerFields) : ∃ a address, sel.operands = [a, .memory address] := by
  obtain ⟨entry, hmem, _, earlier, later, hall, hearlier⟩ := form_mem_table h
  have haccepts := Form.accepts_iff.mp (select_spec h).1
  obtain ⟨w, w', hslots⟩ :
      ∃ w w', sel.form.slots = [.typed .register w, .typed .memory w'] := by
    unfold Form.placesAgree at hform
    rw [hrow] at hform
    split at hform
    case h_2 w w' _ hslots => exact ⟨w, w', hslots⟩
    all_goals contradiction
  rw [hslots] at haccepts
  generalize sel.operands = ops at haccepts hearlier ⊢
  rcases haccepts with _ | ⟨ha, _ | ⟨hb, _ | _⟩⟩
  obtain ⟨r, rfl, hr⟩ := Slot.accepts_register ha
  rcases Slot.accepts_memory hb with ⟨r', rfl, hr'⟩ | ⟨address, rfl, _⟩
  · obtain ⟨store, hstore, hslots'⟩ := store_mem_earlier hmem hall hslots
    have htaken : store.accepts [.register r, .register r'] = true := by
      rw [Form.accepts_iff, hslots']
      refine .cons ?_ (.cons ?_ .nil)
      · simp [Slot.accepts, Operand.width, Slot.width, Operand.kind, hr]
      · simp [Slot.accepts, Operand.width, Slot.width, Operand.kind, hr']
    rw [hearlier store hstore] at htaken
    cases htaken
  · exact ⟨_, address, rfl⟩

end Instruction

/-! ### One instruction -/

theorem Operand.Widens.place?_eq {a b : Operand} (h : a.Widens b) : b.place? = a.place? := by
  cases h with
  | refl => rfl
  | constant same _ => simp [place?, same]

/-- Widening a constant does not move it. -/
theorem Located.of_widens {ops wider : List Operand} {places : List Place}
    (h : List.Forall₂ Operand.Widens ops wider) (hplaces : Located wider places) :
    Located ops places := by
  induction h generalizing places with
  | nil => exact hplaces
  | cons hop _ ih =>
      cases hplaces with
      | cons hplace hplaces => exact .cons (hop.place?_eq ▸ hplace) (ih hplaces)

/-- The slot has the width of the operand, unless this is a constant, which may have been widened. -/
def Slot.Fits (slot : Slot) (op : Operand) : Prop :=
  op.immediate? = none → slot.kind ≠ .immediate ∧ op.width = slot.width

theorem Slot.fits_of_widens {slot : Slot} {op wider : Operand} (hop : op.Widens wider)
    (h : slot.accepts wider = true) : slot.Fits op := by
  intro himm
  cases hop with
  | constant => cases himm
  | refl =>
      refine ⟨?_, width_of_accepts h⟩
      intro hkind
      cases slot with
      | typed kind w =>
          obtain rfl : kind = .immediate := hkind
          obtain ⟨imm, rfl, _⟩ := accepts_immediate h
          cases himm
      | fixed name w => cases hkind

theorem Form.fits_of_widens {form : Form} {ops wider : List Operand}
    (hops : List.Forall₂ Operand.Widens ops wider) (h : form.accepts wider = true) :
    List.Forall₂ Slot.Fits form.slots ops := by
  have hall := accepts_iff.mp h
  clear h
  generalize form.slots = slots at hall ⊢
  induction hops generalizing slots with
  | nil =>
      cases hall with
      | nil => exact .nil
  | cons hop _ ih =>
      cases hall with
      | cons hslot hall => exact .cons (Slot.fits_of_widens hop hslot) (ih _ hall)

theorem Form.width_of_keepsWidth {form : Form} {row : OpcodeRow} {ops : List Operand}
    (h : form.keepsWidth row = true) (hfits : List.Forall₂ Slot.Fits form.slots ops) {op : Operand}
    (hop : op ∈ ops) (himm : op.immediate? = none) : op.width = form.machineWidth row := by
  unfold keepsWidth at h
  generalize form.slots = slots at h hfits
  induction hfits with
  | nil => cases hop
  | cons hslot _ ih =>
      simp only [List.all_cons, Bool.and_eq_true, Bool.or_eq_true, decide_eq_true_eq] at h
      rcases List.mem_cons.mp hop with rfl | hop
      · obtain ⟨hkind, hwidth⟩ := hslot himm
        rw [hwidth]
        exact h.1.resolve_left hkind
      · exact ih hop h.2

namespace Instruction

variable {i : Instruction} {buf : InstructionBuffer}

/-- The code of an instruction is read as the instruction, in the form that was selected for it. -/
theorem decode_encode (h : i.encode .twoBytes = .ok buf) :
    ∃ sel row places, i.select = .ok sel ∧ opcodeRow? sel.form.opcodeByte = some row ∧
      Located i.operands places ∧ ∀ rest, decode (buf.toList ++ rest) =
        some (⟨i.mnemonic, row.pattern, sel.form.machineWidth row, places⟩, rest) := by
  obtain ⟨sel, hsel, h⟩ := bind_eq_ok.mp h
  rw [mapError_eq_ok] at hsel
  obtain ⟨haccepts, _, hwidens⟩ := select_spec hsel
  obtain ⟨row, hrow, hread⟩ := exists_row hsel
  obtain ⟨_, _, _, hplaces⟩ := Form.readAs_iff.mp hread
  obtain ⟨places, hlocated, hdecode⟩ := Form.decode_bytes hread haccepts
    (memory_of_load hsel hplaces) (Form.bytes_of_encode h)
  exact ⟨sel, row, places, hsel, hrow, hlocated.of_widens hwidens, hdecode⟩

/-- The machine works at the width of the operands where the form promises it. -/
theorem width_eq_machineWidth {sel : Selection} {row : OpcodeRow} (h : i.select = .ok sel)
    (hrow : opcodeRow? sel.form.opcodeByte = some row) (hexact : sel.form.Exact i.mnemonic)
    {op : Operand} (hop : op ∈ i.operands) (himm : op.immediate? = none) :
    op.width = sel.form.machineWidth row := by
  obtain ⟨haccepts, _, hwidens⟩ := select_spec h
  obtain ⟨entry, hmem, hentry, earlier, later, hall, _⟩ := form_mem_table h
  have hkeeps := table_keepsWidth entry hmem sel.form (by simp [hall]) (hentry ▸ hexact)
  rw [hrow, Option.all_some] at hkeeps
  exact Form.width_of_keepsWidth hkeeps (Form.fits_of_widens hwidens haccepts) hop himm

end Instruction

/-! ### A whole program -/

/-- What the decoder read is the instruction. -/
structure Recovers (i : Instruction) (d : Decoded) : Prop where
  mnemonic : d.mnemonic = i.mnemonic
  /-- Each operand is found in its place: the register by number, the address by base and
  displacement, the constant by value. -/
  operands : Located i.operands d.operands
  width : ∀ sel, i.select = .ok sel → sel.form.Exact i.mnemonic →
    ∀ op ∈ i.operands, op.immediate? = none → op.width = d.width

theorem Instruction.recovers_of_encode {i : Instruction} {buf : InstructionBuffer}
    (h : i.encode .twoBytes = .ok buf) :
    ∃ d, Recovers i d ∧ ∀ rest, decode (buf.toList ++ rest) = some (d, rest) := by
  obtain ⟨sel, row, places, hsel, hrow, hlocated, hdecode⟩ := decode_encode h
  refine ⟨_, ⟨rfl, hlocated, ?_⟩, hdecode⟩
  intro sel' hsel' hexact op hop himm
  rw [hsel] at hsel'
  cases hsel'
  exact width_eq_machineWidth hsel hrow hexact hop himm

theorem sweep_nil : sweep [] = ([], []) := by
  rw [sweep]
  rfl

/-- A sweep takes off the instruction that stands in front. -/
theorem sweep_append {code : Bytes} {d : Decoded}
    (h : ∀ rest, decode (code ++ rest) = some (d, rest)) (rest : Bytes) :
    sweep (code ++ rest) = ((d, code) :: (sweep rest).1, (sweep rest).2) := by
  have hcode : 0 < code.length := by
    rcases code with _ | ⟨byte, code⟩
    · cases h []
    · exact Nat.succ_pos _
  rw [sweep, h]
  simp [hcode]

/-- The code of a program is read as its instructions one after another, each from its own bytes and
no others, and then what follows the program is read as if it stood alone. -/
theorem sweep_program {program : List Instruction} {codes : List InstructionBuffer}
    (h : program.mapM (·.encode .twoBytes) = .ok codes) :
    ∃ decoded, List.Forall₂ Recovers program decoded ∧
      sweep (codes.flatMap (·.toList)) = (decoded.zip (codes.map (·.toList)), []) ∧
      ∀ rest, sweep (codes.flatMap (·.toList) ++ rest) =
        (decoded.zip (codes.map (·.toList)) ++ (sweep rest).1, (sweep rest).2) := by
  suffices hsuff : ∃ decoded, List.Forall₂ Recovers program decoded ∧
      ∀ rest, sweep (codes.flatMap (·.toList) ++ rest) =
        (decoded.zip (codes.map (·.toList)) ++ (sweep rest).1, (sweep rest).2) by
    obtain ⟨decoded, hdecoded, hsweep⟩ := hsuff
    refine ⟨decoded, hdecoded, ?_, hsweep⟩
    have hend := hsweep []
    rwa [sweep_nil, List.append_nil, List.append_nil] at hend
  induction program generalizing codes with
  | nil =>
      cases h
      exact ⟨[], .nil, fun rest => rfl⟩
  | cons i program ih =>
      rw [List.mapM_cons] at h
      obtain ⟨buf, hbuf, h⟩ := bind_eq_ok.mp h
      obtain ⟨codes, hcodes, h⟩ := bind_eq_ok.mp h
      cases h
      obtain ⟨d, hd, hdecode⟩ := Instruction.recovers_of_encode hbuf
      obtain ⟨decoded, hdecoded, hsweep⟩ := ih hcodes
      refine ⟨d :: decoded, .cons hd hdecoded, fun rest => ?_⟩
      rw [List.flatMap_cons, List.append_assoc, sweep_append hdecode, hsweep]
      rfl

/-- Bases that need a scale-index-base byte or a displacement of zero, an address without base, a
16-bit constant, and a constant that is widened. -/
def awkwardProgram : List Instruction := [
  ⟨64, "mov", [.memory (.base ⟨"r12", .qword⟩), .register ⟨"rax", .qword⟩]⟩,
  ⟨64, "add", [.register ⟨"r8", .qword⟩, .memory (.base ⟨"r13", .qword⟩)]⟩,
  ⟨64, "mov", [.register ⟨"rcx", .qword⟩, .atDisplacement (-8)]⟩,
  ⟨64, "push", [.constant 1000]⟩,
  ⟨64, "mov", [.register ⟨"r9", .qword⟩, .constant (-1)]⟩]

theorem sweep_awkwardProgram : ∃ codes decoded,
    awkwardProgram.mapM (·.encode .twoBytes) = .ok codes ∧
    List.Forall₂ Recovers awkwardProgram decoded ∧
    sweep [0x49, 0x89, 0x04, 0x24, 0x4D, 0x03, 0x45, 0x00, 0x48, 0x8B, 0x0C, 0x25, 0xF8, 0xFF, 0xFF,
        0xFF, 0x66, 0x68, 0xE8, 0x03, 0x41, 0xB9, 0xFF, 0xFF, 0xFF, 0xFF] =
      (decoded.zip [[0x49, 0x89, 0x04, 0x24], [0x4D, 0x03, 0x45, 0x00],
        [0x48, 0x8B, 0x0C, 0x25, 0xF8, 0xFF, 0xFF, 0xFF], [0x66, 0x68, 0xE8, 0x03],
        [0x41, 0xB9, 0xFF, 0xFF, 0xFF, 0xFF]], []) := by
  have hbytes : Except.map (List.map (·.toList)) (awkwardProgram.mapM (·.encode .twoBytes)) =
      .ok [[0x49, 0x89, 0x04, 0x24], [0x4D, 0x03, 0x45, 0x00],
        [0x48, 0x8B, 0x0C, 0x25, 0xF8, 0xFF, 0xFF, 0xFF], [0x66, 0x68, 0xE8, 0x03],
        [0x41, 0xB9, 0xFF, 0xFF, 0xFF, 0xFF]] := by
    decide +kernel
  obtain ⟨codes, hcodes, hbytes⟩ := map_eq_ok.mp hbytes
  obtain ⟨decoded, hdecoded, hsweep, _⟩ := sweep_program hcodes
  rw [List.flatMap_def, hbytes] at hsweep
  exact ⟨codes, decoded, hcodes, hdecoded, hsweep⟩

end X64Asm
