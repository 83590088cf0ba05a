import X64Asm.Proofs.ProgramDecoding

/-! # Instructions with the same code

Two written instructions with the same code have the same mnemonic, and their operands agree one by
one (`agree_of_sameCode`).  What the code does not tell apart is

* the width of a base register, since an address is always computed in 64 bits;
* the registers of 32 and of 64 bits that a push or a pop names, since the machine has but one such
  operation and the table lists it for both (`collide_push_pop_base`).

The proof reads both instructions back from their common code; what is left to show is that the
width at which the machine works tells the widths of the slots, which is a matter of the table. -/

namespace X64Asm

open Decoder

/-! ### Operands of a program text -/

/-- The operands that can be written down in a program. -/
inductive Operand.Written : Operand → Prop
  | register {text : String} {r : Register} (named : Register.parse? text = some r) :
      Written (.register r)
  | base {text : String} {r : Register} (named : Register.parse? text = some r) :
      Written (.memory (.base r))
  | displacement (value : Int32) : Written (.atDisplacement value)
  | constant (value : Int64) : Written (.constant value)

/-- Every operand of the instruction can be written down. -/
def Instruction.Written (i : Instruction) : Prop := ∀ op ∈ i.operands, op.Written

/-- The same operand, where registers have the same number and their widths are compared by one
relation for operands and by another for bases. -/
inductive Operand.Agree (registers bases : Width → Width → Prop) : Operand → Operand → Prop
  | register {r s : Register} (number : r.number = s.number) (width : registers r.width s.width) :
      Agree registers bases (.register r) (.register s)
  | base {r s : Register} (number : r.number = s.number) (width : bases r.width s.width) :
      Agree registers bases (.memory (.base r)) (.memory (.base s))
  | displacement (value : Immediate) :
      Agree registers bases (.memory (.displacement value)) (.memory (.displacement value))
  | constant (value : Immediate) : Agree registers bases (.immediate value) (.immediate value)

/-- The same instruction up to the widths of registers. -/
def Instruction.Agree (registers bases : Width → Width → Prop) (i j : Instruction) : Prop :=
  i.mnemonic = j.mnemonic ∧ List.Forall₂ (Operand.Agree registers bases) i.operands j.operands

/-- Widths between which the code of a mnemonic does not tell. -/
def SameCodeWidth (mnemonic : String) (w w' : Width) : Prop :=
  w = w' ∨ (mnemonic = "push" ∨ mnemonic = "pop") ∧
    (w = .dword ∧ w' = .qword ∨ w = .qword ∧ w' = .dword)

instance (mnemonic : String) (w w' : Width) : Decidable (SameCodeWidth mnemonic w w') :=
  inferInstanceAs (Decidable (_ ∨ _))

/-! ### Widths of slots -/

/-- Whether two slots ask for the same width, as far as code can tell. -/
def Slot.Alike (mnemonic : String) (s t : Slot) : Prop :=
  s.kind = .immediate ∨ SameCodeWidth mnemonic s.width t.width

instance (mnemonic : String) (s t : Slot) : Decidable (s.Alike mnemonic t) :=
  inferInstanceAs (Decidable (_ ∨ _))

/-- Forms that the decoder reads alike ask for the same widths, as far as code can tell. -/
theorem table_alike : ∀ entry ∈ Form.table.rows.toList, ∀ f ∈ entry.2, ∀ g ∈ entry.2,
    ∀ row ∈ opcodeRow? f.opcodeByte, ∀ row' ∈ opcodeRow? g.opcodeByte,
      row.pattern = row'.pattern → f.machineWidth row = g.machineWidth row' →
        List.Forall₂ (Slot.Alike entry.1) f.slots g.slots := by
  decide +kernel

/-- The rows of the table are told apart by their mnemonics. -/
theorem table_mnemonic_inj : ∀ entry ∈ Form.table.rows.toList,
    ∀ entry' ∈ Form.table.rows.toList, entry.1 = entry'.1 → entry = entry' := by
  decide +kernel

/-- The forms of two instructions ask for the same widths if the decoder reads them alike. -/
theorem Instruction.alike_of_select {i j : Instruction} {sel sel' : Selection}
    {row row' : OpcodeRow} (hi : i.select = .ok sel) (hj : j.select = .ok sel')
    (hrow : opcodeRow? sel.form.opcodeByte = some row)
    (hrow' : opcodeRow? sel'.form.opcodeByte = some row') (hmnemonic : i.mnemonic = j.mnemonic)
    (hpattern : row.pattern = row'.pattern)
    (hwidth : sel.form.machineWidth row = sel'.form.machineWidth row') :
    List.Forall₂ (Slot.Alike i.mnemonic) sel.form.slots sel'.form.slots := by
  obtain ⟨entry, hmem, hentry, earlier, later, hall, _⟩ := form_mem_table hi
  obtain ⟨entry', hmem', hentry', earlier', later', hall', _⟩ := form_mem_table hj
  obtain rfl : entry = entry' :=
    table_mnemonic_inj entry hmem entry' hmem' (hentry.trans (hmnemonic.trans hentry'.symm))
  rw [← hentry]
  apply table_alike entry hmem sel.form _ sel'.form _ row hrow row' hrow' hpattern hwidth
  · simp [hall]
  · simp [hall']

/-! ### Operands in the same place -/

theorem Immediate.value_fit (v : Int64) : (fit v).value = v.toInt := by
  unfold fit
  split
  · next h => exact (v.toInt_toInt8).trans (h.bmod_eq (by decide))
  · split
    · next h => exact (v.toInt_toInt16).trans (h.bmod_eq (by decide))
    · split
      · next h => exact (v.toInt_toInt32).trans (h.bmod_eq (by decide))
      · rfl

theorem toOption_eq_some {ε α : Type} {x : Except ε α} {a : α} :
    x.toOption = some a ↔ x = .ok a := by
  cases x <;> simp [Except.toOption]

namespace Operand

variable {a b op : Operand} {n : Register.Number} {v : Int}

theorem place?_eq_register (h : op.place? = some (.register n)) :
    ∃ r, op = .register r ∧ r.number = .ok n := by
  rcases op with r | ⟨r | disp⟩ | imm
  · obtain ⟨m, hm, e⟩ := Option.map_eq_some_iff.mp h
    cases e
    exact ⟨r, rfl, toOption_eq_some.mp hm⟩
  · obtain ⟨m, hm, e⟩ := Option.map_eq_some_iff.mp h
    cases e
  · cases h
  · cases h

theorem place?_eq_base (h : op.place? = some (.memory ⟨.register n, none, 0⟩)) :
    ∃ r, op = .memory (.base r) ∧ r.number = .ok n := by
  rcases op with r | ⟨r | disp⟩ | imm
  · obtain ⟨m, hm, e⟩ := Option.map_eq_some_iff.mp h
    cases e
  · obtain ⟨m, hm, e⟩ := Option.map_eq_some_iff.mp h
    cases e
    exact ⟨r, rfl, toOption_eq_some.mp hm⟩
  · cases h
  · cases h

theorem place?_eq_displacement (h : op.place? = some (.memory ⟨.absent, none, v⟩)) :
    ∃ disp, op = .memory (.displacement disp) ∧ disp.value = v := by
  rcases op with r | ⟨r | disp⟩ | imm
  · obtain ⟨m, hm, e⟩ := Option.map_eq_some_iff.mp h
    cases e
  · obtain ⟨m, hm, e⟩ := Option.map_eq_some_iff.mp h
    cases e
  · cases h
    exact ⟨disp, rfl, rfl⟩
  · cases h

theorem place?_eq_constant (h : op.place? = some (.constant v)) :
    ∃ imm, op = .immediate imm ∧ imm.value = v := by
  rcases op with r | ⟨r | disp⟩ | imm
  · obtain ⟨m, hm, e⟩ := Option.map_eq_some_iff.mp h
    cases e
  · obtain ⟨m, hm, e⟩ := Option.map_eq_some_iff.mp h
    cases e
  · cases h
  · cases h
    exact ⟨imm, rfl, rfl⟩

theorem Written.displacement_inj {disp : Immediate} {value : Int32}
    (h : Written (.memory (.displacement disp))) (hvalue : disp.value = value.toInt) :
    disp = .imm32 value := by
  cases h with
  | displacement value' => rw [Int32.toInt_inj.mp hvalue]

theorem Written.constant_inj {imm : Immediate} {value : Int64} (h : Written (.immediate imm))
    (hvalue : imm.value = value.toInt) : imm = .fit value := by
  cases h with
  | constant value' =>
      rw [Immediate.value_fit, Int64.toInt_inj] at hvalue
      rw [hvalue]

/-- Written operands that the machine finds in the same place agree, if the widths of registers
do. -/
theorem agree_of_place? {registers : Width → Width → Prop} {p : Place} (ha : a.Written)
    (hb : b.Written) (hpa : a.place? = some p) (hpb : b.place? = some p)
    (hwidth : a.immediate? = none → b.immediate? = none → registers a.width b.width) :
    Agree registers (fun _ _ => True) a b := by
  cases ha with
  | register _ =>
      obtain ⟨n, hn, rfl⟩ := Option.map_eq_some_iff.mp hpa
      obtain ⟨s, rfl, hs⟩ := place?_eq_register hpb
      exact .register ((toOption_eq_some.mp hn).trans hs.symm) (hwidth rfl rfl)
  | base _ =>
      obtain ⟨n, hn, rfl⟩ := Option.map_eq_some_iff.mp hpa
      obtain ⟨s, rfl, hs⟩ := place?_eq_base hpb
      exact .base ((toOption_eq_some.mp hn).trans hs.symm) trivial
  | displacement value =>
      cases hpa
      obtain ⟨disp, rfl, hdisp⟩ := place?_eq_displacement hpb
      rw [hb.displacement_inj hdisp]
      exact .displacement _
  | constant value =>
      cases hpa
      obtain ⟨imm, rfl, himm⟩ := place?_eq_constant hpb
      rw [hb.constant_inj (himm.trans (Immediate.value_fit value))]
      exact .constant _

end Operand

/-- Operand lists in the same places agree, if they fit slots that ask for the same widths. -/
theorem agree_of_located {mnemonic : String} {slots slots' : List Slot} {as bs : List Operand}
    {places : List Place} (hslots : List.Forall₂ (Slot.Alike mnemonic) slots slots')
    (has : List.Forall₂ Slot.Fits slots as) (hbs : List.Forall₂ Slot.Fits slots' bs)
    (hwas : ∀ op ∈ as, op.Written) (hwbs : ∀ op ∈ bs, op.Written)
    (hlas : Located as places) (hlbs : Located bs places) :
    List.Forall₂ (Operand.Agree (SameCodeWidth mnemonic) fun _ _ => True) as bs := by
  induction hslots generalizing as bs places with
  | nil =>
      cases has
      cases hbs
      exact .nil
  | cons halike _ ih =>
      rcases has with _ | ⟨hfit, has⟩
      rcases hbs with _ | ⟨hfit', hbs⟩
      rcases hlas with _ | ⟨hplace, hlas⟩
      rcases hlbs with _ | ⟨hplace', hlbs⟩
      rw [List.forall_mem_cons] at hwas hwbs
      refine .cons ?_ (ih has hbs hwas.2 hwbs.2 hlas hlbs)
      apply Operand.agree_of_place? hwas.1 hwbs.1 hplace hplace'
      intro himm himm'
      obtain ⟨hkind, hwidth⟩ := hfit himm
      rw [hwidth, (hfit' himm').2]
      exact halike.resolve_left hkind

/-! ### Instructions -/

/-- Both instructions can be encoded, and to the same bytes. -/
def SameCode (i j : Instruction) : Prop :=
  ∃ code : Bytes, (i.encode .twoBytes).map (·.toList) = .ok code ∧
    (j.encode .twoBytes).map (·.toList) = .ok code

/-- Written instructions with the same code agree, except for the width of bases and for what pushes
and pops do not tell apart. -/
theorem agree_of_sameCode {i j : Instruction} (hi : i.Written) (hj : j.Written)
    (h : SameCode i j) : i.Agree (SameCodeWidth i.mnemonic) (fun _ _ => True) j := by
  obtain ⟨code, hcode, hcode'⟩ := h
  obtain ⟨buf, hbuf, rfl⟩ := map_eq_ok.mp hcode
  obtain ⟨buf', hbuf', hbytes⟩ := map_eq_ok.mp hcode'
  obtain ⟨sel, row, places, hsel, hrow, hlocated, hdecode⟩ := Instruction.decode_encode hbuf
  obtain ⟨sel', row', places', hsel', hrow', hlocated', hdecode'⟩ :=
    Instruction.decode_encode hbuf'
  have hread := hdecode []
  rw [← hbytes, hdecode'] at hread
  simp only [Option.some.injEq, Prod.mk.injEq, Decoded.mk.injEq, and_true] at hread
  obtain ⟨hmnemonic, hpattern, hwidth, rfl⟩ := hread
  obtain ⟨haccepts, _, hwidens⟩ := Instruction.select_spec hsel
  obtain ⟨haccepts', _, hwidens'⟩ := Instruction.select_spec hsel'
  refine ⟨hmnemonic.symm, ?_⟩
  apply agree_of_located _ (Form.fits_of_widens hwidens haccepts)
    (Form.fits_of_widens hwidens' haccepts') hi hj hlocated hlocated'
  exact Instruction.alike_of_select hsel hsel' hrow hrow' hmnemonic.symm hpattern.symm hwidth.symm

theorem agree_of_sameCode_pop :
    SameCode ⟨64, "pop", [.register ⟨"r9d", .dword⟩]⟩ ⟨64, "pop", [.register ⟨"r9", .qword⟩]⟩ ∧
    Instruction.Agree (SameCodeWidth "pop") (fun _ _ => True)
      ⟨64, "pop", [.register ⟨"r9d", .dword⟩]⟩ ⟨64, "pop", [.register ⟨"r9", .qword⟩]⟩ := by
  have hcode : SameCode ⟨64, "pop", [.register ⟨"r9d", .dword⟩]⟩
      ⟨64, "pop", [.register ⟨"r9", .qword⟩]⟩ :=
    ⟨[0x41, 0x59], by decide +kernel, by decide +kernel⟩
  have hr9d : Register.parse? "r9d" = some ⟨"r9d", .dword⟩ := by decide +kernel
  have hr9 : Register.parse? "R9" = some ⟨"r9", .qword⟩ := by decide +kernel
  refine ⟨hcode, agree_of_sameCode ?_ ?_ hcode⟩
  · exact List.forall_mem_singleton.mpr (.register hr9d)
  · exact List.forall_mem_singleton.mpr (.register hr9)

/-- Two written instructions have the same code and differ, if all widths count. -/
def Collide (i j : Instruction) : Prop :=
  i.Written ∧ j.Written ∧ SameCode i j ∧ ¬ i.Agree Eq Eq j

/-- The code does not tell the widths of registers that are pushed or popped, nor those of bases. -/
theorem collide_push_pop_base :
    Collide ⟨64, "push", [.register ⟨"eax", .dword⟩]⟩ ⟨64, "push", [.register ⟨"rax", .qword⟩]⟩ ∧
    Collide ⟨64, "pop", [.register ⟨"eax", .dword⟩]⟩ ⟨64, "pop", [.register ⟨"rax", .qword⟩]⟩ ∧
    Collide ⟨64, "mov", [.register ⟨"rax", .qword⟩, .memory (.base ⟨"eax", .dword⟩)]⟩
      ⟨64, "mov", [.register ⟨"rax", .qword⟩, .memory (.base ⟨"rax", .qword⟩)]⟩ := by
  have heax : Register.parse? "eax" = some ⟨"eax", .dword⟩ := by decide +kernel
  have hrax : Register.parse? "rax" = some ⟨"rax", .qword⟩ := by decide +kernel
  refine ⟨⟨?_, ?_, ?_, ?_⟩, ⟨?_, ?_, ?_, ?_⟩, ⟨?_, ?_, ?_, ?_⟩⟩
  · exact List.forall_mem_singleton.mpr (.register heax)
  · exact List.forall_mem_singleton.mpr (.register hrax)
  · exact ⟨[0x50], by decide +kernel, by decide +kernel⟩
  · rintro ⟨_, _ | ⟨⟨_, hwidth⟩, _⟩⟩
    cases hwidth
  · exact List.forall_mem_singleton.mpr (.register heax)
  · exact List.forall_mem_singleton.mpr (.register hrax)
  · exact ⟨[0x58], by decide +kernel, by decide +kernel⟩
  · rintro ⟨_, _ | ⟨⟨_, hwidth⟩, _⟩⟩
    cases hwidth
  · exact List.forall_mem_cons.mpr ⟨.register hrax, List.forall_mem_singleton.mpr (.base heax)⟩
  · exact List.forall_mem_cons.mpr ⟨.register hrax, List.forall_mem_singleton.mpr (.base hrax)⟩
  · exact ⟨[0x48, 0x8B, 0x00], by decide +kernel, by decide +kernel⟩
  · rintro ⟨_, _ | ⟨_, _ | ⟨hbase, _⟩⟩⟩
    cases hbase with
    | base _ hwidth => cases hwidth

end X64Asm
