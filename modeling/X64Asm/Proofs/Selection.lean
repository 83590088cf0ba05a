import Mathlib.Data.List.Forall2
import X64Asm.Form.Selection
import X64Asm.Proofs.SortedTable

/-! # What a selection is

The form that is selected is the first of its mnemonic that accepts the operands for which it was
selected (`select_spec`).  These operands are those of the instruction, except that constants may be
wider and then have the same value (`Operand.Widens`).

`Form.accepts_iff` and the lemmas on `Slot.accepts` say which operands a slot lets through. -/

namespace X64Asm

/-! ### Widening -/

/-- The second operand is the first, or the same constant at a width that is no smaller. -/
inductive Operand.Widens : Operand → Operand → Prop
  | refl (op : Operand) : Widens op op
  | constant {m n : Immediate} (same : n.value = m.value) (wider : m.width ≤ n.width) :
      Widens (.immediate m) (.immediate n)

theorem Immediate.width_le_widen (imm : Immediate) : imm.width ≤ imm.widen.width := by
  cases imm <;> simp only [widen, width] <;> decide

theorem Operand.Widens.trans {a b c : Operand} (hab : a.Widens b) (hbc : b.Widens c) :
    a.Widens c := by
  cases hab with
  | refl => exact hbc
  | constant same wider =>
      cases hbc with
      | refl => exact .constant same wider
      | constant same' wider' =>
          exact .constant (same'.trans same) (Nat.le_trans wider wider')

instance : Std.Refl Operand.Widens := ⟨.refl⟩

theorem forall₂_widens_trans {as bs cs : List Operand} (hab : List.Forall₂ Operand.Widens as bs)
    (hbc : List.Forall₂ Operand.Widens bs cs) : List.Forall₂ Operand.Widens as cs := by
  induction hab generalizing cs with
  | nil => exact hbc
  | cons h _ ih =>
      cases hbc with
      | cons h' hbc => exact .cons (h.trans h') (ih hbc)

theorem widens_widenFirst? {ops wider : List Operand} (h : widenFirst? ops = some wider) :
    List.Forall₂ Operand.Widens ops wider := by
  fun_induction widenFirst? ops generalizing wider with
  | case1 => cases h
  | case2 imm ops _ =>
      cases h
      exact .cons (.constant imm.value_widen imm.width_le_widen) (List.forall₂_refl ops)
  | case3 imm ops _ ih =>
      obtain ⟨rest, hrest, rfl⟩ := Option.map_eq_some_iff.mp h
      exact .cons (.refl _) (ih hrest)
  | case4 op ops _ ih =>
      obtain ⟨rest, hrest, rfl⟩ := Option.map_eq_some_iff.mp h
      exact .cons (.refl _) (ih hrest)

/-- Every operand list that is tried is a widening of the given one. -/
theorem widens_of_mem_widenings {ops tried : List Operand} (h : tried ∈ widenings ops) :
    List.Forall₂ Operand.Widens ops tried := by
  induction ops using widenings.induct with
  | case1 ops ih =>
      rw [widenings] at h
      rcases List.mem_cons.mp h with rfl | h
      · exact List.forall₂_refl tried
      · split at h
        · cases h
        · next wider hw => exact forall₂_widens_trans (widens_widenFirst? hw) (ih wider hw h)

/-! ### Slots -/

namespace Slot

variable {op : Operand} {w : Width}

theorem width_of_accepts {slot : Slot} (h : slot.accepts op = true) : op.width = slot.width := by
  simp only [accepts, Bool.and_eq_true, decide_eq_true_eq] at h
  exact h.1

theorem accepts_register (h : (typed .register w).accepts op = true) :
    ∃ r, op = .register r ∧ r.width = w := by
  have hw := width_of_accepts h
  cases op with
  | register r => exact ⟨r, rfl, hw⟩
  | memory a => simp [accepts, Operand.kind] at h
  | immediate imm => simp [accepts, Operand.kind] at h

/-- Where memory is asked for, a register of that width will do. -/
theorem accepts_memory (h : (typed .memory w).accepts op = true) :
    (∃ r, op = .register r ∧ r.width = w) ∨ ∃ a, op = .memory a ∧ w = .qword := by
  have hw := width_of_accepts h
  cases op with
  | register r => exact .inl ⟨r, rfl, hw⟩
  | memory a => exact .inr ⟨a, rfl, hw.symm⟩
  | immediate imm => simp [accepts, Operand.kind] at h

theorem accepts_immediate (h : (typed .immediate w).accepts op = true) :
    ∃ imm, op = .immediate imm ∧ imm.width = w := by
  have hw := width_of_accepts h
  cases op with
  | register r => simp [accepts, Operand.kind] at h
  | memory a => simp [accepts, Operand.kind] at h
  | immediate imm => exact ⟨imm, rfl, hw⟩

theorem accepts_fixed {name : String} (h : (fixed name w).accepts op = true) :
    ∃ r, op = .register r ∧ r.name = name ∧ r.width = w := by
  have hw := width_of_accepts h
  cases op with
  | register r =>
      simp only [accepts, Bool.and_eq_true, decide_eq_true_eq] at h
      exact ⟨r, rfl, h.2, hw⟩
  | memory a => simp [accepts] at h
  | immediate imm => simp [accepts] at h

/-- Only a slot for constants lets a constant through. -/
theorem eq_of_accepts_immediate {slot : Slot} {imm : Immediate}
    (h : slot.accepts (.immediate imm) = true) : slot = .typed .immediate imm.width := by
  have hw := width_of_accepts h
  cases slot with
  | typed kind w =>
      have hkind : kind = .immediate := by
        cases kind <;> simp [accepts, Operand.kind] at h ⊢
      rw [hkind, show imm.width = w from hw]
  | fixed name w => simp [accepts] at h

/-- Only a slot for memory lets an address through. -/
theorem eq_of_accepts_memory {slot : Slot} {a : Address}
    (h : slot.accepts (.memory a) = true) : slot = .typed .memory .qword := by
  have hw : Width.qword = slot.width := width_of_accepts h
  cases slot with
  | typed kind w =>
      have hkind : kind = .memory := by
        cases kind <;> simp [accepts, Operand.kind] at h ⊢
      rw [hkind, show w = .qword from hw.symm]
  | fixed name w => simp [accepts] at h

end Slot

/-! ### Forms -/

theorem Form.accepts_iff {form : Form} {ops : List Operand} :
    form.accepts ops = true ↔ List.Forall₂ (fun s op => Slot.accepts s op = true) form.slots ops := by
  rw [List.forall₂_iff_zip]
  simp only [accepts, Bool.and_eq_true, decide_eq_true_eq, List.all_eq_true, Prod.forall]

/-- If every operand of one sort needs a slot of another, there are at least as many such slots. -/
theorem Form.countP_le_of_accepts {form : Form} {ops : List Operand} {sort : Operand → Bool}
    {slotSort : Slot → Bool} (h : form.accepts ops = true)
    (hsort : ∀ {slot op}, Slot.accepts slot op = true → sort op = true → slotSort slot = true) :
    ops.countP sort ≤ form.slots.countP slotSort := by
  replace h := accepts_iff.mp h
  generalize form.slots = slots at h ⊢
  induction h with
  | nil => exact Nat.le_refl 0
  | @cons slot op _ _ hslot _ ih =>
      rw [List.countP_cons, List.countP_cons]
      by_cases hop : sort op = true
      · rw [if_pos hop, if_pos (hsort hslot hop)]
        omega
      · rw [if_neg hop]
        omega

/-- The forms of a mnemonic are a row of the table, or there are none. -/
theorem Form.all_eq_nil_or_mem (mnemonic : String) :
    all mnemonic = [] ∨ (mnemonic, all mnemonic) ∈ table.rows.toList := by
  unfold all
  cases h : table.find? mnemonic with
  | none => exact .inl rfl
  | some forms => exact .inr (SortedTable.mem_of_find? h)

/-- The selected form is the first that accepts the operands, which differ from those of the
instruction by widening alone. -/
theorem Instruction.select_spec {i : Instruction} {sel : Selection} (h : i.select = .ok sel) :
    sel.form.accepts sel.operands = true ∧
      (∃ earlier later, Form.all i.mnemonic = earlier ++ sel.form :: later ∧
        ∀ f ∈ earlier, f.accepts sel.operands = false) ∧
      List.Forall₂ Operand.Widens i.operands sel.operands := by
  unfold select at h
  split at h
  · next found hfound =>
    cases h
    obtain ⟨tried, hmem, hfirst⟩ := List.exists_of_findSome?_eq_some hfound
    obtain ⟨form, hform, rfl⟩ := Option.map_eq_some_iff.mp hfirst
    obtain ⟨haccepts, earlier, later, hall, hearlier⟩ := List.find?_eq_some_iff_append.mp hform
    refine ⟨haccepts, ⟨earlier, later, hall, ?_⟩, widens_of_mem_widenings hmem⟩
    intro f hf
    simpa using hearlier f hf
  · cases h

/-- Where no form is selected, the instruction is reported. -/
theorem Instruction.eq_noEncoding_of_select {i : Instruction} {d : Diagnostic}
    (h : i.select = .error d) : d = .noEncoding i.render := by
  unfold select at h
  split at h
  · cases h
  · cases h
    rfl

end X64Asm
