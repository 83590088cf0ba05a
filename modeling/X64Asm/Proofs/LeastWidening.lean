import X64Asm.Proofs.Selection

/-! # The narrowest operands that have a form

A selection tries the operands as they stand and then widens the first constant that can be widened,
step by step.  This is one chain through all the ways to widen the constants, and operands with
several constants can be widened in ways that lie off the chain.  Nothing is missed all the same: no
form of the table takes two constants (`table_oneConstant`).  So operands hold at most one constant if
some widening of them has a form, and then the chain goes through every widening of them
(`mem_widenings_of_widens`).

The chain ascends (`ascending_widenings`).  So the first of its members that has a form is the
narrowest of all widenings that have one: `Instruction.select_narrowest` says just when a form is
selected, and which. -/

namespace X64Asm

/-! ### Constants and their widths -/

/-- A constant is its value and its width. -/
theorem Immediate.ext_value_width {m n : Immediate} (hvalue : m.value = n.value)
    (hwidth : m.width = n.width) : m = n := by
  cases m <;> cases n <;> simp only [width, reduceCtorEq] at hwidth <;> congr 1
  · exact Int8.toInt_inj.mp hvalue
  · exact Int16.toInt_inj.mp hvalue
  · exact Int32.toInt_inj.mp hvalue
  · exact Int64.toInt_inj.mp hvalue

theorem Width.bits_injective {v w : Width} (h : v.bits = w.bits) : v = w := by
  cases v <;> cases w <;> simp_all [bits]

/-- A constant that is narrower than another can be widened and is then no wider than it. -/
theorem Immediate.widen_le_of_lt {m n : Immediate} (h : m.width.bits < n.width.bits) :
    m.canWiden = true ∧ m.widen.width ≤ n.width := by
  cases m <;> cases n <;> simp [canWiden, widen, width, Width.bits] at h ⊢ <;> decide

/-- Some constant of the first list is narrower than the one in its place in the second. -/
def Narrower (ops others : List Operand) : Prop :=
  ∃ (k : Nat) (m n : Immediate), ops[k]? = some (.immediate m) ∧
    others[k]? = some (.immediate n) ∧ m.width.bits < n.width.bits

theorem Narrower.cons {as bs : List Operand} (h : Narrower as bs) (a b : Operand) :
    Narrower (a :: as) (b :: bs) := by
  obtain ⟨k, m, n, hm, hn, hlt⟩ := h
  exact ⟨k + 1, m, n, hm, hn, hlt⟩

theorem not_narrower_of_widens {ops wider : List Operand}
    (h : List.Forall₂ Operand.Widens ops wider) : ¬ Narrower wider ops := by
  rintro ⟨k, m, n, hm, hn, hlt⟩
  induction h generalizing k with
  | nil => cases hm
  | cons hop _ ih =>
      cases k with
      | succ k => exact ih k hm hn
      | zero =>
          cases hm
          cases hn
          cases hop with
          | refl => exact Nat.lt_irrefl _ hlt
          | constant _ wider => exact Nat.not_lt.mpr wider hlt

theorem Operand.Widens.eq_of_width {op a b : Operand} (ha : op.Widens a) (hb : op.Widens b)
    (hwidth : ∀ m n, a = .immediate m → b = .immediate n → m.width = n.width) : a = b := by
  cases ha with
  | refl =>
      cases hb with
      | refl => rfl
      | constant same _ => rw [Immediate.ext_value_width same.symm (hwidth _ _ rfl rfl)]
  | constant same _ =>
      cases hb with
      | refl => rw [Immediate.ext_value_width same (hwidth _ _ rfl rfl)]
      | constant same' _ =>
          rw [Immediate.ext_value_width (same.trans same'.symm) (hwidth _ _ rfl rfl)]

/-- Two widenings of the same operands are equal if no constant of either is narrower. -/
theorem eq_of_not_narrower {ops as bs : List Operand} (has : List.Forall₂ Operand.Widens ops as)
    (hbs : List.Forall₂ Operand.Widens ops bs) (hab : ¬ Narrower as bs) (hba : ¬ Narrower bs as) :
    as = bs := by
  induction has generalizing bs with
  | nil =>
      cases hbs
      rfl
  | @cons op a ops as ha _ ih =>
      cases hbs with
      | @cons _ b _ bs hb hbs =>
          have hrest : as = bs := ih hbs (fun h => hab (h.cons a b)) (fun h => hba (h.cons b a))
          have hhead : a = b := by
            refine ha.eq_of_width hb ?_
            rintro m n rfl rfl
            have hle : n.width.bits ≤ m.width.bits :=
              Nat.not_lt.mp fun h => hab ⟨0, m, n, rfl, rfl, h⟩
            have hge : m.width.bits ≤ n.width.bits :=
              Nat.not_lt.mp fun h => hba ⟨0, n, m, rfl, rfl, h⟩
            exact Width.bits_injective (Nat.le_antisymm hge hle)
          rw [hhead, hrest]

/-! ### The chain of widenings -/

/-- How many of the operands are constants. -/
def constantCount (ops : List Operand) : Nat := ops.countP (·.kind = .immediate)

@[simp] theorem constantCount_cons_immediate (imm : Immediate) (ops : List Operand) :
    constantCount (.immediate imm :: ops) = constantCount ops + 1 := by
  simp [constantCount, Operand.kind]

theorem constantCount_le_cons (op : Operand) (ops : List Operand) :
    constantCount ops ≤ constantCount (op :: ops) := by
  rw [constantCount, constantCount, List.countP_cons]
  exact Nat.le_add_right _ _

theorem constantCount_pos {imm : Immediate} {ops : List Operand} (h : .immediate imm ∈ ops) :
    0 < constantCount ops :=
  List.countP_pos_iff.mpr ⟨_, h, rfl⟩

/-- Operands with at most one constant hold no two different ones. -/
theorem eq_of_constantCount_le_one {ops : List Operand} (hone : constantCount ops ≤ 1)
    {m n : Immediate} (hm : .immediate m ∈ ops) (hn : .immediate n ∈ ops) : m = n := by
  induction ops with
  | nil => cases hm
  | cons op ops ih =>
      have hrest := constantCount_le_cons op ops
      rcases List.mem_cons.mp hm with rfl | hmrest
      · rcases List.mem_cons.mp hn with heq | hnrest
        · cases heq
          rfl
        · have hpos := constantCount_pos hnrest
          rw [constantCount_cons_immediate] at hone
          omega
      · rcases List.mem_cons.mp hn with rfl | hnrest
        · have hpos := constantCount_pos hmrest
          rw [constantCount_cons_immediate] at hone
          omega
        · exact ih (by omega) hmrest hnrest

theorem Operand.Widens.kind_eq {a b : Operand} (h : a.Widens b) : b.kind = a.kind := by
  cases h with
  | refl => rfl
  | constant => rfl

theorem constantCount_of_widens {ops wider : List Operand}
    (h : List.Forall₂ Operand.Widens ops wider) : constantCount wider = constantCount ops := by
  unfold constantCount
  induction h with
  | nil => rfl
  | cons hop _ ih => rw [List.countP_cons, List.countP_cons, hop.kind_eq, ih]

theorem eq_of_widens_of_noConstant {ops wider : List Operand} (hnone : constantCount ops = 0)
    (h : List.Forall₂ Operand.Widens ops wider) : wider = ops := by
  induction h with
  | nil => rfl
  | @cons op op' ops wider hop _ ih =>
      have hrest := constantCount_le_cons op ops
      cases hop with
      | refl => rw [ih (by omega)]
      | constant => simp at hnone

/-- With at most one constant, a widening that goes beyond the operands goes beyond the next step of
the chain. -/
theorem eq_or_widens_widenFirst? {ops wider : List Operand} (hone : constantCount ops ≤ 1)
    (h : List.Forall₂ Operand.Widens ops wider) :
    wider = ops ∨ ∃ next, widenFirst? ops = some next ∧ List.Forall₂ Operand.Widens next wider := by
  induction h with
  | nil => exact .inl rfl
  | @cons op op' ops wider hop hops ih =>
      have hrest := constantCount_le_cons op ops
      cases op with
      | immediate m =>
          -- The one constant is the first operand, so the others stay as they are.
          have hnone : constantCount ops = 0 := by
            rw [constantCount_cons_immediate] at hone
            omega
          obtain rfl : ops = wider := (eq_of_widens_of_noConstant hnone hops).symm
          cases hop with
          | refl => exact .inl rfl
          | @constant _ n same hle =>
              rcases Nat.eq_or_lt_of_le hle with heq | hlt
              · have hsame := Immediate.ext_value_width same (Width.bits_injective heq).symm
                exact .inl (by rw [hsame])
              · obtain ⟨hcan, hnext⟩ := Immediate.widen_le_of_lt hlt
                refine .inr ⟨.immediate m.widen :: ops, by simp [widenFirst?, hcan], ?_⟩
                exact .cons (.constant (same.trans m.value_widen.symm) hnext) hops
      | register r =>
          cases hop
          rcases ih (by omega) with rfl | ⟨next, hnext, hwider⟩
          · exact .inl rfl
          · exact .inr ⟨_, by simp [widenFirst?, hnext], .cons (.refl _) hwider⟩
      | memory a =>
          cases hop
          rcases ih (by omega) with rfl | ⟨next, hnext, hwider⟩
          · exact .inl rfl
          · exact .inr ⟨_, by simp [widenFirst?, hnext], .cons (.refl _) hwider⟩

/-- With at most one constant, every widening is tried. -/
theorem mem_widenings_of_widens {ops wider : List Operand} (hone : constantCount ops ≤ 1)
    (h : List.Forall₂ Operand.Widens ops wider) : wider ∈ widenings ops := by
  induction ops using widenings.induct with
  | case1 ops ih =>
      rw [widenings]
      rcases eq_or_widens_widenFirst? hone h with rfl | ⟨next, hnext, hwider⟩
      · exact List.mem_cons_self
      · have hcount := constantCount_of_widens (widens_widenFirst? hnext)
        refine List.mem_cons_of_mem _ ?_
        split
        · next hend => rw [hnext] at hend; cases hend
        · next next' hnext' =>
          obtain rfl : next = next' := Option.some.inj (hnext.symm.trans hnext')
          exact ih next hnext (hcount ▸ hone) hwider

/-- The chain ascends: whatever is tried later widens what was tried before. -/
theorem ascending_widenings (ops : List Operand) :
    (widenings ops).Pairwise (List.Forall₂ Operand.Widens) := by
  induction ops using widenings.induct with
  | case1 ops ih =>
      have hlater : ∀ tried ∈ widenings ops, List.Forall₂ Operand.Widens ops tried :=
        fun tried h => widens_of_mem_widenings h
      rw [widenings] at hlater ⊢
      refine List.pairwise_cons.mpr ⟨fun tried h => hlater tried (List.mem_cons_of_mem _ h), ?_⟩
      split
      · exact List.Pairwise.nil
      · next next hnext => exact ih next hnext

/-! ### Forms -/

/-- No form takes two constants. -/
theorem table_oneConstant : ∀ entry ∈ Form.table.rows.toList, ∀ form ∈ entry.2,
    form.slots.countP (·.kind = .immediate) ≤ 1 := by
  decide +kernel

/-- Operands of which some widening has a form hold at most one constant. -/
theorem constantCount_le_one {mnemonic : String} {form : Form} {ops wider : List Operand}
    (hform : form ∈ Form.all mnemonic) (haccepts : form.accepts wider = true)
    (hwidens : List.Forall₂ Operand.Widens ops wider) : constantCount ops ≤ 1 := by
  have hslots : constantCount wider ≤ form.slots.countP (·.kind = .immediate) := by
    refine Form.countP_le_of_accepts haccepts ?_
    intro slot op hslot hop
    cases op with
    | immediate imm => rw [Slot.eq_of_accepts_immediate hslot]; rfl
    | register r => cases hop
    | memory a => cases hop
  rw [← constantCount_of_widens hwidens]
  rcases Form.all_eq_nil_or_mem mnemonic with hnil | hmem
  · rw [hnil] at hform
    cases hform
  · exact Nat.le_trans hslots (table_oneConstant _ hmem form hform)

/-! ### Selections -/

theorem Selection.first?_eq_none {forms : List Form} {ops : List Operand} :
    first? forms ops = none ↔ ∀ form ∈ forms, form.accepts ops = false := by
  simp [first?]

theorem Selection.first?_eq_some {forms : List Form} {ops : List Operand} {sel : Selection} :
    first? forms ops = some sel ↔ sel.operands = ops ∧ sel.form.accepts ops = true ∧
      ∃ earlier later, forms = earlier ++ sel.form :: later ∧
        ∀ f ∈ earlier, f.accepts ops = false := by
  simp only [first?, Option.map_eq_some_iff, List.find?_eq_some_iff_append, Bool.not_eq_true']
  constructor
  · rintro ⟨form, h, rfl⟩
    exact ⟨rfl, h⟩
  · rintro ⟨rfl, h⟩
    exact ⟨sel.form, h, rfl⟩

namespace Instruction

/-- Some form of the mnemonic accepts some widening of the operands. -/
def HasForm (i : Instruction) : Prop :=
  ∃ wider, List.Forall₂ Operand.Widens i.operands wider ∧
    ∃ form ∈ Form.all i.mnemonic, form.accepts wider = true

/-- The selection widens the operands and is the first form for them, and no form accepts a widening
in which a constant is narrower. -/
structure Selects (i : Instruction) (sel : Selection) : Prop where
  widens : List.Forall₂ Operand.Widens i.operands sel.operands
  accepts : sel.form.accepts sel.operands = true
  first : ∃ earlier later, Form.all i.mnemonic = earlier ++ sel.form :: later ∧
    ∀ f ∈ earlier, f.accepts sel.operands = false
  narrowest : ∀ wider, List.Forall₂ Operand.Widens i.operands wider →
    Narrower wider sel.operands → ∀ form ∈ Form.all i.mnemonic, form.accepts wider = false

variable {i : Instruction} {sel sel' : Selection}

theorem select_eq_ok : i.select = .ok sel ↔
    (widenings i.operands).findSome? (Selection.first? (Form.all i.mnemonic)) = some sel := by
  unfold select
  split
  · next found hfound => rw [hfound, Except.ok.injEq, Option.some.injEq]
  · next hnone => simp [hnone]

/-- A selection is narrowest: the forms accept only widenings of its operands. -/
theorem selects_of_select (h : i.select = .ok sel) : i.Selects sel := by
  obtain ⟨tried, ops, later, hchain, hfirst, htried⟩ :=
    List.findSome?_eq_some_iff.mp (select_eq_ok.mp h)
  obtain ⟨rfl, haccepts, hfirst⟩ := Selection.first?_eq_some.mp hfirst
  have hmem : sel.operands ∈ widenings i.operands := by simp [hchain]
  refine ⟨widens_of_mem_widenings hmem, haccepts, hfirst, ?_⟩
  intro wider hwidens hnarrower form hform
  by_contra hother
  rw [Bool.not_eq_false] at hother
  have hwider := mem_widenings_of_widens (constantCount_le_one hform hother hwidens) hwidens
  have hascending := ascending_widenings i.operands
  rw [hchain] at hwider hascending
  rcases List.mem_append.mp hwider with hbefore | hfrom
  · rw [Selection.first?_eq_none.mp (htried wider hbefore) form hform] at hother
    cases hother
  · refine not_narrower_of_widens ?_ hnarrower
    rcases List.mem_cons.mp hfrom with rfl | hafter
    · exact List.forall₂_refl _
    · exact (List.pairwise_cons.mp (List.pairwise_append.mp hascending).2.1).1 wider hafter

theorem exists_select (h : i.HasForm) : ∃ sel, i.select = .ok sel := by
  obtain ⟨wider, hwidens, form, hform, haccepts⟩ := h
  have hmem := mem_widenings_of_widens (constantCount_le_one hform haccepts hwidens) hwidens
  simp only [select_eq_ok]
  rw [← Option.isSome_iff_exists, List.findSome?_isSome_iff]
  refine ⟨wider, hmem, ?_⟩
  rw [Option.isSome_iff_ne_none, Ne, Selection.first?_eq_none]
  intro hnone
  rw [hnone form hform] at haccepts
  cases haccepts

theorem Selects.hasForm (h : i.Selects sel) : i.HasForm := by
  obtain ⟨earlier, later, hall, _⟩ := h.first
  exact ⟨sel.operands, h.widens, sel.form, by simp [hall], h.accepts⟩

/-- There is but one such selection. -/
theorem Selects.unique (h : i.Selects sel) (h' : i.Selects sel') : sel = sel' := by
  have hnot : ∀ {s t : Selection}, i.Selects s → i.Selects t →
      ¬ Narrower s.operands t.operands := by
    intro s t hs ht hnarrower
    obtain ⟨earlier, later, hall, _⟩ := hs.first
    have hrejects := ht.narrowest s.operands hs.widens hnarrower s.form (by simp [hall])
    rw [hs.accepts] at hrejects
    cases hrejects
  have hops := eq_of_not_narrower h.widens h'.widens (hnot h h') (hnot h' h)
  have hfirst : Selection.first? (Form.all i.mnemonic) sel.operands = some sel :=
    Selection.first?_eq_some.mpr ⟨rfl, h.accepts, h.first⟩
  have hfirst' : Selection.first? (Form.all i.mnemonic) sel'.operands = some sel' :=
    Selection.first?_eq_some.mpr ⟨rfl, h'.accepts, h'.first⟩
  rw [hops, hfirst'] at hfirst
  exact (Option.some.inj hfirst).symm

/-- A form is selected just if some widening of the operands has one.  It is then the first form for
the narrowest such widening; and an instruction without a form is reported. -/
theorem select_narrowest (i : Instruction) :
    ((∃ sel, i.select = .ok sel) ↔ i.HasForm) ∧
    (∀ sel, i.select = .ok sel ↔ i.Selects sel) ∧
    (¬ i.HasForm → i.select = .error (.noEncoding i.render)) := by
  have hselects : ∀ sel, i.select = .ok sel ↔ i.Selects sel := by
    intro sel
    refine ⟨selects_of_select, fun h => ?_⟩
    obtain ⟨sel', hsel'⟩ := exists_select h.hasForm
    rw [hsel', h.unique (selects_of_select hsel')]
  refine ⟨⟨?_, exists_select⟩, hselects, ?_⟩
  · rintro ⟨sel, h⟩
    exact (selects_of_select h).hasForm
  · intro hnone
    cases h : i.select with
    | ok sel => exact absurd (selects_of_select h).hasForm hnone
    | error d => rw [eq_noEncoding_of_select h]

/-- The constant 200 has 16 bits; the narrowest form that adds it to `rax` takes 32.  Two constants
have no form at any width. -/
theorem select_narrowest_constants :
    Selects ⟨64, "add", [.register ⟨"rax", .qword⟩, .constant 200]⟩
      ⟨{ opcode := [0x05], slots := [.fixed "rax" .qword, Form.imm32], wide := true },
        [.register ⟨"rax", .qword⟩, .immediate (.imm32 200)]⟩ ∧
    ¬ HasForm ⟨64, "push", [.constant 1, .constant 2]⟩ ∧
    select ⟨64, "push", [.constant 1, .constant 2]⟩ = .error (.noEncoding "push 1, 2") := by
  have hnone : ¬ HasForm ⟨64, "push", [.constant 1, .constant 2]⟩ := by
    rw [← (select_narrowest _).1]
    rintro ⟨sel, h⟩
    have herror : select ⟨64, "push", [.constant 1, .constant 2]⟩ =
        .error (.noEncoding "push 1, 2") := by decide +kernel
    rw [herror] at h
    cases h
  refine ⟨((select_narrowest _).2.1 _).mp (by decide +kernel), hnone, ?_⟩
  exact (select_narrowest _).2.2 hnone

end Instruction

end X64Asm
