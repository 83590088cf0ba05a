import X64Asm.Form.Table

/-! # Selection of a form

The forms of the mnemonic are tried in order on the operands as they stand.  If none accepts them,
the first constant that can be widened is widened by one step, and the forms are tried again.

`widenings` lists the operand lists that are tried, the given one first.  `select` takes the first
of them that some form accepts, with the first such form. -/

namespace X64Asm

/-- Widens the first constant that can be widened. -/
def widenFirst? : List Operand → Option (List Operand)
  | [] => none
  | .immediate imm :: ops =>
    if imm.canWiden then some (.immediate imm.widen :: ops)
    else (widenFirst? ops).map (.immediate imm :: ·)
  | op :: ops => (widenFirst? ops).map (op :: ·)

/-- How often the constants of an operand list can be widened. -/
def wideningRoom : List Operand → Nat
  | [] => 0
  | .immediate imm :: ops => imm.room + wideningRoom ops
  | _ :: ops => wideningRoom ops

/-- A widening uses up a step. -/
theorem wideningRoom_widenFirst? {ops wider : List Operand} (h : widenFirst? ops = some wider) :
    wideningRoom wider + 1 = wideningRoom ops := by
  fun_induction widenFirst? ops generalizing wider with
  | case1 => cases h
  | case2 imm ops can =>
    have step := Immediate.room_widen can
    cases h
    simp only [wideningRoom]
    omega
  | case3 imm ops cannot ih =>
    obtain ⟨rest, found, rfl⟩ := Option.map_eq_some_iff.mp h
    have step := ih found
    simp only [wideningRoom]
    omega
  | case4 op ops other ih =>
    obtain ⟨rest, found, rfl⟩ := Option.map_eq_some_iff.mp h
    cases op with
    | immediate imm => exact absurd rfl (other imm)
    | register r => simpa only [wideningRoom] using ih found
    | memory a => simpa only [wideningRoom] using ih found

/-- The operand lists to be tried: the given one and its successive widenings. -/
def widenings (operands : List Operand) : List (List Operand) :=
  operands ::
    match h : widenFirst? operands with
    | none => []
    | some wider =>
      have : wideningRoom wider < wideningRoom operands :=
        Nat.lt_of_lt_of_eq (Nat.lt_succ_self _) (wideningRoom_widenFirst? h)
      widenings wider
termination_by wideningRoom operands

/-- A form with the operands for which it was chosen. -/
structure Selection where
  form : Form
  operands : List Operand
  deriving DecidableEq, Repr

/-- The first of the forms that accepts the operands. -/
def Selection.first? (forms : List Form) (operands : List Operand) : Option Selection :=
  (forms.find? (·.accepts operands)).map fun form => ⟨form, operands⟩

/-- The form that encodes the instruction. -/
def Instruction.select (i : Instruction) : Except Diagnostic Selection :=
  match (widenings i.operands).findSome? (Selection.first? (Form.all i.mnemonic)) with
  | some selection => .ok selection
  | none => .error (.noEncoding i.render)

end X64Asm
