import X64Asm.Bytes
import X64Asm.Instruction

/-! # Instruction forms

A mnemonic has several forms, each with its own opcode and its own demand on the operands.

* A `Slot` is the demand on one operand: a kind and a width, or one register by name.
* A `Form` is an opcode with a slot for each operand.  The opcode begins with the operand-size
  override where the form has one.  The form says whether the register goes into the last byte
  of the opcode, and whether the instruction is 64 bits wide throughout.

`Slot.accepts` and `Form.accepts` say which operands meet the demand. -/

namespace X64Asm

/-- The demand of a form on one operand. -/
inductive Slot where
  | typed (kind : Kind) (width : Width)
  | fixed (name : String) (width : Width)
  deriving DecidableEq, Repr

namespace Slot

/-- The width asked for. -/
def width : Slot → Width
  | typed _ width | fixed _ width => width

/-- The kind asked for. -/
def kind : Slot → Kind
  | typed kind _ => kind
  | fixed _ _ => .fixed

/-- Whether one register is asked for by name. -/
def isFixed : Slot → Bool
  | typed _ _ => false
  | fixed _ _ => true

/-- The slot as manuals write it. -/
def render : Slot → String
  | typed .register width => s!"r{width.bits}"
  | typed .memory width => s!"m{width.bits}"
  | typed .immediate width => s!"imm{width.bits}"
  | typed .fixed width => s!"fixed{width.bits}"
  | fixed name _ => name

/-- Whether the operand meets the demand.  The widths agree exactly; a register will do where a
place in memory is asked for. -/
def accepts (slot : Slot) (op : Operand) : Bool :=
  op.width = slot.width &&
    match slot, op with
    | fixed name _, .register r => r.name = name
    | fixed _ _, _ => false
    | typed kind _, op => op.kind = kind || op.kind = .register && kind = .memory

end Slot

/-- One way to encode a mnemonic. -/
structure Form where
  opcode : Bytes
  slots : List Slot
  registerInOpcode : Bool := false
  wide : Bool := false
  deriving DecidableEq, Repr

namespace Form

/-- Whether the operands meet the form's demand, one for one. -/
def accepts (form : Form) (operands : List Operand) : Bool :=
  form.slots.length = operands.length &&
    (form.slots.zip operands).all fun (slot, op) => slot.accepts op

/-- The opcode with its register mark. -/
def renderOpcode (form : Form) : String :=
  " ".intercalate (form.opcode.map Bytes.hexByte) ++ if form.registerInOpcode then "+r" else ""

/-- The form as manuals write it. -/
def render (form : Form) : String :=
  form.renderOpcode
    ++ (if form.slots.isEmpty then "" else " " ++ ", ".intercalate (form.slots.map Slot.render))
    ++ if form.wide then " (REX.W)" else ""

end Form

end X64Asm
