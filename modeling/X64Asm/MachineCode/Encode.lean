import X64Asm.Form.Selection
import X64Asm.MachineCode.Buffer

/-! # Encoding of instructions

The bytes of an instruction stand in this order: operand-size overrides, the byte of extension
bits, the opcode, the byte of register fields (mode, `reg`, `rm`), the scale-index-base byte, the
displacement, the constant.

* The operand in memory, if there is one, goes into the `rm` field.  `Placement` holds which operand
  goes where.
* A base whose low bits are 4 is written through the scale-index-base byte; one whose low bits are
  5 takes a displacement of one zero byte.  A displacement without a base goes through the
  scale-index-base byte that names no base, followed by four bytes.
* A 16-bit constant takes four bytes, or two under the operand-size override (`Imm16Layout`).

Each step writes at the end of the buffer; the steps run in the order of the bytes, so the first
thing that is wrong is the one reported. -/

namespace X64Asm

/-- How 16-bit constants are laid out. -/
inductive Imm16Layout where
  /-- Four bytes, the sign extended. -/
  | fourBytes
  /-- Two bytes, under the operand-size override. -/
  | twoBytes
  deriving DecidableEq, Repr

/-- The byte that overrides the operand size. -/
def sizeOverride : UInt8 := 0x66

/-- The byte of extension bits: wide operation, `reg` above 7, `rm` above 7. -/
def extensionByte (wide reg rm : Bool) : UInt8 :=
  UInt8.ofNat (0x40 + (if wide then 8 else 0) + (if reg then 4 else 0) + (if rm then 1 else 0))

/-- The byte of register fields. -/
def fieldByte (mode reg rm : Nat) : UInt8 :=
  UInt8.ofNat (64 * mode + 8 * reg + rm)

/-- The scale-index-base byte without an index. -/
def baseByte (base : Nat) : UInt8 := UInt8.ofNat (8 * 4 + base)

/-- Which operand goes into the `rm` field and which into the `reg` field, each with its slot. -/
structure Placement where
  rm : Option Operand
  rmSlot : Option Slot
  reg : Option Operand
  regSlot : Option Slot

namespace Placement

/-- The first operand goes into `rm`, unless the second is in memory. -/
def of (slots : List Slot) (operands : List Operand) : Placement :=
  if (operands[1]?).any Operand.isMemory then
    ⟨operands[1]?, slots[1]?, operands[0]?, slots[0]?⟩
  else ⟨operands[0]?, slots[0]?, operands[1]?, slots[1]?⟩

end Placement

/-- The number of a register. -/
def Register.numberOrFail (r : Register) : Except Failure Register.Number :=
  r.number.mapError .diagnostic

/-- Whether the register that the operand mentions needs the extension bit. -/
def extensionBit (op : Option Operand) : Except Failure Bool :=
  match op.bind Operand.base? with
  | some r => r.numberOrFail.map Register.Number.isExtended
  | none => .ok false

/-- The field bits of an operand.  A register that the form fixes by name has none, nor has a
constant. -/
def fieldBits (op : Option Operand) (slot : Option Slot) : Except Failure (Option Nat) :=
  match op with
  | some (.register r) =>
    if slot.any Slot.isFixed then .ok none
    else r.numberOrFail.map fun n => some n.lowBits
  | some (.memory (.base r)) => r.numberOrFail.map fun n => some n.lowBits
  | some (.memory (.displacement _)) => .ok (some 4)
  | _ => .ok none

/-- The mode field that goes with an operand in `rm`. -/
def modeBits (op : Option Operand) (rm : Nat) : Nat :=
  match op with
  | some (.memory _) => if rm = 5 then 1 else 0
  | _ => 3

/-- The base that goes into the scale-index-base byte, if there is such a byte. -/
def sibBase? (op : Option Operand) (rm : Nat) : Option Nat :=
  match op with
  | some (.memory (.base _)) => if rm = 4 then some 4 else none
  | some (.memory (.displacement _)) => some 5
  | _ => none

/-- The four bytes of a displacement. -/
def displacementBytes (disp : Immediate) : Except Failure Bytes :=
  if FitsSigned 32 disp.value then .ok (Bytes.littleEndianInt 4 disp.value)
  else .error (.diagnostic (.missingDisplacement (Complaint.displacementTooWide disp.value).message))

/-- The constant of the instruction: of the placed operands the first, else one further on. -/
def Placement.immediate? (place : Placement) (operands : List Operand) : Option Immediate :=
  (place.rm.toList ++ place.reg.toList ++ operands.drop 2).findSome? Operand.immediate?

/-- Whether a constant takes two bytes under the override. -/
def needsOverride (layout : Imm16Layout) (operands : List Operand) : Bool :=
  layout = .twoBytes && operands.any fun op => op.immediate?.any fun imm => imm.width = .word

namespace InstructionBuffer

/-- Writes the overrides of the form, and one more if only the constant asks for it. -/
def writeOverrides (buf : InstructionBuffer) (overrides : Bytes) (forced : Bool) :
    Except Failure InstructionBuffer := do
  let buf ← buf.append overrides
  if forced && overrides.isEmpty then buf.push sizeOverride else pure buf

/-- Writes the byte of extension bits if one of them is set. -/
def writeExtension (buf : InstructionBuffer) (wide : Bool) (place : Placement) :
    Except Failure InstructionBuffer := do
  let rm ← extensionBit place.rm
  let reg ← extensionBit place.reg
  if wide || reg || rm then buf.push (extensionByte wide reg rm) else pure buf

/-- Writes the opcode with a register in its last byte. -/
def writeOpcodeRegister (buf : InstructionBuffer) (opcode : Bytes) (rm : Option Nat) :
    Except Failure InstructionBuffer :=
  match opcode.getLast? with
  | none => .ok buf
  | some last => do
    let buf ← buf.append opcode.dropLast
    buf.push (last + UInt8.ofNat (rm.getD 0))

/-- Writes the displacement that goes with an operand in `rm`. -/
def writeDisplacement (buf : InstructionBuffer) (op : Option Operand) (rm : Nat) :
    Except Failure InstructionBuffer :=
  match op with
  | some (.memory (.base _)) => if rm = 5 then buf.push 0 else .ok buf
  | some (.memory (.displacement disp)) => do
    let bytes ← displacementBytes disp
    buf.append bytes
  | _ => .ok buf

/-- Writes the register fields and what the address needs beside them. -/
def writeFields (buf : InstructionBuffer) (place : Placement) (rm : Nat) :
    Except Failure InstructionBuffer := do
  let reg ← fieldBits place.reg place.regSlot
  let buf ← buf.push (fieldByte (modeBits place.rm rm) (reg.getD 0) rm)
  let buf ← match sibBase? place.rm rm with
    | some base => buf.push (baseByte base)
    | none => pure buf
  buf.writeDisplacement place.rm rm

/-- Writes the opcode and the operands that stand in registers or memory. -/
def writeOpcode (buf : InstructionBuffer) (opcode : Bytes) (registerInOpcode : Bool)
    (place : Placement) : Except Failure InstructionBuffer := do
  let rm ← fieldBits place.rm place.rmSlot
  if registerInOpcode then buf.writeOpcodeRegister opcode rm
  else
    let buf ← buf.append opcode
    match rm with
    | some rm => buf.writeFields place rm
    | none => pure buf

/-- Writes a constant. -/
def writeImmediate (buf : InstructionBuffer) (layout : Imm16Layout) :
    Immediate → Except Failure InstructionBuffer
  | .imm8 v => buf.push v.toUInt8
  | .imm16 v =>
    match layout with
    | .fourBytes => buf.append (Bytes.littleEndianInt 4 v.toInt)
    | .twoBytes => buf.append (Bytes.littleEndianInt 2 v.toInt)
  | .imm32 v => buf.append (Bytes.littleEndianInt 4 v.toInt)
  | .imm64 v => buf.append (Bytes.littleEndianInt 8 v.toInt)

end InstructionBuffer

/-- The bytes of the operands in the given form, whether or not the form accepts them. -/
def Form.encode (form : Form) (layout : Imm16Layout) (operands : List Operand) :
    Except Failure InstructionBuffer := do
  let place := Placement.of form.slots operands
  let overrides := form.opcode.takeWhile (· == sizeOverride)
  let opcode := form.opcode.dropWhile (· == sizeOverride)
  let buf ← InstructionBuffer.empty.writeOverrides overrides (needsOverride layout operands)
  let buf ← buf.writeExtension form.wide place
  let buf ← buf.writeOpcode opcode form.registerInOpcode place
  match place.immediate? operands with
  | some imm => buf.writeImmediate layout imm
  | none => pure buf

/-- The bytes of an instruction. -/
def Instruction.encode (i : Instruction) (layout : Imm16Layout) :
    Except Failure InstructionBuffer := do
  let selection ← i.select.mapError .diagnostic
  selection.form.encode layout selection.operands

end X64Asm
