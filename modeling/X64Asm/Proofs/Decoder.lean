import X64Asm.Bytes
import X64Asm.Register

/-! # A reference decoder

How a processor in 64-bit mode reads the instructions that the built-in forms are made of.  The
decoder is written from the instruction format and knows nothing of forms or of the encoder.

* **Prefixes.**  An operand-size override and, behind it, a byte of extension bits, `40` to `4F`; both
  may be missing.
* **Opcode.**  One byte.  `opcodeRow?` says which mnemonic it is, where its operands are found
  (`Pattern`), how wide they are (`Sizing`) and how many bytes a constant takes (`ConstantSize`).
  Some opcodes hold a register in their three low bits.
* **Register fields.**  A byte of mode, `reg` and `rm`.  Mode 3 is a register.  Otherwise `rm` 4 means
  that a scale-index-base byte follows, and `rm` 5 in mode 0 an address relative to the instruction
  pointer.  Base 5 of the scale-index-base byte in mode 0 is no base, index 4 without its extension
  bit no index.
* **Displacement.**  One byte in mode 1 and four in mode 2; in mode 0 four where there is no base
  register, and else none.

`decode` reads one instruction and returns what is left; `sweep` reads as many as there are and keeps
the bytes of each. -/

namespace X64Asm

/-- The signed number that the bytes spell in two's complement, least significant first. -/
def Bytes.toInt (bytes : Bytes) : Int := Int.bmod (toNat bytes) (wordCount (8 * bytes.length))

namespace Decoder

/-! ### Prefixes -/

/-- The extension bits: wide operation, and one bit for each of `reg`, index, and `rm` or base. -/
structure Extension where
  wide : Bool := false
  reg : Bool := false
  index : Bool := false
  base : Bool := false
  deriving DecidableEq, Repr

/-- Whether the byte holds extension bits. -/
def isExtension (byte : UInt8) : Bool := byte.toNat / 16 = 4

/-- The four low bits of the byte. -/
def Extension.ofByte (byte : UInt8) : Extension where
  wide := byte.toNat / 8 % 2 = 1
  reg := byte.toNat / 4 % 2 = 1
  index := byte.toNat / 2 % 2 = 1
  base := byte.toNat % 2 = 1

/-- Reads the extension bits, all clear if the byte is missing. -/
def readExtension : Bytes → Extension × Bytes
  | [] => ({}, [])
  | byte :: bytes =>
    if isExtension byte then (.ofByte byte, bytes) else ({}, byte :: bytes)

/-- Reads the operand-size override. -/
def readOverride : Bytes → Bool × Bytes
  | [] => (false, [])
  | byte :: bytes => if byte = 0x66 then (true, bytes) else (false, byte :: bytes)

/-! ### Operands -/

/-- What an address counts from. -/
inductive Base where
  | absent
  | instructionPointer
  | register (number : Register.Number)
  deriving DecidableEq, Repr

/-- A place in memory: base, scaled index, and displacement. -/
structure Reference where
  base : Base
  index : Option (Register.Number × Nat)
  displacement : Int
  deriving DecidableEq, Repr

/-- An operand as the machine sees it. -/
inductive Place where
  | register (number : Register.Number)
  | memory (reference : Reference)
  | constant (value : Int)
  deriving DecidableEq, Repr

/-- The register of three low bits and an extension bit. -/
def number (low : Nat) (extended : Bool) : Register.Number :=
  ⟨(low + if extended then 8 else 0) % 16, Nat.mod_lt _ (Nat.succ_pos 15)⟩

/-- Reads a signed number of so many bytes. -/
def readSigned (count : Nat) (bytes : Bytes) : Option (Int × Bytes) :=
  if bytes.length < count then none
  else some (Bytes.toInt (bytes.take count), bytes.drop count)

/-- The base that a scale-index-base byte names. -/
def sibBase (ext : Extension) (mode : Nat) (sib : UInt8) : Base :=
  if sib.toNat % 8 = 5 ∧ mode = 0 then .absent else .register (number (sib.toNat % 8) ext.base)

/-- The index that a scale-index-base byte names, with its factor. -/
def sibIndex (ext : Extension) (sib : UInt8) : Option (Register.Number × Nat) :=
  let index := number (sib.toNat / 8 % 8) ext.index
  if index.val = 4 then none else some (index, Nat.pow 2 (sib.toNat / 64))

/-- Reads the base and the index of an address. -/
def readBase (ext : Extension) (mode rm : Nat) (bytes : Bytes) :
    Option (Base × Option (Register.Number × Nat) × Bytes) :=
  if rm = 4 then
    match bytes with
    | [] => none
    | sib :: bytes => some (sibBase ext mode sib, sibIndex ext sib, bytes)
  else if rm = 5 ∧ mode = 0 then some (.instructionPointer, none, bytes)
  else some (.register (number rm ext.base), none, bytes)

/-- The number of bytes of the displacement. -/
def displacementCount (mode : Nat) (base : Base) : Nat :=
  match mode, base with
  | 0, .register _ => 0
  | 1, _ => 1
  | _, _ => 4

/-- Reads an address. -/
def readReference (ext : Extension) (mode rm : Nat) (bytes : Bytes) :
    Option (Reference × Bytes) := do
  let (base, index, bytes) ← readBase ext mode rm bytes
  let (displacement, bytes) ← readSigned (displacementCount mode base) bytes
  some (⟨base, index, displacement⟩, bytes)

/-- Reads the register fields: the operand in `rm`, and the three bits of `reg`. -/
def readFields (ext : Extension) : Bytes → Option (Place × Nat × Bytes)
  | [] => none
  | byte :: bytes =>
    let mode := byte.toNat / 64
    let reg := byte.toNat / 8 % 8
    let rm := byte.toNat % 8
    if mode = 3 then some (.register (number rm ext.base), reg, bytes)
    else do
      let (reference, bytes) ← readReference ext mode rm bytes
      some (.memory reference, reg, bytes)

/-! ### Opcodes -/

/-- Where the operands of an instruction are found, in the order in which they are written. -/
inductive Pattern where
  /-- The operand in `rm`, then the register in `reg`. -/
  | fieldsRegister
  /-- The register in `reg`, then the operand in `rm`. -/
  | registerFields
  /-- The operand in `rm`, then a constant; `reg` is zero. -/
  | fieldsConstant
  /-- Register 0, then a constant. -/
  | accumulatorConstant
  /-- The register in the opcode. -/
  | opcodeRegister
  /-- The register in the opcode, then a constant. -/
  | opcodeRegisterConstant
  /-- A constant alone. -/
  | constant
  deriving DecidableEq, Repr

/-- How wide the operands of an instruction are. -/
inductive Sizing where
  /-- Always a byte. -/
  | byte
  /-- 32 bits, unless the prefixes say otherwise. -/
  | general
  /-- 64 bits, unless the prefixes say otherwise. -/
  | stack
  deriving DecidableEq, Repr

/-- The width under the prefixes.  Of the two prefixes the wide one wins. -/
def Sizing.width : Sizing → (override wide : Bool) → Width
  | byte, _, _ => .byte
  | _, _, true => .qword
  | _, true, false => .word
  | general, false, false => .dword
  | stack, false, false => .qword

/-- How many bytes a constant takes. -/
inductive ConstantSize where
  | byte
  /-- As many as the operands, but no more than four. -/
  | capped
  /-- As many as the operands. -/
  | full
  deriving DecidableEq, Repr

/-- The number of bytes of a constant beside operands of the given width. -/
def ConstantSize.count : ConstantSize → Width → Nat
  | byte, _ => 1
  | capped, width => min 4 (width.bits / 8)
  | full, width => width.bits / 8

/-- What an opcode means. -/
structure OpcodeRow where
  mnemonic : String
  pattern : Pattern
  sizing : Sizing := .general
  constant : ConstantSize := .capped
  deriving DecidableEq, Repr

/-- The meaning of an opcode. -/
def opcodeRow? (opcode : UInt8) : Option OpcodeRow :=
  match opcode.toNat / 8 * 8 with
  | 0x50 => some { mnemonic := "push", pattern := .opcodeRegister, sizing := .stack }
  | 0x58 => some { mnemonic := "pop", pattern := .opcodeRegister, sizing := .stack }
  | 0xB8 => some { mnemonic := "mov", pattern := .opcodeRegisterConstant, constant := .full }
  | _ =>
    match opcode.toNat with
    | 0x01 => some { mnemonic := "add", pattern := .fieldsRegister }
    | 0x03 => some { mnemonic := "add", pattern := .registerFields }
    | 0x04 =>
      some { mnemonic := "add", pattern := .accumulatorConstant, sizing := .byte, constant := .byte }
    | 0x05 => some { mnemonic := "add", pattern := .accumulatorConstant }
    | 0x68 => some { mnemonic := "push", pattern := .constant, sizing := .stack }
    | 0x6A => some { mnemonic := "push", pattern := .constant, sizing := .stack, constant := .byte }
    | 0x83 => some { mnemonic := "add", pattern := .fieldsConstant, constant := .byte }
    | 0x89 => some { mnemonic := "mov", pattern := .fieldsRegister }
    | 0x8B => some { mnemonic := "mov", pattern := .registerFields }
    | 0xC7 => some { mnemonic := "mov", pattern := .fieldsConstant }
    | _ => none

/-- Reads the operands of an instruction. -/
def OpcodeRow.readOperands (row : OpcodeRow) (ext : Extension) (opcode : UInt8) (width : Width)
    (bytes : Bytes) : Option (List Place × Bytes) :=
  let opcodeRegister := Place.register (number (opcode.toNat % 8) ext.base)
  let constant := readSigned (row.constant.count width)
  match row.pattern with
  | .fieldsRegister => do
    let (place, reg, bytes) ← readFields ext bytes
    some ([place, .register (number reg ext.reg)], bytes)
  | .registerFields => do
    let (place, reg, bytes) ← readFields ext bytes
    some ([.register (number reg ext.reg), place], bytes)
  | .fieldsConstant => do
    let (place, reg, bytes) ← readFields ext bytes
    let (value, bytes) ← constant bytes
    if reg = 0 then some ([place, .constant value], bytes) else none
  | .accumulatorConstant => do
    let (value, bytes) ← constant bytes
    some ([.register (number 0 false), .constant value], bytes)
  | .opcodeRegister => some ([opcodeRegister], bytes)
  | .opcodeRegisterConstant => do
    let (value, bytes) ← constant bytes
    some ([opcodeRegister, .constant value], bytes)
  | .constant => do
    let (value, bytes) ← constant bytes
    some ([.constant value], bytes)

/-! ### Instructions -/

/-- An instruction as the machine sees it. -/
structure Decoded where
  mnemonic : String
  pattern : Pattern
  width : Width
  operands : List Place
  deriving DecidableEq, Repr

/-- Reads what stands behind the prefixes. -/
def decodeOpcode (override : Bool) (ext : Extension) : Bytes → Option (Decoded × Bytes)
  | [] => none
  | opcode :: bytes => do
    let row ← opcodeRow? opcode
    let width := row.sizing.width override ext.wide
    let (operands, bytes) ← row.readOperands ext opcode width bytes
    some (⟨row.mnemonic, row.pattern, width, operands⟩, bytes)

/-- Reads one instruction. -/
def decode (bytes : Bytes) : Option (Decoded × Bytes) :=
  let (override, bytes) := readOverride bytes
  let (ext, bytes) := readExtension bytes
  decodeOpcode override ext bytes

/-- Reads instructions for as long as there are any, each with its bytes; what cannot be read is
left over. -/
def sweep (bytes : Bytes) : List (Decoded × Bytes) × Bytes :=
  match decode bytes with
  | none => ([], bytes)
  | some (instruction, rest) =>
    if rest.length < bytes.length then
      let (instructions, left) := sweep rest
      ((instruction, bytes.take (bytes.length - rest.length)) :: instructions, left)
    else ([], bytes)
termination_by bytes.length

end Decoder

end X64Asm
