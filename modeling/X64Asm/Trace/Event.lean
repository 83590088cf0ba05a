import X64Asm.Form.Basic
import X64Asm.SymbolTable
import X64Asm.Trace.Dump

/-! # Trace events

What is told about a run while it goes on, as values; `Event.message` gives the words. -/

namespace X64Asm

/-- Something that happened in a run. -/
inductive Event where
  | sectionEntered (name : String) (count : Nat)
  /-- No form accepted the operands, and these are tried next. -/
  | widened (mnemonic : String) (operands : List Operand)
  | selected (instruction : Instruction) (form : Form)
  /-- An instruction was put out at an offset of the code. -/
  | assembled (offset : Nat) (instruction : Instruction) (bytes : Bytes)
  /-- An instruction was put out at the end of a buffer. -/
  | emitted (instruction : Instruction) (bytes : Bytes)
  | dataSkipped (count : Nat)
  | kindChanged (name : String) (index : Nat) (before after : SymbolKind)
  | symbolWritten (symbol : Symbol) (definedAt : Option Nat)
  deriving DecidableEq, Repr

/-- The wording of an event. -/
def Event.message : Event → String
  | sectionEntered name count => s!"section {Dump.quoted name}: {count} entries"
  | widened mnemonic operands =>
    s!"{mnemonic}: no match, widened immediate to {Dump.list (operands.map Dump.operand)}"
  | selected instruction form => s!"{instruction.render} -> {form.render}"
  | assembled offset instruction bytes =>
    s!"{Dump.offset offset}: {instruction.render} -> {Dump.bytes bytes}"
  | emitted instruction bytes => s!"{instruction.render}: {Dump.bytes bytes}"
  | dataSkipped count => s!"skipping {count} data byte(s)"
  | kindChanged name index before after =>
    s!"symbol {name} #{index}: {before.render} -> {after.render}"
  | symbolWritten symbol definedAt =>
    s!"elf symbol {symbol.name} ({symbol.kind.render}) at {Dump.offset? definedAt}"

end X64Asm
