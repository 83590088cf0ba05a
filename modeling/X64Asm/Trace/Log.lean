import X64Asm.Assembler.Run
import X64Asm.Trace.Event

/-! # Logs

The events of an operation, in order.  A log is a view of the operation: it is computed from what
the operation is given, and the operation does not depend on it. -/

namespace X64Asm

/-- The events of selecting a form: the widenings tried until a form accepted, then the form.  For an
unknown mnemonic nothing is tried. -/
def Instruction.selectionLog (i : Instruction) : List Event :=
  if (Form.all i.mnemonic).isEmpty then []
  else
    let fails := fun ops => (Selection.first? (Form.all i.mnemonic) ops).isNone
    let tried := (widenings i.operands).takeWhile fails
    match i.select with
    | .ok selection =>
      ((tried ++ [selection.operands]).tail.map (.widened i.mnemonic)) ++
        [.selected i selection.form]
    | .error _ => tried.tail.map (.widened i.mnemonic)

/-- The events of encoding an instruction into a buffer of its own. -/
def Instruction.emissionLog (i : Instruction) (layout : Imm16Layout) : List Event :=
  i.selectionLog ++
    match i.encode layout with
    | .ok buf => [.emitted i buf.toList]
    | .error _ => []

/-- The event of a symbol that is declared of another kind than it was. -/
def SymbolTable.declarationLog (t : SymbolTable) (name : String) (kind : SymbolKind) :
    List Event :=
  let before := t.getOrNew name
  if before.kind = kind then [] else [.kindChanged name before.index before.kind kind]

namespace Assembler

/-- The events of assembling a section entry. -/
def entryLog (s : Assembler) (entry : SectionEntry) : List Event :=
  if s.options.limits.statements < s.statementCount + 1 then []
  else
    match entry with
    | .instruction i =>
      i.selectionLog ++
        match (s.addEntry entry).failure, i.encode s.options.imm16 with
        | none, .ok buf => [.assembled s.code.size i buf.toList]
        | _, _ => []
    | .data bytes => if s.options.emitData then [] else [.dataSkipped bytes.length]
    | .label _ => []

/-- The events of one action. -/
def actionLog (s : Assembler) : Action → List Event
  | .enter name count => [.sectionEntered name count]
  | .declare name kind => s.symbols.declarationLog name kind
  | .entry entry => s.entryLog entry

/-- The events of performing actions up to the first that fails. -/
def runLog (s : Assembler) : List Action → List Event
  | [] => []
  | action :: actions =>
    s.actionLog action ++
      match s.perform action with
      | ⟨after, none⟩ => after.runLog actions
      | _ => []

/-- The events of assembling a part of a program. -/
def assembleLog (s : Assembler) (node : Node) : List Event :=
  match node.actions with
  | .ok actions => s.runLog actions
  | .error _ => []

/-- The events of assembling a source text. -/
def emitLog (s : Assembler) (source : String) : List Event :=
  match s.sourceActions source with
  | .ok actions => s.runLog actions
  | .error _ => []

end Assembler

/-- The events of writing the symbols into an object file. -/
def SymbolTable.linkLog (t : SymbolTable) (labels : List (String × Nat)) : List Event :=
  t.linked.map fun symbol => .symbolWritten symbol (symbol.definedAt? labels)

end X64Asm
