import X64Asm.Assembler.Basic
import X64Asm.Listing.Build

/-! # Assembling

A part of a program is a sequence of actions, which are performed one after the other until one
fails.  What was done before the failure stays done.

A section entry is counted before anything else is done about it, and a label is counted before its
limit is checked, so entries that fail count too. -/

namespace X64Asm

/-- One step of assembling. -/
inductive Action where
  /-- A section of so many entries begins. -/
  | enter (name : String) (count : Nat)
  | declare (name : String) (kind : SymbolKind)
  | entry (entry : SectionEntry)
  deriving DecidableEq, Repr

/-- The actions that a directive calls for. -/
def Directive.actions : Directive → List Action
  | importSymbol name => [.declare name .imported]
  | exportSymbol name => [.declare name .exported]
  | sectionBlock name entries => .enter name entries.length :: entries.map .entry

/-- The actions that a listing calls for. -/
def Listing.actions (l : Listing) : List Action := l.directives.flatMap Directive.actions

/-- The actions that a node calls for.  An operand does not stand on its own. -/
def Node.actions : Node → Except Diagnostic (List Action)
  | listing l => .ok l.actions
  | directive d => .ok d.actions
  | entry e => .ok [.entry e]
  | node@(operand _) => .error (.unsupportedNode node.describe)

/-- What came of a step: the state after it, and the failure if there was one. -/
structure Outcome where
  state : Assembler
  failure : Option Failure
  deriving DecidableEq, Repr

namespace Assembler

/-- The outcome of a step that went well. -/
def done (s : Assembler) : Outcome := ⟨s, none⟩

/-- The outcome of a step that ended with a report. -/
def report (s : Assembler) (d : Diagnostic) : Outcome := ⟨s, some (.diagnostic d)⟩

/-- Puts out bytes. -/
def output (s : Assembler) (bytes : Bytes) : Outcome :=
  if s.outputFull bytes.length then s.report s.outputExhausted
  else done { s with code := s.code ++ bytes }

/-- Encodes an instruction and puts out its bytes. -/
def addInstruction (s : Assembler) (i : Instruction) : Outcome :=
  match i.encode s.options.imm16 with
  | .ok buf => s.output buf.toList
  | .error failure => ⟨s, some failure⟩

/-- Puts out data, unless the options leave it out. -/
def addData (s : Assembler) (bytes : Bytes) : Outcome :=
  if s.options.emitData then s.output bytes else s.done

/-- Defines a label at the end of the code. -/
def addLabel (s : Assembler) (name : String) : Outcome :=
  let s := { s with labelCount := s.labelCount + 1 }
  if s.options.limits.labels < s.labelCount then
    s.report (.exhausted .labels s.options.limits.labels)
  else
    done { s with symbols := s.symbols.intern name, labels := s.labels.push (name, s.code.size) }

/-- Assembles one section entry. -/
def addEntry (s : Assembler) (entry : SectionEntry) : Outcome :=
  let s := { s with statementCount := s.statementCount + 1 }
  if s.options.limits.statements < s.statementCount then
    s.report (.exhausted .statements s.options.limits.statements)
  else
    match entry with
    | .instruction i => s.addInstruction i
    | .data bytes => s.addData bytes
    | .label name => s.addLabel name

/-- Performs one action. -/
def perform (s : Assembler) : Action → Outcome
  | .enter _ _ => s.done
  | .declare name kind => done { s with symbols := s.symbols.declare name kind }
  | .entry entry => s.addEntry entry

/-- Performs actions up to the first that fails. -/
def run (s : Assembler) : List Action → Outcome
  | [] => s.done
  | action :: actions =>
    match s.perform action with
    | ⟨after, none⟩ => after.run actions
    | failed => failed

/-- A run of actions goes on where the first of them left off. -/
theorem run_append (s : Assembler) (first second : List Action) :
    s.run (first ++ second) =
      match s.run first with
      | ⟨after, none⟩ => after.run second
      | failed => failed := by
  induction first generalizing s with
  | nil => rfl
  | cons action first ih =>
    rw [List.cons_append, run, run]
    match s.perform action with
    | ⟨after, none⟩ => exact ih after
    | ⟨_, some _⟩ => rfl

/-- Assembles a part of a program. -/
def assemble (s : Assembler) (node : Node) : Outcome :=
  match node.actions with
  | .ok actions => s.run actions
  | .error d => s.report d

/-- The actions that a source text calls for. -/
def sourceActions (s : Assembler) (source : String) : Except Diagnostic (List Action) :=
  if s.options.limits.sourceBytes < source.utf8ByteSize then
    .error (.exhausted .sourceBytes s.options.limits.sourceBytes)
  else (Listing.parse source).map Listing.actions

/-- Assembles a source text. -/
def emit (s : Assembler) (source : String) : Outcome :=
  match s.sourceActions source with
  | .ok actions => s.run actions
  | .error d => s.report d

end Assembler

/-- The assembly of a source text, under the default options. -/
def assembleSource (source : String) : Except Failure Assembly :=
  match ({} : Assembler).emit source with
  | ⟨s, none⟩ => s.finish.mapError .diagnostic
  | ⟨_, some failure⟩ => .error failure

/-- The code of a source text. -/
def assembleBytes (source : String) : Except Failure Bytes :=
  (assembleSource source).map (·.bytes)

/-- The object file of a source text, as its image. -/
def assembleObject (source : String) : Except Failure Bytes :=
  (assembleSource source).map (·.objectFile.image)

end X64Asm
