import X64Asm.Assembler.Basic
import X64Asm.Json.Form

/-! # Stored settings

The stored forms of the options and limits of an assembler. -/

namespace X64Asm

instance : JsonForm Imm16Layout where
  toJson
    | .fourBytes => .str "Legacy32"
    | .twoBytes => .str "Native16"
  ofJson? j :=
    match j.tag? with
    | some "Legacy32" => some .fourBytes
    | some "Native16" => some .twoBytes
    | _ => none

instance : JsonForm Limits where
  toJson l := .obj [("max_statements", toJson l.statements), ("max_labels", toJson l.labels),
    ("max_output_bytes", toJson l.outputBytes), ("max_source_bytes", toJson l.sourceBytes)]
  ofJson? j := do
    let [statements, labels, outputBytes, sourceBytes] ← j.fields?
      ["max_statements", "max_labels", "max_output_bytes", "max_source_bytes"] | none
    return ⟨← ofJson? statements, ← ofJson? labels, ← ofJson? outputBytes, ← ofJson? sourceBytes⟩

instance : JsonForm Options where
  toJson o := .obj [("imm16", toJson o.imm16), ("emit_data", toJson o.emitData),
    ("limits", toJson o.limits)]
  ofJson? j := do
    let [imm16, emitData, limits] ← j.fields? ["imm16", "emit_data", "limits"] | none
    return ⟨← ofJson? imm16, ← ofJson? emitData, ← ofJson? limits⟩

/-- What changes the bytes of a single instruction, as a record of its own. -/
structure InstructionOptions where
  imm16 : Imm16Layout := .fourBytes
  deriving DecidableEq, Repr

instance : JsonForm InstructionOptions where
  toJson o := .obj [("imm16", toJson o.imm16)]
  ofJson? j := do
    let [imm16] ← j.fields? ["imm16"] | none
    return ⟨← ofJson? imm16⟩

end X64Asm
