import X64Asm.Assembler.Basic
import X64Asm.Json.Form

/-! # Stored programs

The stored forms of operands, listings, symbol tables and assembled programs. -/

namespace X64Asm

/-! ### Operands -/

instance : JsonForm Width where
  toJson
    | .unsized => .str "None"
    | .byte => .str "Byte"
    | .word => .str "Word"
    | .dword => .str "Dword"
    | .qword => .str "Qword"
  ofJson? j :=
    match j.tag? with
    | some "None" => some .unsized
    | some "Byte" => some .byte
    | some "Word" => some .word
    | some "Dword" => some .dword
    | some "Qword" => some .qword
    | _ => none

instance : JsonForm Kind where
  toJson
    | .register => .str "Register"
    | .memory => .str "Memory"
    | .immediate => .str "Immediate"
    | .fixed => .str "Fixed"
  ofJson? j :=
    match j.tag? with
    | some "Register" => some .register
    | some "Memory" => some .memory
    | some "Immediate" => some .immediate
    | some "Fixed" => some .fixed
    | _ => none

instance : JsonForm Register where
  toJson r := .obj [("name", toJson r.name), ("size", toJson r.width)]
  ofJson? j := do
    let [name, size] ← j.fields? ["name", "size"] | none
    return ⟨← ofJson? name, ← ofJson? size⟩

instance : JsonForm Immediate where
  toJson
    | .imm8 v => .holder "Imm8" (.int v.toInt)
    | .imm16 v => .holder "Imm16" (.int v.toInt)
    | .imm32 v => .holder "Imm32" (.int v.toInt)
    | .imm64 v => .holder "Imm64" (.int v.toInt)
  ofJson? j := do
    match ← j.holder? with
    | ("Imm8", v) => return .imm8 (.ofInt (← v.signed? 8))
    | ("Imm16", v) => return .imm16 (.ofInt (← v.signed? 16))
    | ("Imm32", v) => return .imm32 (.ofInt (← v.signed? 32))
    | ("Imm64", v) => return .imm64 (.ofInt (← v.signed? 64))
    | _ => none

instance : JsonForm Address where
  toJson
    | .base r => .holder "Register" (toJson r)
    | .displacement imm => .holder "Displacement" (toJson imm)
  ofJson? j := do
    match ← j.holder? with
    | ("Register", r) => return .base (← ofJson? r)
    | ("Displacement", imm) => return .displacement (← ofJson? imm)
    | _ => none

instance : JsonForm Operand where
  toJson
    | .register r => .holder "Register" (toJson r)
    | .memory a => .holder "Memory" (toJson a)
    | .immediate imm => .holder "Immediate" (toJson imm)
  ofJson? j := do
    match ← j.holder? with
    | ("Register", r) => return .register (← ofJson? r)
    | ("Memory", a) => return .memory (← ofJson? a)
    | ("Immediate", imm) => return .immediate (← ofJson? imm)
    | _ => none

/-! ### Listings -/

instance : JsonForm Instruction where
  toJson i := .obj [("bits", toJson i.bits), ("mnemonic", toJson i.mnemonic),
    ("operands", toJson i.operands)]
  ofJson? j := do
    let [bits, mnemonic, operands] ← j.fields? ["bits", "mnemonic", "operands"] | none
    return ⟨← ofJson? bits, ← ofJson? mnemonic, ← ofJson? operands⟩

instance : JsonForm SectionEntry where
  toJson
    | .instruction i => .holder "Instruction" (toJson i)
    | .data bytes => .holder "Data" (.obj [("bytes", toJson bytes)])
    | .label name => .holder "Label" (.obj [("name", toJson name)])
  ofJson? j := do
    match ← j.holder? with
    | ("Instruction", i) => return .instruction (← ofJson? i)
    | ("Data", held) =>
      let [bytes] ← held.namedFields? ["bytes"] | none
      return .data (← ofJson? bytes)
    | ("Label", held) =>
      let [name] ← held.namedFields? ["name"] | none
      return .label (← ofJson? name)
    | _ => none

instance : JsonForm Directive where
  toJson
    | .importSymbol name => .holder "Extern" (.obj [("name", toJson name)])
    | .exportSymbol name => .holder "Global" (.obj [("name", toJson name)])
    | .sectionBlock name entries =>
      .holder "Section" (.obj [("name", toJson name), ("entries", toJson entries)])
  ofJson? j := do
    match ← j.holder? with
    | ("Extern", held) =>
      let [name] ← held.namedFields? ["name"] | none
      return .importSymbol (← ofJson? name)
    | ("Global", held) =>
      let [name] ← held.namedFields? ["name"] | none
      return .exportSymbol (← ofJson? name)
    | ("Section", held) =>
      let [name, entries] ← held.namedFields? ["name", "entries"] | none
      return .sectionBlock (← ofJson? name) (← ofJson? entries)
    | _ => none

instance : JsonForm Listing where
  toJson l := .obj [("directives", toJson l.directives)]
  ofJson? j := do
    let [directives] ← j.fields? ["directives"] | none
    return ⟨← ofJson? directives⟩

/-! ### Symbols -/

instance : JsonForm SymbolKind where
  toJson kind := .str kind.render
  ofJson? j :=
    match j.tag? with
    | some "Normal" => some .normal
    | some "Imported" => some .imported
    | some "Exported" => some .exported
    | _ => none

instance : JsonForm Symbol where
  toJson s := .obj [("name", toJson s.name), ("index", toJson s.index), ("kind", toJson s.kind)]
  ofJson? j := do
    let [name, index, kind] ← j.fields? ["name", "index", "kind"] | none
    return ⟨← ofJson? name, ← ofJson? index, ← ofJson? kind⟩

/-- Reads a member of an object of symbols. -/
def symbolMember? (member : String × Json) : Option (String × Symbol) :=
  (ofJson? member.2).map fun symbol => (member.1, symbol)

instance : JsonForm SymbolTable where
  toJson t := .obj [("symbols", .obj (t.symbols.toList.map fun (name, s) => (name, toJson s)))]
  ofJson? j := do
    let [symbols] ← j.fields? ["symbols"] | none
    return ⟨.ofList (← (← symbols.members?).mapM symbolMember?)⟩

/-! ### Assembled programs -/

instance : JsonForm Assembly where
  toJson a := .obj [("bytes", toJson a.bytes), ("labels", toJson a.labels),
    ("symbols", toJson a.symbols)]
  ofJson? j := do
    let [bytes, labels, symbols] ← j.fields? ["bytes", "labels", "symbols"] | none
    return ⟨← ofJson? bytes, ← ofJson? labels, ← ofJson? symbols⟩

end X64Asm
