import X64Asm.Json.Value

/-! # Stored forms

How the values of the library are stored as JSON.  `JsonForm.toJson` writes a value and
`JsonForm.ofJson?` reads it back.  Integers are read in the range of the field they are for. -/

namespace X64Asm

/-- A type whose values are stored as JSON. -/
class JsonForm (α : Type) where
  toJson : α → Json
  ofJson? : Json → Option α

export JsonForm (toJson ofJson?)

instance : JsonForm String := ⟨.str, Json.str?⟩

instance : JsonForm Bool := ⟨.bool, Json.bool?⟩

instance : JsonForm UInt8 :=
  ⟨fun n => .int n.toNat, fun j => (j.unsigned? 8).map UInt8.ofNat⟩

instance : JsonForm UInt32 :=
  ⟨fun n => .int n.toNat, fun j => (j.unsigned? 32).map UInt32.ofNat⟩

/-- Counts, sizes and offsets are stored in 64 bits. -/
instance : JsonForm Nat := ⟨fun n => .int n, Json.unsigned? 64⟩

instance {α : Type} [JsonForm α] : JsonForm (List α) :=
  ⟨fun xs => .arr (xs.map toJson), fun j => do (← j.items?).mapM ofJson?⟩

instance {α β : Type} [JsonForm α] [JsonForm β] : JsonForm (α × β) where
  toJson p := .arr [toJson p.1, toJson p.2]
  ofJson? j := do
    let [a, b] ← j.items? | none
    return (← ofJson? a, ← ofJson? b)

end X64Asm
