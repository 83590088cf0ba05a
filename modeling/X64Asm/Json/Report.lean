import X64Asm.Diagnostic
import X64Asm.Json.Form

/-! # Stored reports

The stored forms of diagnostics and of the places they point at. -/

namespace X64Asm

instance : JsonForm Span where
  toJson s := .obj [("line", toJson s.line), ("col", toJson s.col), ("offset", toJson s.offset),
    ("len", toJson s.len)]
  ofJson? j := do
    let [line, col, offset, len] ← j.fields? ["line", "col", "offset", "len"] | none
    return ⟨← ofJson? line, ← ofJson? col, ← ofJson? offset, ← ofJson? len⟩

/-- The value that does not fit its directive is stored in 128 bits. -/
instance : JsonForm Diagnostic where
  toJson
    | .noEncoding instruction =>
      .holder "EncodingNotFound" (.obj [("instruction", toJson instruction)])
    | .unknownRegister name => .holder "InvalidRegister" (.obj [("name", toJson name)])
    | .missingDisplacement detail =>
      .holder "MissingDisplacement" (.obj [("detail", toJson detail)])
    | .unsupportedNode node => .holder "UnsupportedNode" (.obj [("node", toJson node)])
    | .malformed message span =>
      .holder "Syntax" (.obj [("msg", toJson message), ("span", toJson span)])
    | .dataOverflow value size span =>
      .holder "DataOverflow"
        (.obj [("value", .int value), ("size", toJson size), ("span", toJson span)])
    | .limitExceeded resource limit =>
      .holder "ResourceLimitExceeded"
        (.obj [("resource", toJson resource), ("limit", toJson limit)])
  ofJson? j := do
    match ← j.holder? with
    | ("EncodingNotFound", held) =>
      let [instruction] ← held.namedFields? ["instruction"] | none
      return .noEncoding (← ofJson? instruction)
    | ("InvalidRegister", held) =>
      let [name] ← held.namedFields? ["name"] | none
      return .unknownRegister (← ofJson? name)
    | ("MissingDisplacement", held) =>
      let [detail] ← held.namedFields? ["detail"] | none
      return .missingDisplacement (← ofJson? detail)
    | ("UnsupportedNode", held) =>
      let [node] ← held.namedFields? ["node"] | none
      return .unsupportedNode (← ofJson? node)
    | ("Syntax", held) =>
      let [message, span] ← held.namedFields? ["msg", "span"] | none
      return .malformed (← ofJson? message) (← ofJson? span)
    | ("DataOverflow", held) =>
      let [value, size, span] ← held.namedFields? ["value", "size", "span"] | none
      return .dataOverflow (← value.signed? 128) (← ofJson? size) (← ofJson? span)
    | ("ResourceLimitExceeded", held) =>
      let [resource, limit] ← held.namedFields? ["resource", "limit"] | none
      return .limitExceeded (← ofJson? resource) (← ofJson? limit)
    | _ => none

end X64Asm
