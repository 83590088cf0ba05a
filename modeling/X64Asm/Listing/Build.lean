import X64Asm.Listing.Basic
import X64Asm.Statement.Read
import X64Asm.Token.Scan

/-! # From statements to listings

Statements are put into sections one after the other.  Entries go into the section that was entered
last; those ahead of the first go into a section without a name.  A section takes its place in the
listing when it is left, an import or export at once, so the declarations that are made inside a
section stand ahead of it. -/

namespace X64Asm

namespace Listing

/-- A listing in the making. -/
structure Draft where
  /-- The processor mode in force. -/
  bits : UInt8 := 64
  /-- The parts that have their place. -/
  placed : Array Directive := #[]
  /-- The section that is open: its name and entries. -/
  current : Option (String × Array SectionEntry) := none

namespace Draft

/-- Adds an entry to the open section. -/
def addEntry (d : Draft) (entry : SectionEntry) : Draft :=
  match d.current with
  | some (name, entries) => { d with current := some (name, entries.push entry) }
  | none => { d with current := some ("", #[entry]) }

/-- Gives the open section its place.  One without a name and without entries has none. -/
def leave (d : Draft) : Draft :=
  match d.current with
  | some (name, entries) =>
    if name.isEmpty && entries.isEmpty then { d with current := none }
    else { d with placed := d.placed.push (.sectionBlock name entries.toList), current := none }
  | none => d

/-- Adds a statement. -/
def add (d : Draft) : Statement → Draft
  | .label name => d.addEntry (.label name)
  | .mode bits => { d with bits }
  | .enter name => { d.leave with current := some (name, #[]) }
  | .imports names => { d with placed := d.placed ++ names.map Directive.importSymbol }
  | .exports names => { d with placed := d.placed ++ names.map Directive.exportSymbol }
  | .data values => values.foldl (fun d bytes => d.addEntry (.data bytes)) d
  | .instruction mnemonic operands => d.addEntry (.instruction ⟨d.bits, mnemonic, operands⟩)

end Draft

/-- The listing of a sequence of statements. -/
def ofStatements (statements : List Statement) : Listing :=
  ⟨(statements.foldl Draft.add {}).leave.placed.toList⟩

/-- The listing that a token sequence spells. -/
def ofTokens (tokens : List Token) : Except Diagnostic Listing :=
  (readStatements tokens).map ofStatements

/-- The listing that a source text spells. -/
def parse (source : String) : Except Diagnostic Listing := do
  let tokens ← tokenize source
  ofTokens tokens

end Listing

end X64Asm
