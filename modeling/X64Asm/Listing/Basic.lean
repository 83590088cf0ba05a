import X64Asm.Bytes
import X64Asm.Instruction

/-! # Listings

A program as a tree.  A listing is a sequence of directives; a directive makes a symbol known from
outside or to the outside, or holds a section.  A section has a name and a sequence of entries:
instructions, data and labels.

A `Node` is any part of the tree that can be handed over on its own. -/

namespace X64Asm

/-- One entry of a section. -/
inductive SectionEntry where
  | instruction (instruction : Instruction)
  | data (bytes : Bytes)
  | label (name : String)
  deriving DecidableEq, Repr

/-- One part of a listing. -/
inductive Directive where
  /-- The symbol is defined elsewhere. -/
  | importSymbol (name : String)
  /-- The symbol is offered to others. -/
  | exportSymbol (name : String)
  /-- A stretch of the named section. -/
  | sectionBlock (name : String) (entries : List SectionEntry)
  deriving DecidableEq, Repr

/-- A program. -/
structure Listing where
  directives : List Directive
  deriving DecidableEq, Repr

/-- Any part of a program. -/
inductive Node where
  | listing (listing : Listing)
  | directive (directive : Directive)
  | entry (entry : SectionEntry)
  | operand (operand : Operand)
  deriving DecidableEq, Repr

/-- The word for what a node is. -/
def Node.describe : Node → String
  | listing _ => "listing"
  | directive (.importSymbol _) => "extern"
  | directive (.exportSymbol _) => "global"
  | directive (.sectionBlock _ _) => "section"
  | entry (.instruction _) => "instruction"
  | entry (.data _) => "data"
  | entry (.label _) => "label"
  | operand _ => "operand"

end X64Asm
