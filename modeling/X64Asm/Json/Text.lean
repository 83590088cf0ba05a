import Std.Data.TreeMap
import X64Asm.Json.Lexeme

/-! # JSON text

Reading a value from its text, one lexeme after the other.  The values that have been begun and are
not complete yet are kept as frames, the innermost first. -/

namespace X64Asm

namespace Json

/-- A value that has been begun.  What it holds so far stands in reverse. -/
inductive Frame where
  | items (before : List Json)
  /-- An object whose next member has the given name. -/
  | members (before : List (String × Json)) (name : String)

/-- The object of the members that were read, which stand in reverse.  They are put in the order of
their names, and of two members of one name the later counts. -/
def ofMembers (members : List (String × Json)) : Json :=
  obj (Std.TreeMap.ofList members.reverse compare).toList

/-- What has been read, and what may come next. -/
inductive Reader where
  | expectValue (outer : List Frame)
  | arrayOpened (outer : List Frame)
  | objectOpened (outer : List Frame)
  | expectName (before : List (String × Json)) (outer : List Frame)
  | expectColon (before : List (String × Json)) (name : String) (outer : List Frame)
  | complete (value : Json) (outer : List Frame)

namespace Reader

/-- Goes on with a lexeme that begins a value. -/
def enter (outer : List Frame) : Lexeme → Option Reader
  | .openArray => some (arrayOpened outer)
  | .openObject => some (objectOpened outer)
  | .str value => some (complete (.str value) outer)
  | .atom value => some (complete value outer)
  | _ => none

/-- Goes on with a lexeme after a value that stands in a frame. -/
def leave (value : Json) (outer : List Frame) : Frame → Lexeme → Option Reader
  | .items before, .comma => some (expectValue (.items (value :: before) :: outer))
  | .items before, .closeArray => some (complete (.arr (value :: before).reverse) outer)
  | .members before name, .comma => some (expectName ((name, value) :: before) outer)
  | .members before name, .closeObject =>
    some (complete (ofMembers ((name, value) :: before)) outer)
  | _, _ => none

/-- Goes on with a lexeme. -/
def step : Reader → Lexeme → Option Reader
  | expectValue outer, lexeme => enter outer lexeme
  | arrayOpened outer, .closeArray => some (complete (.arr []) outer)
  | arrayOpened outer, lexeme => enter (.items [] :: outer) lexeme
  | objectOpened outer, .closeObject => some (complete (.obj []) outer)
  | objectOpened outer, .str name => some (expectColon [] name outer)
  | expectName before outer, .str name => some (expectColon before name outer)
  | expectColon before name outer, .colon => some (expectValue (.members before name :: outer))
  | complete value (frame :: outer), lexeme => leave value outer frame lexeme
  | _, _ => none

/-- The value, if it is complete and nothing is open. -/
def finish? : Reader → Option Json
  | complete value [] => some value
  | _ => none

/-- Goes on with a text. -/
def run? (r : Reader) (cs : List Char) : Option Json :=
  match cs with
  | [] => r.finish?
  | c :: cs =>
    if Lexeme.isBlank c then r.run? cs
    else
      match Lexeme.read? c cs with
      | none => none
      | some (lexeme, more) =>
        match r.step lexeme with
        | none => none
        | some after => after.run? (cs.drop more)
termination_by cs.length

end Reader

/-- The value that a text stands for. -/
def parse? (text : String) : Option Json := (Reader.expectValue []).run? text.toList

end Json

end X64Asm
