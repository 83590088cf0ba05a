import X64Asm.Word

/-! # JSON values

The values in which programs, tables and reports are stored.

* A record is an object with a member for each field; members of other names are ignored.  It may
  also be an array of the fields in order.
* A case of an enumeration that holds nothing is its name; a case that holds something is an object
  with the name as its only member.

Reading gives nothing when the value does not have the shape asked for. -/

namespace X64Asm

/-- A JSON value.  A number that is not taken for an integer is kept as it is written. -/
inductive Json where
  | null
  | bool (value : Bool)
  | int (value : Int)
  | real (text : String)
  | str (value : String)
  | arr (items : List Json)
  | obj (members : List (String × Json))
  deriving Inhabited

namespace Json

/-- The integer of a signed word. -/
def signed? (bits : Nat) : Json → Option Int
  | int value => if FitsSigned bits value then some value else none
  | _ => none

/-- The number of an unsigned word. -/
def unsigned? (bits : Nat) : Json → Option Nat
  | int value => if FitsUnsigned bits value then some value.toNat else none
  | _ => none

/-- The string. -/
def str? : Json → Option String
  | str value => some value
  | _ => none

/-- The truth value. -/
def bool? : Json → Option Bool
  | bool value => some value
  | _ => none

/-- The items of an array. -/
def items? : Json → Option (List Json)
  | arr items => some items
  | _ => none

/-- The members of an object. -/
def members? : Json → Option (List (String × Json))
  | obj members => some members
  | _ => none

/-- The fields of the given names of an object. -/
def namedFields? (names : List String) (json : Json) : Option (List Json) := do
  let members ← json.members?
  names.mapM fun name => members.lookup name

/-- The fields of a record, by name or in order. -/
def fields? (names : List String) : Json → Option (List Json)
  | arr items => if items.length = names.length then some items else none
  | json => json.namedFields? names

/-- The name of a case, and what it holds. -/
def variant? : Json → Option (String × Option Json)
  | str name => some (name, none)
  | obj [(name, held)] => some (name, some held)
  | _ => none

/-- The name of a case that holds nothing. -/
def tag? (json : Json) : Option String :=
  match json.variant? with
  | some (name, none) | some (name, some null) => some name
  | _ => none

/-- The name of a case that holds something, and what it holds. -/
def holder? (json : Json) : Option (String × Json) :=
  match json.variant? with
  | some (name, some held) => some (name, held)
  | _ => none

/-- A case that holds something. -/
def holder (name : String) (held : Json) : Json := obj [(name, held)]

end Json

end X64Asm
