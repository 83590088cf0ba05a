/-! # Sorted tables

A table of rows with distinct names in ascending order, searched by halving.

The order of names is that of their characters' code points.  The rows carry the proof that they
are in order, so a search that discards half of them never discards the row it looks for. -/

namespace X64Asm

/-- Rows with names in strictly ascending order. -/
structure SortedTable (α : Type) where
  rows : Array (String × α)
  ascending : rows.toList.Pairwise (fun a b => a.1 < b.1) := by decide +kernel

namespace SortedTable

variable {α : Type}

/-- Searches the rows from `lo` up to `hi`, exclusive, by comparing with the middle one. -/
def search (rows : Array (String × α)) (name : String) (lo hi : Nat) : Option α :=
  if lo < hi then
    match rows[(lo + hi) / 2]? with
    | none => none
    | some (other, row) =>
      if name < other then search rows name lo ((lo + hi) / 2)
      else if other < name then search rows name ((lo + hi) / 2 + 1) hi
      else some row
  else none
termination_by hi - lo

/-- The row of the given name. -/
def find? (t : SortedTable α) (name : String) : Option α :=
  search t.rows name 0 t.rows.size

/-- The names of the table, in order. -/
def names (t : SortedTable α) : List String :=
  t.rows.toList.map (·.1)

end SortedTable

end X64Asm
