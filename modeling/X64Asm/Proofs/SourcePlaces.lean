import Mathlib.Data.List.DropRight
import X64Asm.Proofs.ByteText

/-! # Lines and columns

A place in a text is given by its offset in bytes.  Its line is told by the line ends ahead of it, and
its column by the bytes that follow the last of these (`lineAt`, `columnAt`).  Both are counted
without a bound here.  A position that is advanced character by character has them in words
(`Position.advance_start`), since no byte of another character looks like a line end.

Neither exceeds the offset by more than one.  So they are words as they stand if the text is shorter
than the greatest word (`Span.Faithful.exact`). -/

namespace X64Asm

open Checked (units units_append units_cons units_cons_ascii le_of_mem_units length_units
  byteLength_of_ascii)

/-- The line behind some bytes, counted from one. -/
def lineBehind (bytes : List Char) : Nat := 1 + bytes.count '\n'

/-- The column behind some bytes, counted from one. -/
def columnBehind (bytes : List Char) : Nat := 1 + (bytes.rtakeWhile (· ≠ '\n')).length

theorem lineBehind_le (bytes : List Char) : lineBehind bytes ≤ bytes.length + 1 := by
  have hcount : bytes.count '\n' ≤ bytes.length := List.count_le_length
  unfold lineBehind
  omega

theorem columnBehind_le (bytes : List Char) : columnBehind bytes ≤ bytes.length + 1 := by
  have hsuffix := (List.rtakeWhile_suffix (fun b => decide (b ≠ '\n')) bytes).length_le
  unfold columnBehind
  omega

/-- The bytes of the text ahead of an offset. -/
def bytesAhead (source : String) (offset : Nat) : List Char := (units source.toList).take offset

/-- The line of an offset, counted from one. -/
def lineAt (source : String) (offset : Nat) : Nat := lineBehind (bytesAhead source offset)

/-- The column of an offset, counted from one. -/
def columnAt (source : String) (offset : Nat) : Nat := columnBehind (bytesAhead source offset)

theorem length_bytesAhead_le (source : String) (offset : Nat) :
    (bytesAhead source offset).length ≤ offset := by
  simp [bytesAhead]

/-! ### Characters ahead -/

theorem newline_notMem_units {cs : List Char} (h : '\n' ∉ cs) : '\n' ∉ units cs := by
  induction cs with
  | nil => exact h
  | cons c cs ih =>
      rw [List.mem_cons, not_or] at h
      rw [units_cons, List.mem_append, not_or]
      refine ⟨fun hmem => ?_, ih h.2⟩
      rcases Nat.lt_or_ge c.toNat 128 with hc | hc
      · rw [units_cons_ascii hc] at hmem
        exact h.1 (List.mem_singleton.mp hmem)
      · exact absurd (le_of_mem_units hc hmem) (by decide)

theorem rtakeWhile_append {α : Type} {p : α → Bool} {ys : List α} (h : ∀ y ∈ ys, p y = true)
    (xs : List α) : (xs ++ ys).rtakeWhile p = xs.rtakeWhile p ++ ys := by
  unfold List.rtakeWhile
  rw [List.reverse_append, List.takeWhile_append_of_pos fun y hy => h y (List.mem_reverse.mp hy),
    List.reverse_append, List.reverse_reverse]

section ahead

variable (pre : List Char) {cs : List Char}

theorem lineBehind_line (h : '\n' ∉ cs) :
    lineBehind (units (pre ++ cs)) = lineBehind (units pre) := by
  unfold lineBehind
  rw [units_append, List.count_append, List.count_eq_zero_of_not_mem (newline_notMem_units h),
    Nat.add_zero]

/-- Within a line the column moves as the offset does. -/
theorem columnBehind_line (h : '\n' ∉ cs) :
    columnBehind (units (pre ++ cs)) = columnBehind (units pre) + byteLength cs := by
  have hfree : ∀ u ∈ units cs, decide (u ≠ '\n') = true := by
    intro u hu
    rw [decide_eq_true_eq]
    rintro rfl
    exact newline_notMem_units h hu
  unfold columnBehind
  rw [units_append, rtakeWhile_append hfree, List.length_append, length_units, Nat.add_assoc]

theorem units_newline : units (pre ++ ['\n']) = units pre ++ ['\n'] := by
  rw [units_append, units_cons_ascii (by decide)]
  rfl

theorem lineBehind_newline : lineBehind (units (pre ++ ['\n'])) = lineBehind (units pre) + 1 := by
  unfold lineBehind
  rw [units_newline, List.count_append]
  rfl

theorem columnBehind_newline : columnBehind (units (pre ++ ['\n'])) = 1 := by
  unfold columnBehind
  rw [units_newline, List.rtakeWhile_concat_neg]
  · rfl
  · decide

end ahead

namespace Position

/-- Within a line the column moves as the offset does. -/
theorem advance_line (p : Position) {cs : List Char} (h : '\n' ∉ cs) :
    p.advance cs =
      ⟨p.line, p.col + UInt32.ofNat (byteLength cs), p.offset + byteLength cs⟩ := by
  induction cs generalizing p with
  | nil => simp [byteLength]
  | cons c cs ih =>
      rw [List.mem_cons, not_or] at h
      have hstep : p.step c =
          ⟨p.line, p.col + UInt32.ofNat c.utf8Size, p.offset + c.utf8Size⟩ := if_neg (Ne.symm h.1)
      rw [advance_cons, ih _ h.2, hstep, byteLength, UInt32.ofNat_add, UInt32.add_assoc,
        Nat.add_assoc]

/-- Where the characters ahead lead from the beginning of a text. -/
theorem advance_start (pre : List Char) :
    ({} : Position).advance pre = ⟨UInt32.ofNat (lineBehind (units pre)),
      UInt32.ofNat (columnBehind (units pre)), byteLength pre⟩ := by
  induction pre using List.reverseRecOn with
  | nil => rfl
  | append_singleton pre c ih =>
      rw [advance_append, ih, byteLength_append]
      by_cases hc : c = '\n'
      · subst hc
        rw [lineBehind_newline, columnBehind_newline, UInt32.ofNat_add]
        rfl
      · have hline : '\n' ∉ [c] := fun hmem => hc (List.mem_singleton.mp hmem).symm
        rw [advance_line _ hline, lineBehind_line pre hline, columnBehind_line pre hline,
          UInt32.ofNat_add]

end Position

/-! ### Stretches -/

/-- The stretch is within the text, and its line and column are those of its offset, in words. -/
structure Span.Faithful (source : String) (s : Span) : Prop where
  within : s.offset + s.len ≤ source.utf8ByteSize
  line_eq : s.line = UInt32.ofNat (lineAt source s.offset)
  col_eq : s.col = UInt32.ofNat (columnAt source s.offset)

section places

variable {source : String} {pre cs : List Char}

theorem bytesAhead_eq (h : source.toList = pre ++ cs) :
    bytesAhead source (byteLength pre) = units pre := by
  unfold bytesAhead
  rw [h, units_append, ← length_units pre, List.take_left]

/-- The place behind the characters ahead is where they lead. -/
theorem advance_start_eq (h : source.toList = pre ++ cs) :
    ({} : Position).advance pre = ⟨UInt32.ofNat (lineAt source (byteLength pre)),
      UInt32.ofNat (columnAt source (byteLength pre)), byteLength pre⟩ := by
  unfold lineAt columnAt
  rw [bytesAhead_eq h, Position.advance_start]

theorem Span.Faithful.of_append (h : source.toList = pre ++ cs) {len : Nat}
    (hlen : len ≤ byteLength cs) : ((({} : Position).advance pre).span len).Faithful source := by
  have hsize : byteLength pre + len ≤ source.utf8ByteSize := by
    rw [← byteLength_toList, h, byteLength_append]
    exact Nat.add_le_add_left hlen _
  rw [advance_start_eq h]
  exact ⟨hsize, rfl, rfl⟩

/-- In a text that is shorter than the greatest word, lines and columns are words as they stand. -/
theorem toNat_ofNat_lineAt {offset : Nat} (hbytes : source.utf8ByteSize + 1 < UInt32.size)
    (hoffset : offset ≤ source.utf8ByteSize) :
    (UInt32.ofNat (lineAt source offset)).toNat = lineAt source offset ∧
      (UInt32.ofNat (columnAt source offset)).toNat = columnAt source offset := by
  have hlength := length_bytesAhead_le source offset
  have hline := lineBehind_le (bytesAhead source offset)
  have hcolumn := columnBehind_le (bytesAhead source offset)
  unfold lineAt columnAt
  exact ⟨UInt32.toNat_ofNat_of_lt (by omega), UInt32.toNat_ofNat_of_lt (by omega)⟩

/-- The line and the column are those of the offset. -/
def Span.Exact (source : String) (s : Span) : Prop :=
  s.line.toNat = lineAt source s.offset ∧ s.col.toNat = columnAt source s.offset

theorem Span.Faithful.exact {s : Span} (h : s.Faithful source)
    (hbytes : source.utf8ByteSize + 1 < UInt32.size) : s.Exact source := by
  have hwithin := h.within
  unfold Span.Exact
  rw [h.line_eq, h.col_eq]
  exact toNat_ofNat_lineAt hbytes (by omega)

end places

/-! ### Lines of blanks -/

/-- A text of blanks. -/
def blanks (n : Nat) : String := String.ofList (List.replicate n ' ')

section blanks

variable (n : Nat)

theorem toList_blanks : (blanks n).toList = List.replicate n ' ' := String.toList_ofList

theorem byteLength_replicate_blank : byteLength (List.replicate n ' ') = n := by
  rw [byteLength_of_ascii, List.length_replicate]
  intro c hc
  rw [List.eq_of_mem_replicate hc]
  decide

theorem utf8ByteSize_blanks : (blanks n).utf8ByteSize = n := by
  rw [← byteLength_toList, toList_blanks, byteLength_replicate_blank]

theorem newline_notMem_replicate_blank : '\n' ∉ List.replicate n ' ' :=
  fun hmem => absurd (List.eq_of_mem_replicate hmem) (by decide)

theorem columnBehind_replicate_blank : columnBehind (units (List.replicate n ' ')) = n + 1 := by
  have hcolumn := columnBehind_line [] (newline_notMem_replicate_blank n)
  rw [List.nil_append, byteLength_replicate_blank] at hcolumn
  exact hcolumn.trans (Nat.add_comm 1 n)

theorem columnAt_blanks : columnAt (blanks n) n = n + 1 := by
  have hahead := bytesAhead_eq ((toList_blanks n).trans (List.append_nil _).symm)
  rw [byteLength_replicate_blank] at hahead
  rw [columnAt, hahead, columnBehind_replicate_blank]

theorem scan_replicate_blank (p : Position) : scan p (List.replicate n ' ') =
    .ok [⟨.eof, "", (p.advance (List.replicate n ' ')).span 0⟩] := by
  induction n generalizing p with
  | zero =>
      rw [List.replicate_zero, scan]
      rfl
  | succ n ih => rw [List.replicate_succ, scan_blank rfl, ih, Position.advance_cons]

/-- There is nothing but the end mark. -/
theorem tokenize_blanks :
    tokenize (blanks n) = .ok [⟨.eof, "", ⟨1, UInt32.ofNat (n + 1), n, 0⟩⟩] := by
  have hline := lineBehind_line [] (newline_notMem_replicate_blank n)
  rw [List.nil_append] at hline
  rw [tokenize, toList_blanks, scan_replicate_blank, Position.advance_start, hline,
    columnBehind_replicate_blank, byteLength_replicate_blank]
  rfl

end blanks

end X64Asm
