import X64Asm.MachineCode.Buffer

/-! # What a buffer holds

A buffer is a list of at most `instructionCapacity` bytes.  Steps add to it, one byte or a run of
bytes at a time; a step that fails leaves the buffer as it was.  Whatever the steps were, the bytes
in use are those of the steps that did not fail, one after the other, and the next step fails
exactly when its bytes would be too many (`contents_of_run`).

The same is shown of a buffer whose storage is of any length and whose size is a single byte
(`RawBuffer`).  There a step that meets a place outside the storage has no result, and a size that
has outgrown its byte is cut. -/

namespace X64Asm

/-- A step that adds to a buffer. -/
inductive BufferStep where
  | push (byte : UInt8)
  | append (bytes : Bytes)

namespace BufferStep

/-- The bytes that a step adds. -/
def bytes : BufferStep → Bytes
  | push byte => [byte]
  | append bytes => bytes

/-- The overflow of a step on a buffer with `size` bytes in use. -/
def overflow (size : Nat) : BufferStep → Overflow
  | push _ => .push
  | append bytes => .append size bytes.length

end BufferStep

namespace InstructionBuffer

/-- Takes a step. -/
def add (buf : InstructionBuffer) : BufferStep → Except Failure InstructionBuffer
  | .push byte => buf.push byte
  | .append bytes => buf.append bytes

/-- The buffer after a step. -/
def after (buf : InstructionBuffer) (step : BufferStep) : InstructionBuffer :=
  match buf.add step with
  | .ok grown => grown
  | .error _ => buf

/-- The buffer after all the steps. -/
def run (buf : InstructionBuffer) (steps : List BufferStep) : InstructionBuffer :=
  steps.foldl after buf

/-- The steps that do not fail. -/
def taken (buf : InstructionBuffer) : List BufferStep → List BufferStep
  | [] => []
  | step :: steps =>
    match buf.add step with
    | .ok grown => step :: grown.taken steps
    | .error _ => buf.taken steps

/-! ### One step -/

variable {buf : InstructionBuffer} {step : BufferStep}

theorem add_of_room (room : buf.size + step.bytes.length ≤ instructionCapacity) :
    ∃ grown, buf.add step = .ok grown ∧ grown.toList = buf.toList ++ step.bytes := by
  cases step with
  | push byte =>
    have hpush : buf.push byte = .ok ⟨_, _, room⟩ := dif_pos room
    exact ⟨_, hpush, toList_push hpush⟩
  | append bytes =>
    have happend : buf.append bytes = .ok ⟨_, _, room⟩ := dif_pos room
    exact ⟨_, happend, toList_append happend⟩

theorem add_of_no_room (full : instructionCapacity < buf.size + step.bytes.length) :
    buf.add step = .error (.overflow (step.overflow buf.size)) := by
  cases step with
  | push byte => exact dif_neg (Nat.not_lt.mpr (Nat.le_of_lt_succ full))
  | append bytes => exact dif_neg (Nat.not_le.mpr full)

theorem add_eq_error_iff {f : Failure} :
    buf.add step = .error f ↔
      instructionCapacity < buf.size + step.bytes.length ∧
        f = .overflow (step.overflow buf.size) := by
  rcases Nat.lt_or_ge instructionCapacity (buf.size + step.bytes.length) with full | room
  · simp [add_of_no_room full, full, eq_comm]
  · obtain ⟨grown, hadd, -⟩ := add_of_room room
    simp [hadd, Nat.not_lt.mpr room]

/-! ### A run -/

/-- A run adds the bytes of the steps that do not fail. -/
theorem toList_run (buf : InstructionBuffer) (steps : List BufferStep) :
    (buf.run steps).toList = buf.toList ++ (buf.taken steps).flatMap BufferStep.bytes := by
  induction steps generalizing buf with
  | nil => simp [run, taken]
  | cons step steps ih =>
    have hrun : buf.run (step :: steps) = (buf.after step).run steps := rfl
    rcases Nat.lt_or_ge instructionCapacity (buf.size + step.bytes.length) with full | room
    · rw [hrun, ih]
      simp [after, taken, add_of_no_room full]
    · obtain ⟨grown, hadd, hgrown⟩ := add_of_room room
      rw [hrun, ih]
      simp [after, taken, hadd, hgrown]

theorem beq_iff {a b : InstructionBuffer} : (a == b) = true ↔ a.toList = b.toList :=
  beq_iff_eq (a := a.toList)

end InstructionBuffer

/-! ### A size of one byte -/

/-- A buffer as it is laid out: nothing ties the size to the storage. -/
structure RawBuffer where
  storage : Bytes
  size : UInt8

namespace RawBuffer

def empty : RawBuffer := ⟨List.replicate instructionCapacity 0, 0⟩

/-- Takes a step: no result where a place lies outside the storage, or where counting one byte up
passes what the size can hold.  The size after a run of bytes is cut without a look at it. -/
def add (raw : RawBuffer) : BufferStep → Option (Except Failure RawBuffer)
  | .push byte =>
    if raw.size.toNat < instructionCapacity then
      if raw.size.toNat < raw.storage.length ∧ raw.size.toNat + 1 < UInt8.size then
        some (.ok ⟨raw.storage.set raw.size.toNat byte, raw.size + 1⟩)
      else none
    else some (.error (.overflow .push))
  | .append bytes =>
    let start := raw.size.toNat
    let stop := start + bytes.length
    if stop ≤ instructionCapacity then
      if stop ≤ raw.storage.length then
        some (.ok ⟨raw.storage.take start ++ bytes ++ raw.storage.drop stop, UInt8.ofNat stop⟩)
      else none
    else some (.error (.overflow (.append start bytes.length)))

def after (raw : RawBuffer) (step : BufferStep) : Option RawBuffer :=
  (raw.add step).map fun
    | .ok grown => grown
    | .error _ => raw

def run (raw : RawBuffer) (steps : List BufferStep) : Option RawBuffer :=
  steps.foldlM after raw

/-- The bytes in use, if they all lie in the storage. -/
def toList? (raw : RawBuffer) : Option Bytes :=
  if raw.size.toNat ≤ raw.storage.length then some (raw.storage.take raw.size.toNat) else none

/-- Compares the bytes in use. -/
def same? (a b : RawBuffer) : Option Bool := do
  return (← a.toList?) == (← b.toList?)

end RawBuffer

namespace InstructionBuffer

/-- The layout of a buffer. -/
def raw (buf : InstructionBuffer) : RawBuffer := ⟨buf.storage.toList, UInt8.ofNat buf.size⟩

theorem raw_empty : empty.raw = RawBuffer.empty := by
  simp [raw, empty, RawBuffer.empty]

/-- A size never outgrows its byte. -/
@[simp] theorem toNat_size_raw (buf : InstructionBuffer) : buf.raw.size.toNat = buf.size := by
  have hsize : buf.size < 2 ^ 8 := Nat.lt_of_le_of_lt buf.size_le (by decide)
  rw [raw, UInt8.toNat_ofNat', Nat.mod_eq_of_lt hsize]

@[simp] theorem length_storage_raw (buf : InstructionBuffer) :
    buf.raw.storage.length = instructionCapacity := by
  simp [raw]

@[simp] theorem toList?_raw (buf : InstructionBuffer) : buf.raw.toList? = some buf.toList := by
  rw [RawBuffer.toList?, toNat_size_raw, length_storage_raw, if_pos buf.size_le]
  rfl

theorem same?_raw (a b : InstructionBuffer) : a.raw.same? b.raw = some (a == b) := by
  simp [RawBuffer.same?, BEq.beq]

/-- Storing leaves the bytes behind the last place alone. -/
theorem drop_store (storage : Vector UInt8 instructionCapacity) (start : Nat) (bytes : Bytes) :
    (store storage start bytes).toList.drop (start + bytes.length) =
      storage.toList.drop (start + bytes.length) := by
  induction bytes generalizing storage start with
  | nil => rfl
  | cons byte bytes ih =>
    have next := ih (storage.setIfInBounds start byte) (start + 1)
    rw [store, List.length_cons,
      show start + (bytes.length + 1) = start + 1 + bytes.length by omega, next, Vector.toList_setIfInBounds, List.drop_set_of_lt (by omega)]

/-- Storing puts the run in the place of as many bytes. -/
theorem toList_store (storage : Vector UInt8 instructionCapacity) (start : Nat) (bytes : Bytes)
    (room : start + bytes.length ≤ instructionCapacity) :
    (store storage start bytes).toList =
      storage.toList.take start ++ bytes ++ storage.toList.drop (start + bytes.length) := by
  rw [← take_store storage start bytes room, ← drop_store storage start bytes,
    List.take_append_drop]

/-- A step on the layout is the step on the buffer. -/
theorem add_raw (buf : InstructionBuffer) (step : BufferStep) :
    buf.raw.add step = some ((buf.add step).map raw) := by
  cases step with
  | push byte =>
    simp only [RawBuffer.add, add, push, toNat_size_raw, length_storage_raw]
    by_cases room : buf.size < instructionCapacity
    · have hfits : buf.size + 1 < UInt8.size := Nat.lt_of_le_of_lt room (by decide)
      rw [if_pos room, if_pos ⟨room, hfits⟩, dif_pos room]
      simp [Except.map, raw, Vector.toList_set, UInt8.ofNat_add]
    · rw [if_neg room, dif_neg room]
      rfl
  | append bytes =>
    simp only [RawBuffer.add, add, append, toNat_size_raw, length_storage_raw]
    by_cases room : buf.size + bytes.length ≤ instructionCapacity
    · rw [if_pos room, if_pos room, dif_pos room]
      simp [Except.map, raw, toList_store _ _ _ room]
    · rw [if_neg room, dif_neg room]
      rfl

theorem after_raw (buf : InstructionBuffer) (step : BufferStep) :
    buf.raw.after step = some (buf.after step).raw := by
  rw [RawBuffer.after, add_raw, after]
  cases buf.add step with
  | ok grown => rfl
  | error f => rfl

theorem run_raw (buf : InstructionBuffer) (steps : List BufferStep) :
    buf.raw.run steps = some (buf.run steps).raw := by
  induction steps generalizing buf with
  | nil => rfl
  | cons step steps ih =>
    have hrest := ih (buf.after step)
    rw [RawBuffer.run] at hrest ⊢
    rw [List.foldlM_cons, after_raw]
    exact hrest

/-! ### The contents -/

/-- A buffer that is seen from outside as the list `contents`, and so is its layout. -/
structure Holds (buf : InstructionBuffer) (contents : Bytes) : Prop where
  view : buf.toList = contents
  size : buf.size = contents.length
  empty : buf.size = 0 ↔ contents = []
  bounded : contents.length ≤ instructionCapacity
  /-- A step fails exactly when its bytes are too many, with the overflow of that step. -/
  fails : ∀ step f, buf.add step = .error f ↔
    instructionCapacity < contents.length + step.bytes.length ∧
      f = .overflow (step.overflow contents.length)
  layoutView : buf.raw.toList? = some contents
  layoutSize : buf.raw.size.toNat = contents.length
  layoutStep : ∀ step, buf.raw.add step = some ((buf.add step).map InstructionBuffer.raw)

theorem holds_toList (buf : InstructionBuffer) : buf.Holds buf.toList where
  view := rfl
  size := buf.length_toList.symm
  empty := by rw [← List.length_eq_zero_iff, length_toList]
  bounded := by simpa using buf.size_le
  fails step f := by rw [length_toList, add_eq_error_iff]
  layoutView := buf.toList?_raw
  layoutSize := by simp
  layoutStep := buf.add_raw

/-- After any steps on an empty buffer it holds the bytes of those that did not fail, and the
layout has gone the same way.  Two buffers are equal when they hold the same bytes, whatever lies
behind these. -/
theorem contents_of_run :
    (∀ steps, (empty.run steps).Holds ((empty.taken steps).flatMap BufferStep.bytes) ∧
      RawBuffer.empty.run steps = some (empty.run steps).raw) ∧
    ∀ a b : InstructionBuffer,
      ((a == b) = true ↔ a.toList = b.toList) ∧ a.raw.same? b.raw = some (a == b) := by
  constructor
  · intro steps
    have hcontents := toList_run empty steps
    rw [toList_empty, List.nil_append] at hcontents
    rw [← hcontents, ← raw_empty]
    exact ⟨holds_toList _, run_raw empty steps⟩
  · intro a b
    exact ⟨beq_iff, same?_raw a b⟩

-- The storage of these two differs in its last byte, which is not in use.
example :
    ((⟨.replicate _ 0, 3, by decide⟩ : InstructionBuffer) ==
      ⟨(Vector.replicate _ 0).set 23 1, 3, by decide⟩) = true := by decide

end InstructionBuffer

end X64Asm
