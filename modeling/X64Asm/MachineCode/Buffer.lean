import X64Asm.Bytes
import X64Asm.Failure

/-! # The instruction buffer

An instruction is put together in a buffer of fixed capacity: storage for the bytes, and the
number of them that are in use.  What lies beyond is of no account: two buffers are equal when the
bytes in use are.

The view is `toList`, the bytes in use.  Adding to a buffer adds to the view at its end
(`toList_push`, `toList_append`), or fails when the capacity would be passed. -/

namespace X64Asm

/-- Storage for the bytes of one instruction. -/
structure InstructionBuffer where
  storage : Vector UInt8 instructionCapacity
  size : Nat
  size_le : size ≤ instructionCapacity

namespace InstructionBuffer

/-- The buffer with no bytes in use. -/
def empty : InstructionBuffer := ⟨Vector.replicate instructionCapacity 0, 0, Nat.zero_le _⟩

/-- The bytes in use. -/
def toList (buf : InstructionBuffer) : Bytes := buf.storage.toList.take buf.size

instance : BEq InstructionBuffer := ⟨fun a b => a.toList == b.toList⟩

/-- Adds one byte. -/
def push (buf : InstructionBuffer) (byte : UInt8) : Except Failure InstructionBuffer :=
  if h : buf.size < instructionCapacity then
    .ok ⟨buf.storage.set buf.size byte h, buf.size + 1, h⟩
  else .error (.overflow .push)

/-- Stores the bytes one after the other from place `start` on. -/
def store (storage : Vector UInt8 instructionCapacity) (start : Nat) :
    Bytes → Vector UInt8 instructionCapacity
  | [] => storage
  | byte :: bytes => store (storage.setIfInBounds start byte) (start + 1) bytes

/-- Adds a run of bytes, all of them or none. -/
def append (buf : InstructionBuffer) (bytes : Bytes) : Except Failure InstructionBuffer :=
  if h : buf.size + bytes.length ≤ instructionCapacity then
    .ok ⟨store buf.storage buf.size bytes, buf.size + bytes.length, h⟩
  else .error (.overflow (.append buf.size bytes.length))

/-- The bytes in use, in decimal. -/
def render (buf : InstructionBuffer) : String :=
  "[" ++ ", ".intercalate (buf.toList.map fun byte => toString byte.toNat) ++ "]"

/-! ### The view -/

@[simp] theorem toList_empty : empty.toList = [] := rfl

@[simp] theorem length_toList (buf : InstructionBuffer) : buf.toList.length = buf.size := by
  simp [toList, Nat.min_eq_left buf.size_le]

/-- Storing leaves the bytes in front of the first place alone and lays the run behind them. -/
theorem take_store (storage : Vector UInt8 instructionCapacity) (start : Nat) (bytes : Bytes)
    (h : start + bytes.length ≤ instructionCapacity) :
    (store storage start bytes).toList.take (start + bytes.length) =
      storage.toList.take start ++ bytes := by
  induction bytes generalizing storage start with
  | nil => simp [store]
  | cons byte bytes ih =>
    simp only [List.length_cons] at h ⊢
    have next := ih (storage.setIfInBounds start byte) (start + 1) (by omega)
    rw [store, show start + (bytes.length + 1) = start + 1 + bytes.length by omega, next]
    have inside : start < instructionCapacity := by omega
    have grow : (storage.setIfInBounds start byte).toList.take (start + 1) =
        storage.toList.take start ++ [byte] := by
      rw [Vector.toList_setIfInBounds, List.take_add_one, List.take_set_of_le (Nat.le_refl start)]
      simp [inside]
    rw [grow, List.append_assoc, List.singleton_append]

theorem toList_append {buf grown : InstructionBuffer} {bytes : Bytes}
    (h : buf.append bytes = .ok grown) : grown.toList = buf.toList ++ bytes := by
  unfold append at h
  split at h
  · next room =>
    cases h
    exact take_store buf.storage buf.size bytes room
  · cases h

theorem toList_push {buf grown : InstructionBuffer} {byte : UInt8}
    (h : buf.push byte = .ok grown) : grown.toList = buf.toList ++ [byte] := by
  unfold push at h
  split at h
  · next room =>
    cases h
    have stored := take_store buf.storage buf.size [byte] room
    simpa [store, toList, Vector.setIfInBounds, Vector.set, room] using stored
  · cases h

end InstructionBuffer

end X64Asm
