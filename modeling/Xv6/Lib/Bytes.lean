import Mathlib

/-!
# Little-endian numbers in byte arrays

Reading and writing a number of `len` bytes at a byte offset.  A read gives back
what was written there, reduced to the width of the field, and is not affected
by a write to a disjoint field.  Arrays of words, and records that are copied
into and out of a larger array, obey the same two laws.
-/

namespace Bytes

variable {n : Nat}

/-- Byte `i` of an array, and zero past its end. -/
def byteAt (bytes : Fin n → UInt8) (i : Nat) : UInt8 :=
  if inside : i < n then bytes ⟨i, inside⟩ else 0

/-- The number in the `len` bytes from `offset`, least significant byte first. -/
def readLE (bytes : Fin n → UInt8) (offset : Nat) : Nat → Nat
  | 0 => 0
  | len + 1 => (byteAt bytes offset).toNat + 256 * readLE bytes (offset + 1) len

/-- Put a number into the `len` bytes from `offset`. -/
def writeLE (bytes : Fin n → UInt8) (offset len value : Nat) : Fin n → UInt8 :=
  fun i =>
    if offset ≤ i ∧ i < offset + len then UInt8.ofNat (value / 256 ^ (i - offset)) else bytes i

variable {bytes : Fin n → UInt8} {len offset value offset' : Nat} {words : Nat → Nat}
  {source : Nat → UInt8}

theorem byteAt_writeLE_of_mem {i : Nat} (low : offset ≤ i) (high : i < offset + len)
    (inside : i < n) :
    byteAt (writeLE bytes offset len value) i = UInt8.ofNat (value / 256 ^ (i - offset)) := by
  simp [byteAt, writeLE, low, high, inside]

theorem byteAt_writeLE_of_notMem {i : Nat} (outside : i < offset ∨ offset + len ≤ i) :
    byteAt (writeLE bytes offset len value) i = byteAt bytes i := by
  unfold byteAt writeLE
  split
  · apply if_neg
    simp only
    omega
  · rfl

/-- A number only depends on the bytes it is read from. -/
theorem readLE_congr {bytes' : Fin n → UInt8}
    (same : ∀ i, offset ≤ i → i < offset + len → byteAt bytes i = byteAt bytes' i) :
    readLE bytes offset len = readLE bytes' offset len := by
  induction len generalizing offset with
  | zero => rfl
  | succ len ih =>
    simp only [readLE]
    rw [same offset (Nat.le_refl _) (by omega)]
    rw [ih fun i low high => same i (by omega) (by omega)]

theorem readLE_writeLE_of_disjoint {len' : Nat}
    (disjoint : offset + len ≤ offset' ∨ offset' + len' ≤ offset) :
    readLE (writeLE bytes offset' len' value) offset len = readLE bytes offset len := by
  apply readLE_congr
  intro i low high
  apply byteAt_writeLE_of_notMem
  omega

/-- Bytes that spell a number read as that number. -/
theorem readLE_of_digits
    (digits : ∀ i < len, byteAt bytes (offset + i) = UInt8.ofNat (value / 256 ^ i)) :
    readLE bytes offset len = value % 256 ^ len := by
  induction len generalizing offset value with
  | zero => simp [readLE, Nat.mod_one]
  | succ len ih =>
    have first := digits 0 (by omega)
    have rest : readLE bytes (offset + 1) len = value / 256 % 256 ^ len := by
      apply ih
      intro i bound
      have digit := digits (i + 1) (by omega)
      rw [Nat.div_div_eq_div_mul, ← Nat.pow_succ']
      rw [show offset + 1 + i = offset + (i + 1) by omega]
      exact digit
    simp only [Nat.add_zero, Nat.pow_zero, Nat.div_one] at first
    rw [readLE, first, rest, Nat.pow_succ', Nat.mod_mul]
    simp

theorem readLE_writeLE (inside : offset + len ≤ n) :
    readLE (writeLE bytes offset len value) offset len = value % 256 ^ len := by
  apply readLE_of_digits
  intro i bound
  rw [byteAt_writeLE_of_mem (by omega) (by omega) (by omega)]
  rw [Nat.add_sub_cancel_left]

/-! ## Arrays of words -/

/-- Put the 32-bit words `words 0`, `words 1`, ... at `offset`, one after the
other. -/
def writeWords (bytes : Fin n → UInt8) (offset : Nat) (words : Nat → Nat) : Nat → Fin n → UInt8
  | 0 => bytes
  | count + 1 =>
    writeLE (writeWords bytes offset words count) (offset + 4 * count) 4 (words count)

theorem readLE_writeWords {count i : Nat} (inside : offset + 4 * count ≤ n) (index : i < count) :
    readLE (writeWords bytes offset words count) (offset + 4 * i) 4 = words i % 2 ^ 32 := by
  induction count with
  | zero => exact absurd index (Nat.not_lt_zero i)
  | succ count ih =>
    rw [writeWords]
    by_cases last : i = count
    · subst last
      exact readLE_writeLE (by omega)
    · rw [readLE_writeLE_of_disjoint (by omega)]
      exact ih (by omega) (by omega)

theorem readLE_writeWords_of_disjoint {count : Nat}
    (disjoint : offset' + len ≤ offset ∨ offset + 4 * count ≤ offset') :
    readLE (writeWords bytes offset words count) offset' len = readLE bytes offset' len := by
  induction count with
  | zero => rfl
  | succ count ih =>
    rw [writeWords, readLE_writeLE_of_disjoint (by omega)]
    exact ih (by omega)

/-! ## Copying -/

/-- Copy `len` bytes of `source` to `offset`. -/
def copyIn (bytes : Fin n → UInt8) (offset len : Nat) (source : Nat → UInt8) : Fin n → UInt8 :=
  fun i => if offset ≤ i ∧ i < offset + len then source (i - offset) else bytes i

theorem byteAt_copyIn_of_mem {i : Nat} (low : offset ≤ i) (high : i < offset + len)
    (inside : i < n) : byteAt (copyIn bytes offset len source) i = source (i - offset) := by
  simp [byteAt, copyIn, low, high, inside]

theorem byteAt_copyIn_of_notMem {i : Nat} (outside : i < offset ∨ offset + len ≤ i) :
    byteAt (copyIn bytes offset len source) i = byteAt bytes i := by
  unfold byteAt copyIn
  split
  · apply if_neg
    simp only
    omega
  · rfl

/-- The record of `len` bytes at `offset`. -/
def slice (bytes : Fin n → UInt8) (offset len : Nat) : Fin len → UInt8 :=
  fun i => byteAt bytes (offset + i)

theorem slice_copyIn {part : Fin len → UInt8} (inside : offset + len ≤ n) :
    slice (copyIn bytes offset len (byteAt part)) offset len = part := by
  funext i
  unfold slice
  rw [byteAt_copyIn_of_mem (by omega) (by omega) (by omega), Nat.add_sub_cancel_left]
  simp [byteAt]

theorem slice_copyIn_of_disjoint {len' : Nat}
    (disjoint : offset + len ≤ offset' ∨ offset' + len' ≤ offset) :
    slice (copyIn bytes offset' len' source) offset len = slice bytes offset len := by
  funext i
  unfold slice
  apply byteAt_copyIn_of_notMem
  omega

@[simp]
theorem byteAt_zero (i : Nat) : byteAt (fun _ : Fin n => 0) i = 0 := by
  simp [byteAt]

@[simp]
theorem readLE_zero (offset len : Nat) : readLE (fun _ : Fin n => 0) offset len = 0 := by
  induction len generalizing offset with
  | zero => rfl
  | succ len ih => simp [readLE, ih]

@[simp]
theorem slice_zero (offset len : Nat) : slice (fun _ : Fin n => 0) offset len = fun _ => 0 := by
  funext i
  simp [slice]

end Bytes
