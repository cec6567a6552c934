import Xv6.Lib.Bytes

/-!
# Bitmaps in byte arrays

Bit `i` is bit `i % 8` of byte `i / 8`.  Setting or clearing a bit changes that
bit and no other.
-/

namespace Bitmap

open Bytes

variable {n : Nat}

/-- The byte with only bit `i % 8` set. -/
def mask (i : Nat) : UInt8 :=
  1 <<< UInt8.ofNat (i % 8)

/-- Bit `i` is set. -/
def get (bytes : Fin n → UInt8) (i : Nat) : Bool :=
  byteAt bytes (i / 8) &&& mask i ≠ 0

def set (bytes : Fin n → UInt8) (i : Nat) : Fin n → UInt8 :=
  copyIn bytes (i / 8) 1 fun _ => byteAt bytes (i / 8) ||| mask i

def clear (bytes : Fin n → UInt8) (i : Nat) : Fin n → UInt8 :=
  copyIn bytes (i / 8) 1 fun _ => byteAt bytes (i / 8) &&& ~~~ mask i

theorem toNat_mask (i : Nat) : (mask i).toNat = 2 ^ (i % 8) := by
  have cases : ∀ k < 8, ((1 : UInt8) <<< UInt8.ofNat k).toNat = 2 ^ k := by decide
  exact cases (i % 8) (Nat.mod_lt i (by omega))

/-- Testing with the mask reads the bit. -/
theorem and_mask_ne_zero (byte : UInt8) (i : Nat) :
    byte &&& mask i ≠ 0 ↔ byte.toNat.testBit (i % 8) = true := by
  rw [Ne, ← UInt8.toNat_inj, UInt8.toNat_and, toNat_mask, Nat.and_two_pow]
  cases byte.toNat.testBit (i % 8) <;> simp

theorem get_eq_testBit (bytes : Fin n → UInt8) (i : Nat) :
    get bytes i = (byteAt bytes (i / 8)).toNat.testBit (i % 8) := by
  rw [Bool.eq_iff_iff, ← and_mask_ne_zero]
  simp [get]

theorem get_zero (i : Nat) : get (fun _ : Fin n => 0) i = false := by
  simp [get_eq_testBit]

theorem get_set (bytes : Fin n → UInt8) {i : Nat} (inside : i / 8 < n) (j : Nat) :
    get (set bytes i) j = (decide (j = i) || get bytes j) := by
  rw [get_eq_testBit, get_eq_testBit, set]
  by_cases sameByte : j / 8 = i / 8
  · rw [sameByte, byteAt_copyIn_of_mem (by omega) (by omega) inside, UInt8.toNat_or, Nat.testBit_or,
      toNat_mask, Nat.testBit_two_pow, Bool.or_comm]
    congr 1
    rw [decide_eq_decide]
    omega
  · rw [byteAt_copyIn_of_notMem (by omega)]
    have different : j ≠ i := by
      rintro rfl
      exact sameByte rfl
    simp [different]

theorem get_clear (bytes : Fin n → UInt8) {i : Nat} (inside : i / 8 < n) (j : Nat) :
    get (clear bytes i) j = (!decide (j = i) && get bytes j) := by
  rw [get_eq_testBit, get_eq_testBit, clear]
  by_cases sameByte : j / 8 = i / 8
  · rw [sameByte, byteAt_copyIn_of_mem (by omega) (by omega) inside, UInt8.toNat_and,
      Nat.testBit_and, Bool.and_comm]
    congr 1
    have cases : ∀ k < 8, ∀ l < 8, (UInt8.size - 1 - 2 ^ k).testBit l = !decide (l = k) := by decide
    rw [UInt8.toNat_not, toNat_mask,
      cases (i % 8) (Nat.mod_lt i (by omega)) (j % 8) (Nat.mod_lt j (by omega))]
    congr 1
    rw [decide_eq_decide]
    omega
  · rw [byteAt_copyIn_of_notMem (by omega)]
    have different : j ≠ i := by
      rintro rfl
      exact sameByte rfl
    simp [different]

/-- Several bits set one after the other. -/
theorem get_foldl_set (indices : List Nat) (bytes : Fin n → UInt8)
    (inside : ∀ i ∈ indices, i / 8 < n) (j : Nat) :
    get (indices.foldl set bytes) j = (decide (j ∈ indices) || get bytes j) := by
  induction indices generalizing bytes with
  | nil => simp
  | cons i rest ih =>
    rw [List.foldl_cons, ih _ fun k member => inside k (List.mem_cons_of_mem i member),
      get_set _ (inside i List.mem_cons_self)]
    by_cases here : j = i
    · simp [here]
    · simp [here]

end Bitmap
