import Mathlib

/-!
# `memmove`

The copy goes upwards unless the destination starts inside of the source, and downwards then.
Either way a byte is read before the loop writes to it, so that each byte of the destination is
the old byte of the source.
-/

namespace Xv6.Kernel

open Function

/-- The bytes at the addresses below `2 ^ 32`. -/
abbrev Memory := Nat → UInt8

variable {mem : Memory} {d s n : Nat}

/-- `while(n-- > 0) *d++ = *s++;` -/
def copyUp (mem : Memory) (d s : Nat) : Nat → Memory
  | 0 => mem
  | n + 1 => copyUp (update mem d (mem s)) ((d + 1) % 2 ^ 32) ((s + 1) % 2 ^ 32) n

/-- `while(n-- > 0) *--d = *--s;` -/
def copyDown (mem : Memory) (d s : Nat) : Nat → Memory
  | 0 => mem
  | n + 1 =>
    let d := (d + 2 ^ 32 - 1) % 2 ^ 32
    let s := (s + 2 ^ 32 - 1) % 2 ^ 32
    copyDown (update mem d (mem s)) d s n

/-- `memmove`: the result and the memory. -/
def memmove (mem : Memory) (dst src n : Nat) : Nat × Memory :=
  if src < dst ∧ (src + n) % 2 ^ 32 > dst then
    (dst, copyDown mem ((dst + n) % 2 ^ 32) ((src + n) % 2 ^ 32) n)
  else
    (dst, copyUp mem dst src n)

/-- The memory with the `n` bytes at `s` copied to `d`. -/
def Memory.moved (mem : Memory) (d s n : Nat) : Memory :=
  fun a => if d ≤ a ∧ a < d + n then mem (s + (a - d)) else mem a

theorem Memory.moved_zero : mem.moved d s 0 = mem := by
  funext a
  exact if_neg (by omega)

/-- The first byte can go first if the others of the source are not where it goes. -/
theorem Memory.moved_first (safe : d ≤ s ∨ s + (n + 1) ≤ d) :
    Memory.moved (update mem d (mem s)) (d + 1) (s + 1) n = mem.moved d s (n + 1) := by
  funext a
  unfold moved
  by_cases first : a = d
  · subst first
    rw [if_neg (by omega), if_pos (by omega), update_self, Nat.sub_self, Nat.add_zero]
  · by_cases inside : d + 1 ≤ a ∧ a < d + 1 + n
    · rw [if_pos inside, if_pos (by omega), update_of_ne (by omega)]
      congr 1
      omega
    · rw [if_neg inside, if_neg (by omega), update_of_ne first]

/-- The last byte can go first if the others of the source are not where it goes. -/
theorem Memory.moved_last (safe : s ≤ d) :
    Memory.moved (update mem (d + n) (mem (s + n))) d s n = mem.moved d s (n + 1) := by
  funext a
  unfold moved
  by_cases last : a = d + n
  · subst last
    rw [if_neg (by omega), if_pos (by omega), update_self, Nat.add_sub_cancel_left]
  · by_cases inside : d ≤ a ∧ a < d + n
    · rw [if_pos inside, if_pos (by omega), update_of_ne (by omega)]
    · rw [if_neg inside, if_neg (by omega), update_of_ne last]

theorem copyUp_eq (fits : d + n ≤ 2 ^ 32) (fits' : s + n ≤ 2 ^ 32) (safe : d ≤ s ∨ s + n ≤ d) :
    copyUp mem (d % 2 ^ 32) (s % 2 ^ 32) n = mem.moved d s n := by
  induction n generalizing mem d s with
  | zero => exact Memory.moved_zero.symm
  | succ n ih =>
    rw [copyUp, Nat.mod_add_mod, Nat.mod_add_mod,
      ih (by omega) (by omega) (by omega),
      Nat.mod_eq_of_lt (by omega), Nat.mod_eq_of_lt (by omega), Memory.moved_first safe]

theorem copyDown_eq (fits : d + n ≤ 2 ^ 32) (fits' : s + n ≤ 2 ^ 32) (safe : s ≤ d) :
    copyDown mem ((d + n) % 2 ^ 32) ((s + n) % 2 ^ 32) n = mem.moved d s n := by
  induction n generalizing mem with
  | zero => exact Memory.moved_zero.symm
  | succ n ih =>
    have previous (x : Nat) (below : x + (n + 1) ≤ 2 ^ 32) :
        ((x + (n + 1)) % 2 ^ 32 + 2 ^ 32 - 1) % 2 ^ 32 = (x + n) % 2 ^ 32 := by omega
    rw [copyDown, previous d fits, previous s fits']
    rw [ih (by omega) (by omega), Nat.mod_eq_of_lt (by omega),
      Nat.mod_eq_of_lt (by omega), Memory.moved_last safe]

theorem memmove_eq {dst src : Nat} (fits : dst + n ≤ 2 ^ 32) (fits' : src + n ≤ 2 ^ 32)
    (inside : dst < 2 ^ 32) (inside' : src < 2 ^ 32) :
    memmove mem dst src n = (dst, mem.moved dst src n) := by
  unfold memmove
  split
  · rename_i overlap
    rw [copyDown_eq fits fits' (by omega)]
  · rename_i apart
    have up : copyUp mem (dst % 2 ^ 32) (src % 2 ^ 32) n = mem.moved dst src n :=
      copyUp_eq fits fits' (by omega)
    rw [Nat.mod_eq_of_lt inside, Nat.mod_eq_of_lt inside'] at up
    rw [up]

/-- `memmove` copies the bytes whether or not the ranges overlap, and writes nothing else. -/
theorem memmove_copies (mem : Memory) {dst src n : Nat} (inside : dst < 2 ^ 32)
    (inside' : src < 2 ^ 32) (fits : dst + n ≤ 2 ^ 32) (fits' : src + n ≤ 2 ^ 32) :
    (memmove mem dst src n).1 = dst ∧
      (∀ i < n, (memmove mem dst src n).2 (dst + i) = mem (src + i)) ∧
      ∀ a, a < dst ∨ dst + n ≤ a → (memmove mem dst src n).2 a = mem a := by
  rw [memmove_eq fits fits' inside inside']
  refine ⟨rfl, fun i below => ?_, fun a outside => ?_⟩
  · simp only [Memory.moved]
    rw [if_pos (by omega), Nat.add_sub_cancel_left]
  · exact if_neg (by omega)

/-- Four bytes go up by one, to the end of the address space. -/
theorem memmove_copies_top :
    (memmove (fun a => UInt8.ofNat a) (2 ^ 32 - 4) (2 ^ 32 - 5) 4).2 (2 ^ 32 - 1) = 254 :=
  (memmove_copies (fun a => UInt8.ofNat a) (by decide) (by decide) (by decide)
    (by decide)).2.1 3 (by decide)

end Xv6.Kernel
