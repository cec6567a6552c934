import Xv6.Fs.Image

/-!
# Allocation of blocks

`balloc` takes the first block whose bit is clear, and `bfree` gives a block back.  Neither looks
at what the block is: a bitmap that leaves its own blocks or the superblock free is destroyed
when they are taken.
-/

namespace Xv6.Fs

open Stateful

variable {s s' : State} {b : Nat}

/-- Bit `b` of the bitmap is now `value`, and the other bits are as before. -/
def State.BitSet (s s' : State) (b : Nat) (value : Bool) : Prop :=
  ∀ x, s.sb.IsBitmap (s.sb.bblock x) → s'.used x = if x = b then value else s.used x

/-- What `balloc` and `bfree` are to do. -/
structure State.AllocatesBlocks (s : State) : Prop where
  /-- The smallest block that is free is taken and zeroed, and nothing else changes. -/
  takes : Wp balloc (fun reason => reason = .outOfBlocks ∧ ∀ b < s.sb.size, s.used b = true)
    (fun b s' => b < s.sb.size ∧ s.used b = false ∧ (∀ b' < b, s.used b' = true) ∧
      s.BitSet s' b true ∧ (s'.disk b = fun _ => 0) ∧
      ∀ x ≠ b, x ≠ s.sb.bblock b → s'.disk x = s.disk x) s
  frees : ∀ b, s.used b = true → Wp (bfree b) (fun _ => False)
    (fun _ s' => s.BitSet s' b false ∧ ∀ x ≠ s.sb.bblock b, s'.disk x = s.disk x) s
  /-- A block that has just been taken is given back. -/
  restores : Wp (balloc >>= bfree) (fun reason => reason = .outOfBlocks)
    (fun _ s' => ∀ x, s.sb.IsBitmap (s.sb.bblock x) → s'.used x = s.used x) s

/-- The superblock and the bitmap are not free. -/
structure State.Reserved (s : State) : Prop where
  sb : Superblock.decode (s.disk 1) = s.sb
  apart : ¬ s.sb.IsBitmap 1
  used : ∀ b < s.sb.size, b = 1 ∨ s.sb.IsBitmap b → s.used b = true

theorem State.free_bitSet (s : State) (b : Nat) : s.BitSet (s.free b) b false := by
  intro x _
  rw [State.free_used]
  by_cases same : x = b
  · simp [same]
  · simp [same]

namespace State.Reserved

variable (reserved : s.Reserved)
include reserved

/-- A free block is none of the reserved ones. -/
theorem ne_of_free (inside : b < s.sb.size) (free : s.used b = false) :
    b ≠ 1 ∧ ¬ s.sb.IsBitmap b := by
  refine ⟨fun isOne => ?_, fun isBitmap => ?_⟩
  · cases free.symm.trans (reserved.used b inside (.inl isOne))
  · cases free.symm.trans (reserved.used b inside (.inr isBitmap))

theorem alloc_bitSet (inside : b < s.sb.size) (free : s.used b = false) :
    s.BitSet (s.alloc b) b true := by
  intro x isBit
  have notBitmap := (reserved.ne_of_free inside free).2
  rw [alloc_bit (by rintro rfl; exact notBitmap isBit)]
  by_cases same : x = b
  · simp [same]
  · simp [same]

theorem alloc_sb (inside : b < s.sb.size) (free : s.used b = false) :
    Superblock.decode ((s.alloc b).disk 1) = (s.alloc b).sb := by
  rw [alloc_disk_of_ne inside.le (reserved.ne_of_free inside free).1.symm reserved.apart]
  exact reserved.sb

end State.Reserved

/-- Blocks are allocated as they should be if the superblock and the bitmap are reserved. -/
theorem allocatesBlocks_of_reserved (reserved : s.Reserved) : s.AllocatesBlocks := by
  constructor
  · apply (balloc_spec s).imp
    rintro b s' ⟨inside, free, smallest, rfl⟩
    refine ⟨inside, free, smallest, reserved.alloc_bitSet inside free, s.alloc_disk_self b, ?_⟩
    intro x other notBit
    simp [State.alloc, other, notBit]
  · intro b used
    apply (bfree_spec reserved.sb b).mono
    · rintro reason ⟨-, free⟩
      cases free.symm.trans used
    · rintro _ s' ⟨-, rfl⟩
      refine ⟨s.free_bitSet b, fun x notBit => ?_⟩
      exact Function.update_of_ne notBit _ _
  · apply (balloc_spec s).bind (fun _ stop => stop.1)
    rintro b s₁ ⟨inside, free, -, rfl⟩
    have isSet := reserved.alloc_bitSet inside free
    have used := (isSet b (Superblock.isBitmap_bblock inside.le)).trans (if_pos rfl)
    apply (bfree_spec (reserved.alloc_sb inside free) b).mono
    · rintro reason ⟨-, clear⟩
      cases clear.symm.trans used
    · rintro _ s' ⟨-, rfl⟩ x isBit
      have cleared := (s.alloc b).free_bitSet b x isBit
      rw [cleared, isSet x isBit]
      split
      · rename_i same
        rw [same, free]
      · rfl

/-- The blocks of a new file system are reserved. -/
theorem allocatesBlocks_image : (Image.state Image.icache).AllocatesBlocks := by
  apply allocatesBlocks_of_reserved
  refine ⟨Image.decode_superblock, Image.sb_ordered.one_not_bitmap, ?_⟩
  intro b inside reserved
  have start : Image.sb.dataStart = 59 := by simp [Image.sb, Superblock.dataStart, bpb, bsize]
  have low : b < 60 := by
    rcases reserved with rfl | isBitmap
    · decide
    · have below : b < Image.sb.dataStart := isBitmap.2
      omega
  exact (Image.used_eq inside).trans (decide_eq_true low)

/-- A file system whose bitmap leaves its own block, 58, free. -/
def unreserved : State :=
  { Image.state Image.icache with
    disk := Function.update Image.disk 58 ((List.range 58).foldl Bitmap.set fun _ => 0) }

/-- `balloc` takes the bitmap, and the bit that it has set is gone. -/
theorem unreserved_loses_bitmap : ¬ unreserved.AllocatesBlocks := by
  intro allocates
  have bitmap : unreserved.disk 58 = (List.range 58).foldl Bitmap.set fun _ => 0 := by
    simp [unreserved]
  have marked : ∀ b < 1000, unreserved.used b = decide (b < 58) := by
    intro b inside
    refine used_foldl_set bitmap ?_ ?_ <;>
    · unfold bpb bsize
      omega
  have free : unreserved.used 58 = false := marked 58 (by decide)
  obtain ⟨b, s', run, -, clear, smallest, rfl⟩ := (balloc_spec unreserved).returns_of
    fun _ stop => by cases free.symm.trans (stop.2 58 (by decide))
  obtain ⟨inside, -, -, isSet, zero, -⟩ := allocates.takes.ok run
  obtain rfl : b = 58 := by
    rw [marked b inside, decide_eq_false_iff_not] at clear
    by_contra other
    cases free.symm.trans (smallest 58 (by omega))
  have set : (unreserved.alloc 58).used 58 = true :=
    isSet 58 (Superblock.isBitmap_bblock (by decide))
  have block : (unreserved.alloc 58).sb.bblock 58 = 58 := by
    simp [State.alloc, unreserved, Image.state, Image.sb, Superblock.bblock, bpb, bsize]
  rw [State.used, used, block, zero, Bitmap.get_zero] at set
  cases set

end Xv6.Fs
