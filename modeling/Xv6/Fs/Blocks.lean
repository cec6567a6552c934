import Xv6.Fs.State

/-!
# The block allocator

What `balloc` and `bfree` do: `balloc` takes the first block whose bit is clear,
sets the bit and zeroes the block, and `bfree` clears the bit of a used block.
-/

namespace Xv6.Fs

open Stateful Function

namespace State

/-- The inode on the disk. -/
def dinode (s : State) (i : Nat) : Dinode :=
  Fs.dinode s.sb s.disk i

/-- The bitmap marks the block as used. -/
def used (s : State) (b : Nat) : Bool :=
  Fs.used s.sb s.disk b

/-- The superblock in memory is the one on the disk, and its regions are in order. -/
structure Mounted (s : State) : Prop where
  ordered : s.sb.Ordered
  sb : Superblock.decode (s.disk 1) = s.sb

/-- The state after `log_write` of block `b`. -/
def write (s : State) (b : Nat) (data : Block) : State :=
  { s with disk := update s.disk b data, trace := .logWrite b :: s.trace }

/-- The state after an assignment to entry `e` of the inode cache. -/
def withInode (s : State) (e : Entry) (ip : Inode) : State :=
  { s with icache := update s.icache e ip }

/-- The state after an assignment to the copy in entry `e`. -/
def withCopy (s : State) (e : Entry) (d : Dinode) : State :=
  s.withInode e { s.icache e with copy := d }

/-- The state after `balloc` has taken block `b`. -/
def alloc (s : State) (b : Nat) : State :=
  { s with
    disk := update (update s.disk (s.sb.bblock b)
      (Bitmap.set (s.disk (s.sb.bblock b)) (b % bpb))) b fun _ => 0
    trace := .logWrite b :: .logWrite (s.sb.bblock b) :: s.trace }

/-- The state after `bfree` of block `b`. -/
def free (s : State) (b : Nat) : State :=
  { s with
    disk := update s.disk (s.sb.bblock b)
      (Bitmap.clear (s.disk (s.sb.bblock b)) (b % bpb))
    trace := .logWrite (s.sb.bblock b) :: s.trace }

end State

/-! ## Elementary steps -/

section

variable {stop : Halt → Prop} {s : State}

@[simp]
theorem wp_bread {post : Block → State → Prop} {b : Nat} :
    Wp (bread b) stop post s ↔ post (s.disk b) s := Iff.rfl

variable {post : Unit → State → Prop} {e : Entry}

@[simp]
theorem wp_logWrite {b : Nat} {data : Block} :
    Wp (logWrite b data) stop post s ↔ post () (s.write b data) := Iff.rfl

@[simp]
theorem wp_setInode {ip : Inode} :
    Wp (setInode e ip) stop post s ↔ post () (s.withInode e ip) := Iff.rfl

@[simp]
theorem wp_setCopy {change : Dinode → Dinode} :
    Wp (setCopy e change) stop post s ↔ post () (s.withCopy e (change (s.icache e).copy)) := Iff.rfl

end

/-! ## The search for a clear bit -/

/-- Bit `bi` of the bitmap block that starts at `start`. -/
theorem used_add (sb : Superblock) (disk : Nat → Block) {k bi : Nat} (bound : bi < bpb) :
    used sb disk (k * bpb + bi) = Bitmap.get (disk (sb.bblock (k * bpb))) bi := by
  have positive := bpb_pos
  have block : sb.bblock (k * bpb + bi) = sb.bblock (k * bpb) := by
    unfold Superblock.bblock
    rw [Nat.mul_comm k bpb, Nat.mul_add_div positive, Nat.div_eq_of_lt bound,
      Nat.mul_div_cancel_left k positive, Nat.add_zero]
  unfold used
  rw [block, Nat.mul_comm k bpb, Nat.mul_add_mod, Nat.mod_eq_of_lt bound]

variable {disk : Nat → Block}

theorem freeBit_eq_some {sb : Superblock} {k bi : Nat}
    (found : freeBit sb (disk (sb.bblock (k * bpb))) (k * bpb) = some bi) :
    bi < bpb ∧ k * bpb + bi < sb.size ∧ used sb disk (k * bpb + bi) = false ∧
      ∀ bi' < bi, used sb disk (k * bpb + bi') = true := by
  unfold freeBit at found
  have bound : bi < bpb := List.mem_range.mp (List.mem_of_find?_eq_some found)
  have holds := List.find?_some found
  obtain ⟨inside, clear⟩ := of_decide_eq_true holds
  refine ⟨bound, inside, ?_, ?_⟩
  · rw [used_add sb disk bound]
    exact clear
  · intro bi' earlier
    rw [used_add sb disk (earlier.trans bound)]
    have skipped := (List.find?_range_eq_some.mp found).2.2 bi' earlier
    simp only [Bool.not_eq_eq_eq_not, Bool.not_true, decide_eq_false_iff_not, not_and] at skipped
    simpa using skipped (by omega)

theorem freeBit_eq_none {sb : Superblock} {k bi : Nat}
    (missing : freeBit sb (disk (sb.bblock (k * bpb))) (k * bpb) = none) (bound : bi < bpb)
    (inside : k * bpb + bi < sb.size) : used sb disk (k * bpb + bi) = true := by
  unfold freeBit at missing
  have set := List.find?_eq_none.mp missing bi (List.mem_range.mpr bound)
  rw [used_add sb disk bound]
  simpa [inside] using set

/-- The outer loop of `balloc` from bitmap block `k` on. -/
theorem ballocLoop_spec (s : State) {k count : Nat} (covers : s.sb.size ≤ (k + count) * bpb)
    (before : ∀ b < k * bpb, b < s.sb.size → s.used b = true) :
    Wp (ballocLoop ((List.range' k count).map (· * bpb)))
      (fun reason => reason = .outOfBlocks ∧ ∀ b < s.sb.size, s.used b = true)
      (fun b s' => b < s.sb.size ∧ s.used b = false ∧ (∀ b' < b, s.used b' = true) ∧
        s' = s.alloc b) s := by
  induction count generalizing k with
  | zero =>
    refine ⟨rfl, fun b bound => before b ?_ bound⟩
    rw [Nat.add_zero] at covers
    omega
  | succ count ih =>
    simp only [List.range'_succ, List.map_cons, ballocLoop, wp_bind, wp_get, wp_bread]
    cases found : freeBit s.sb (s.disk (s.sb.bblock (k * bpb))) (k * bpb) with
    | some bi =>
      obtain ⟨bound, inside, clear, earlier⟩ := freeBit_eq_some found
      simp only [wp_bind, wp_logWrite, bzero, wp_bread, wp_pure]
      refine ⟨inside, clear, ?_, ?_⟩
      · intro b below
        by_cases inBlock : b < k * bpb
        · exact before b inBlock (by omega)
        · have offset := earlier (b - k * bpb) (by omega)
          rwa [Nat.add_sub_cancel' (by omega)] at offset
      · have positive := bpb_pos
        have block : s.sb.bblock (k * bpb + bi) = s.sb.bblock (k * bpb) := by
          unfold Superblock.bblock
          rw [Nat.mul_comm k bpb, Nat.mul_add_div positive, Nat.div_eq_of_lt bound,
            Nat.mul_div_cancel_left k positive, Nat.add_zero]
        have bit : (k * bpb + bi) % bpb = bi := by
          rw [Nat.mul_comm k bpb, Nat.mul_add_mod, Nat.mod_eq_of_lt bound]
        simp only [State.alloc, State.write, block, bit]
    | none =>
      apply ih
      · rw [show k + 1 + count = k + (count + 1) by omega]
        exact covers
      · intro b below inside
        by_cases inBlock : b < k * bpb
        · exact before b inBlock inside
        · rw [Nat.succ_mul] at below
          have offset : s.used (k * bpb + (b - k * bpb)) = true :=
            freeBit_eq_none found (by omega) (by omega)
          rwa [Nat.add_sub_cancel' (by omega)] at offset

/-- `balloc` takes the first block that is free. -/
theorem balloc_spec (s : State) :
    Wp balloc (fun reason => reason = .outOfBlocks ∧ ∀ b < s.sb.size, s.used b = true)
      (fun b s' => b < s.sb.size ∧ s.used b = false ∧ (∀ b' < b, s.used b' = true) ∧
        s' = s.alloc b) s := by
  simp only [balloc, wp_bind, wp_get, bitmapStarts, List.range_eq_range']
  apply ballocLoop_spec
  · have positive := bpb_pos
    rw [Nat.zero_add]
    have round := Nat.lt_div_mul_add (a := s.sb.size + bpb - 1) positive
    omega
  · intro b below
    omega

/-- `bfree` clears the bit of a used block. -/
theorem bfree_spec {s : State} (mounted : Superblock.decode (s.disk 1) = s.sb) (b : Nat) :
    Wp (bfree b) (fun reason => reason = .freeingFreeBlock ∧ s.used b = false)
      (fun _ s' => s.used b = true ∧ s' = s.free b) s := by
  simp only [bfree, readsb, wp_bind, wp_modify, wp_get, wp_bread, mounted]
  split
  · rename_i clear
    exact ⟨rfl, clear⟩
  · rename_i set
    refine ⟨?_, rfl⟩
    simpa [State.used, used] using set

/-! ## What else changes -/

variable {i x : Nat}

namespace Superblock

variable {sb : Superblock}

/-- The block belongs to the bitmap. -/
def IsBitmap (sb : Superblock) (x : Nat) : Prop :=
  sb.bmapstart ≤ x ∧ x < sb.dataStart

theorem bmapstart_lt_dataStart (sb : Superblock) : sb.bmapstart < sb.dataStart := by
  unfold dataStart bpb bsize
  omega

theorem isBitmap_bblock {b : Nat} (bound : b ≤ sb.size) : sb.IsBitmap (sb.bblock b) := by
  unfold IsBitmap bblock dataStart bpb bsize
  omega

variable (ordered : sb.Ordered)
include ordered

theorem Ordered.iblock_lt (range : i < sb.ninodes) : sb.iblock i < sb.bmapstart := by
  have gap := ordered.bitmap
  unfold ipb at gap
  unfold iblock ipb
  omega

theorem Ordered.one_lt_iblock (i : Nat) : 1 < sb.iblock i := by
  have low := ordered.log
  have gap := ordered.inodes
  unfold iblock ipb
  omega

theorem Ordered.bmapstart_pos : 2 < sb.bmapstart := by
  have low := ordered.log
  have first := ordered.inodes
  have second := ordered.bitmap
  unfold ipb at second
  omega

/-- Inode blocks are not bitmap blocks. -/
theorem Ordered.iblock_not_bitmap (range : i < sb.ninodes) : ¬ sb.IsBitmap (sb.iblock i) := by
  have below := ordered.iblock_lt range
  unfold IsBitmap
  omega

omit ordered in
theorem not_isBitmap_of_dataStart_le (inData : sb.dataStart ≤ x) : ¬ sb.IsBitmap x := by
  unfold IsBitmap
  omega

theorem Ordered.one_not_bitmap : ¬ sb.IsBitmap 1 := by
  have pos := ordered.bmapstart_pos
  unfold IsBitmap
  omega

end Superblock

variable {s' : State}

namespace State

variable {s : State} {b : Nat}

@[simp]
theorem alloc_icache (s : State) (b : Nat) : (s.alloc b).icache = s.icache := rfl

theorem alloc_disk_self (s : State) (b : Nat) : (s.alloc b).disk b = fun _ => 0 :=
  update_self ..

theorem alloc_disk_of_ne (bound : b ≤ s.sb.size) (other : x ≠ b) (notBitmap : ¬ s.sb.IsBitmap x) :
    (s.alloc b).disk x = s.disk x := by
  have notBit : x ≠ s.sb.bblock b := by
    rintro rfl
    exact notBitmap (Superblock.isBitmap_bblock bound)
  simp [alloc, other, notBit]

theorem alloc_bit (elsewhere : b ≠ s.sb.bblock x) :
    (s.alloc b).used x = (decide (x = b) || s.used x) := by
  unfold used alloc
  rw [used_update_of_ne elsewhere, used_set]

theorem alloc_used (inData : s.sb.dataStart ≤ b) (bound : x ≤ s.sb.size) :
    (s.alloc b).used x = (decide (x = b) || s.used x) := by
  have isBitmap := (Superblock.isBitmap_bblock bound).2
  exact alloc_bit (by omega)

theorem free_used (s : State) (b x : Nat) : (s.free b).used x = (!decide (x = b) && s.used x) := by
  unfold used free
  rw [used_clear]

/-- States with the same disk outside bitmap and data area have the same inodes. -/
theorem dinode_congr (sb : s'.sb = s.sb) (same : s'.disk (s.sb.iblock i) = s.disk (s.sb.iblock i)) :
    s'.dinode i = s.dinode i := by
  unfold dinode Fs.dinode
  rw [sb, same]

theorem Mounted.congr (mounted : s.Mounted) (sb : s'.sb = s.sb) (same : s'.disk 1 = s.disk 1) :
    s'.Mounted := by
  constructor
  · rw [sb]
    exact mounted.ordered
  · rw [sb, same]
    exact mounted.sb

end State

/-! ## The number of free blocks -/

/-- How many blocks `balloc` can still take. -/
def State.freeCount (s : State) : Nat :=
  ((Finset.range s.sb.size).filter fun b => s.used b = false).card

theorem State.freeCount_congr {s : State} (sb : s'.sb = s.sb)
    (same : ∀ b < s.sb.size, s'.used b = s.used b) : s'.freeCount = s.freeCount := by
  unfold freeCount
  rw [sb]
  congr 1
  apply Finset.filter_congr
  intro b member
  rw [same b (Finset.mem_range.mp member)]

theorem State.freeCount_eq_zero {s : State} (full : ∀ b < s.sb.size, s.used b = true) :
    s.freeCount = 0 := by
  unfold freeCount
  rw [Finset.card_eq_zero, Finset.filter_eq_empty_iff]
  intro b member
  simp [full b (Finset.mem_range.mp member)]

theorem State.freeCount_alloc {s : State} {b : Nat} (inData : s.sb.dataStart ≤ b)
    (bound : b < s.sb.size) (free : s.used b = false) :
    (s.alloc b).freeCount + 1 = s.freeCount := by
  have same : (Finset.range s.sb.size).filter (fun x => (s.alloc b).used x = false) =
      ((Finset.range s.sb.size).filter fun x => s.used x = false).erase b := by
    ext x
    simp only [Finset.mem_filter, Finset.mem_range, Finset.mem_erase]
    constructor
    · rintro ⟨inside, clear⟩
      rw [alloc_used inData inside.le] at clear
      simp only [Bool.or_eq_false_iff, decide_eq_false_iff_not] at clear
      exact ⟨clear.1, inside, clear.2⟩
    · rintro ⟨different, inside, clear⟩
      rw [alloc_used inData inside.le]
      simp [different, clear, inside]
  unfold freeCount
  change ((Finset.range s.sb.size).filter fun x => (s.alloc b).used x = false).card + 1 = _
  rw [same]
  exact Finset.card_erase_add_one (by simp [bound, free])

end Xv6.Fs
