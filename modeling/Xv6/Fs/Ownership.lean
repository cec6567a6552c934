import Xv6.Fs.Blocks
import Xv6.Lib.Ledger

/-!
# Who holds which block

The places of the file system that store a block number are the twelve direct
slots, the indirect slot and the words of the indirect block of every inode in
use.  The file system is well formed if this ledger is exact with respect to the
bitmap: every block number lies in the data area, is marked used and is stored
once, and every data block marked used is stored somewhere.

The inodes are a parameter, because the copy of an inode in the cache may be
ahead of the disk while its file grows or is truncated.
-/

namespace Xv6.Fs

open Function

/-- A place: an inode number, and a slot.  Slots up to `ndirect` are those of
`addrs`, the others are the words of the indirect block. -/
abbrev Place := Nat × Nat

/-- The number of slots of an inode. -/
def nslots : Nat := maxfile + 1

/-- The slot of block `bn` of the file. -/
def slot (bn : Nat) : Nat :=
  if bn < ndirect then bn else bn + 1

/-- The block number in a slot, zero if there is none. -/
def ptr (disk : Nat → Block) (d : Dinode) (k : Nat) : Nat :=
  if k ≤ ndirect then d.addr k
  else if d.addr ndirect = 0 then 0
  else (disk (d.addr ndirect)).word (k - (ndirect + 1))

/-- The block of the data area that a place holds. -/
def holds (sb : Superblock) (disk : Nat → Block) (ino : Nat → Dinode) (p : Place) : Option Nat :=
  if p.1 < sb.ninodes ∧ (ino p.1).type ≠ 0 ∧ p.2 < nslots ∧ ptr disk (ino p.1) p.2 ≠ 0 then
    some (ptr disk (ino p.1) p.2)
  else none

/-- The block is in the data area. -/
def Superblock.InData (sb : Superblock) (b : Nat) : Prop :=
  sb.dataStart ≤ b ∧ b < sb.size

/-- The ledger of blocks is exact, and the blocks before the data area are never
free. -/
structure Owned (sb : Superblock) (disk : Nat → Block) (ino : Nat → Dinode) : Prop where
  ledger : Ledger.Exact (holds sb disk ino) fun b => sb.InData b ∧ used sb disk b = true
  reserved : ∀ b < sb.dataStart, used sb disk b = true

/-- The file has exactly the blocks below `len`, and an indirect block exactly if
it needs one. -/
structure Extent (disk : Nat → Block) (d : Dinode) (len : Nat) : Prop where
  short : len ≤ maxfile
  blocks : ∀ bn < maxfile, ptr disk d (slot bn) ≠ 0 ↔ bn < len
  indirect : d.addr ndirect ≠ 0 ↔ ndirect < len

variable {sb : Superblock} {disk disk' : Nat → Block} {ino ino' : Nat → Dinode} {d d' : Dinode}

/-! ## Slots -/

variable {bn k len b : Nat} {p : Place}

theorem slot_lt (inside : bn < maxfile) : slot bn < nslots := by
  unfold slot nslots
  split <;> omega

theorem slot_ne_ndirect (bn : Nat) : slot bn ≠ ndirect := by
  unfold slot
  split <;> omega

theorem slot_inj {bn' : Nat} (same : slot bn = slot bn') : bn = bn' := by
  unfold slot at same
  split at same <;> split at same <;> omega

theorem ptr_of_le (direct : k ≤ ndirect) : ptr disk d k = d.addr k :=
  if_pos direct

theorem ptr_ndirect : ptr disk d ndirect = d.addr ndirect :=
  ptr_of_le (Nat.le_refl _)

theorem ptr_of_gt (behind : ndirect < k) : ptr disk d k =
    if d.addr ndirect = 0 then 0 else (disk (d.addr ndirect)).word (k - (ndirect + 1)) := by
  rw [ptr, if_neg (by omega)]

theorem ptr_slot_of_lt (direct : bn < ndirect) : ptr disk d (slot bn) = d.addr bn := by
  rw [slot, if_pos direct, ptr_of_le (by omega)]

theorem ptr_slot_of_ge (behind : ndirect ≤ bn) : ptr disk d (slot bn) =
    if d.addr ndirect = 0 then 0 else (disk (d.addr ndirect)).word (bn - ndirect) := by
  rw [slot, if_neg (by omega), ptr_of_gt (by omega), Nat.add_sub_add_right]

/-- Pointers depend on the addresses and on the indirect block. -/
theorem ptr_congr (addrs : ∀ k, d'.addr k = d.addr k)
    (block : d.addr ndirect ≠ 0 → disk' (d.addr ndirect) = disk (d.addr ndirect)) (k : Nat) :
    ptr disk' d' k = ptr disk d k := by
  unfold ptr
  rw [addrs, addrs]
  split
  · rfl
  · split
    · rfl
    · rename_i present
      rw [block present]

/-- The pointers of an inode say which blocks it has. -/
theorem Extent.of_ptr (extent : Extent disk d len) (pointers : ∀ k, ptr disk' d' k = ptr disk d k) :
    Extent disk' d' len := by
  refine ⟨extent.short, fun bn inside => ?_, ?_⟩
  · rw [pointers]
    exact extent.blocks bn inside
  · have same := pointers ndirect
    rw [ptr_ndirect, ptr_ndirect] at same
    rw [same]
    exact extent.indirect

/-- The slot of the next block is vacant. -/
theorem Extent.vacant (extent : Extent disk d len) (inside : len < maxfile) :
    ptr disk d (slot len) = 0 := by
  by_contra nonzero
  exact absurd ((extent.blocks len inside).mp nonzero) (Nat.lt_irrefl len)

/-- An empty file has no blocks. -/
theorem Extent.ptr_eq_zero (extent : Extent disk d 0) : ptr disk d k = 0 := by
  have direct : ∀ bn < maxfile, ptr disk d (slot bn) = 0 := by
    intro bn inside
    by_contra nonzero
    exact Nat.not_lt_zero _ ((extent.blocks bn inside).mp nonzero)
  have noIndirect : d.addr ndirect = 0 := by
    by_contra nonzero
    exact Nat.not_lt_zero _ (extent.indirect.mp nonzero)
  rcases Nat.lt_trichotomy k ndirect with low | rfl | behind
  · rw [ptr_of_le low.le, ← ptr_slot_of_lt low]
    exact direct k (low.trans (by decide))
  · rw [ptr_ndirect, noIndirect]
  · rw [ptr_of_gt behind, if_pos noIndirect]

/-- The pointers of an inode of which `addrs[k]` has taken the block `b`. -/
theorem ptr_setAddr (direct : k ≤ ndirect) (vacant : d.addr k = 0) (fits : b < 2 ^ 32)
    (nonzero : b ≠ 0) (zero : k = ndirect → disk' b = fun _ => 0)
    (indirect : d.addr ndirect ≠ 0 → disk' (d.addr ndirect) = disk (d.addr ndirect)) (l : Nat) :
    ptr disk' (d.setAddr k b) l = if l = k then b else ptr disk d l := by
  have addr := d.addr_setAddr (show k < ndirect + 1 by omega) fits
  by_cases inAddrs : l ≤ ndirect
  · rw [ptr_of_le inAddrs, ptr_of_le inAddrs, addr]
  · rw [ptr_of_gt (by omega), ptr_of_gt (by omega), if_neg (show l ≠ k by omega), addr]
    by_cases last : ndirect = k
    · -- the new indirect block is zero
      subst last
      rw [if_pos rfl, if_neg nonzero, vacant, if_pos rfl, zero rfl]
      simp [Block.word]
    · rw [if_neg last]
      by_cases none : d.addr ndirect = 0
      · rw [if_pos none, if_pos none]
      · rw [if_neg none, if_neg none, indirect none]

/-- The pointers of an inode of which word `j` of the indirect block has taken the
block `b`. -/
theorem ptr_setWord {j l : Nat} (present : d.addr ndirect ≠ 0) (word : j < nindirect)
    (fits : b < 2 ^ 32) (new : disk' (d.addr ndirect) = (disk (d.addr ndirect)).setWord j b) :
    ptr disk' d l = if l = ndirect + 1 + j then b else ptr disk d l := by
  by_cases inAddrs : l ≤ ndirect
  · rw [ptr_of_le inAddrs, ptr_of_le inAddrs, if_neg (by omega)]
  · rw [ptr_of_gt (by omega), ptr_of_gt (by omega), if_neg present, if_neg present, new]
    by_cases same : l = ndirect + 1 + j
    · subst same
      rw [if_pos rfl, Nat.add_sub_cancel_left]
      exact Block.word_setWord word fits
    · rw [if_neg same, Block.word_setWord_of_ne (by omega)]

/-! ## The ledger -/

theorem holds_eq_some : holds sb disk ino p = some b ↔
    p.1 < sb.ninodes ∧ (ino p.1).type ≠ 0 ∧ p.2 < nslots ∧ ptr disk (ino p.1) p.2 = b ∧ b ≠ 0 := by
  unfold holds
  split
  · rename_i held
    constructor
    · intro same
      cases same
      exact ⟨held.1, held.2.1, held.2.2.1, rfl, held.2.2.2⟩
    · rintro ⟨-, -, -, rfl, -⟩
      rfl
  · rename_i vacant
    constructor
    · intro same
      cases same
    · rintro ⟨range, type, inside, rfl, nonzero⟩
      exact absurd ⟨range, type, inside, nonzero⟩ vacant

theorem holds_eq_none (zero : ptr disk (ino p.1) p.2 = 0) : holds sb disk ino p = none := by
  unfold holds
  rw [if_neg (by simp [zero])]

/-- Inodes with the same type and pointers hold the same blocks. -/
theorem holds_congr (same : ∀ i < sb.ninodes, ((ino' i).type = 0 ↔ (ino i).type = 0) ∧
      ((ino i).type ≠ 0 → ∀ k, ptr disk' (ino' i) k = ptr disk (ino i) k)) (p : Place) :
    holds sb disk' ino' p = holds sb disk ino p := by
  unfold holds
  by_cases range : p.1 < sb.ninodes
  · obtain ⟨type, pointers⟩ := same p.1 range
    by_cases free : (ino p.1).type = 0
    · rw [if_neg (by simp [type.mpr free]), if_neg (by simp [free])]
    · have inUse' : (ino' p.1).type ≠ 0 := fun zero => free (type.mp zero)
      simp only [pointers free p.2, ne_eq, free, inUse']
  · rw [if_neg (by simp [range]), if_neg (by simp [range])]

variable {i : Nat}

namespace Owned

variable (owned : Owned sb disk ino)
include owned

/-- A pointer of an inode in use is a used block of the data area. -/
theorem used_of_ptr (range : i < sb.ninodes) (type : (ino i).type ≠ 0) (inside : k < nslots)
    (nonzero : ptr disk (ino i) k ≠ 0) :
    sb.InData (ptr disk (ino i) k) ∧ used sb disk (ptr disk (ino i) k) = true :=
  owned.ledger.marked (p := (i, k)) (holds_eq_some.mpr ⟨range, type, inside, rfl, nonzero⟩)

theorem ptr_inj {j l : Nat} (range : i < sb.ninodes) (range' : j < sb.ninodes)
    (type : (ino i).type ≠ 0) (type' : (ino j).type ≠ 0) (inside : k < nslots)
    (inside' : l < nslots) (nonzero : ptr disk (ino i) k ≠ 0)
    (same : ptr disk (ino j) l = ptr disk (ino i) k) : j = i ∧ l = k := by
  have first : holds sb disk ino (i, k) = some (ptr disk (ino i) k) :=
    holds_eq_some.mpr ⟨range, type, inside, rfl, nonzero⟩
  have second : holds sb disk ino (j, l) = some (ptr disk (ino i) k) :=
    holds_eq_some.mpr ⟨range', type', inside', same, nonzero⟩
  have equal := owned.ledger.unique second first
  exact ⟨congrArg Prod.fst equal, congrArg Prod.snd equal⟩

/-- The indirect block of an inode in use is in the data area. -/
theorem used_of_indirect (range : i < sb.ninodes) (type : (ino i).type ≠ 0)
    (nonzero : (ino i).addr ndirect ≠ 0) :
    sb.InData ((ino i).addr ndirect) ∧ used sb disk ((ino i).addr ndirect) = true := by
  have inside : ndirect < nslots := by decide
  have pointer := owned.used_of_ptr range type inside (by rwa [ptr_ndirect])
  rwa [ptr_ndirect] at pointer

/-- A free block is in the data area. -/
theorem inData_of_free (free : used sb disk b = false) (bound : b < sb.size) : sb.InData b := by
  refine ⟨?_, bound⟩
  by_contra below
  rw [owned.reserved b (by omega)] at free
  cases free

/-- The ledger does not change when the disk changes elsewhere than in indirect
blocks and in the bitmap. -/
theorem congr (bits : ∀ b < sb.size, used sb disk' b = used sb disk b)
    (indirect : ∀ i < sb.ninodes, (ino i).type ≠ 0 → (ino i).addr ndirect ≠ 0 →
      disk' ((ino i).addr ndirect) = disk ((ino i).addr ndirect)) (ordered : sb.dataStart ≤ sb.size)
    (types : ∀ i < sb.ninodes, ((ino' i).type = 0 ↔ (ino i).type = 0))
    (addrs : ∀ i < sb.ninodes, (ino i).type ≠ 0 → ∀ k, (ino' i).addr k = (ino i).addr k) :
    Owned sb disk' ino' := by
  constructor
  · apply owned.ledger.congr
    · apply holds_congr
      intro i range
      refine ⟨types i range, fun type => ?_⟩
      exact ptr_congr (addrs i range type) (indirect i range type)
    · intro b
      constructor
      · rintro ⟨inside, set⟩
        exact ⟨inside, by rwa [← bits b inside.2]⟩
      · rintro ⟨inside, set⟩
        exact ⟨inside, by rwa [bits b inside.2]⟩
  · intro b below
    rw [bits b (by omega)]
    exact owned.reserved b below

end Owned

/-! ## Changes of the ledger -/

theorem Superblock.InData.pos (inside : sb.InData b) : b ≠ 0 := by
  have low := inside.1
  unfold Superblock.dataStart bpb bsize at low
  omega

/-- The places when slot `k` of inode `i`, whose new value is `d`, takes the block `b`. -/
theorem holds_assign (range : i < sb.ninodes) (type : (ino i).type ≠ 0) (type' : d.type ≠ 0)
    (inside : k < nslots) (nonzero : b ≠ 0)
    (own : ∀ l < nslots, ptr disk' d l = if l = k then b else ptr disk (ino i) l)
    (others : ∀ j < sb.ninodes, j ≠ i → (ino j).type ≠ 0 → (ino j).addr ndirect ≠ 0 →
      disk' ((ino j).addr ndirect) = disk ((ino j).addr ndirect)) (p : Place) :
    holds sb disk' (update ino i d) p =
      update (holds sb disk ino) (i, k) (some b) p := by
  obtain ⟨j, l⟩ := p
  by_cases same : j = i
  · subst same
    by_cases here : l = k
    · subst here
      rw [update_self, holds_eq_some, update_self]
      refine ⟨range, type', inside, ?_, nonzero⟩
      rw [own l inside, if_pos rfl]
    · have different : (j, l) ≠ (j, k) := fun equal => here (congrArg Prod.snd equal)
      rw [update_of_ne different]
      unfold holds
      by_cases low : l < nslots
      · simp only [update_self, own l low, if_neg here, ne_eq, type, type']
      · rw [if_neg (fun held => low held.2.2.1), if_neg (fun held => low held.2.2.1)]
  · have different : (j, l) ≠ (i, k) := fun equal => same (congrArg Prod.fst equal)
    rw [update_of_ne different]
    unfold holds
    rw [update_of_ne same]
    by_cases live : j < sb.ninodes ∧ (ino j).type ≠ 0
    · rw [ptr_congr (fun _ => rfl) (others j live.1 same live.2) l]
    · rw [if_neg (fun held => live ⟨held.1, held.2.1⟩),
        if_neg (fun held => live ⟨held.1, held.2.1⟩)]

/-- Slot `k` of inode `i`, whose new value is `d`, takes a free block. -/
theorem Owned.assignAt (owned : Owned sb disk ino) (range : i < sb.ninodes)
    (type : (ino i).type ≠ 0) (type' : d.type ≠ 0) (inside : k < nslots)
    (vacant : ptr disk (ino i) k = 0) (free : used sb disk b = false) (bound : b < sb.size)
    (ordered : sb.dataStart ≤ sb.size)
    (own : ∀ l < nslots, ptr disk' d l = if l = k then b else ptr disk (ino i) l)
    (others : ∀ j < sb.ninodes, j ≠ i → (ino j).type ≠ 0 → (ino j).addr ndirect ≠ 0 →
      disk' ((ino j).addr ndirect) = disk ((ino j).addr ndirect))
    (bits : ∀ x < sb.size, used sb disk' x = (decide (x = b) || used sb disk x)) :
    Owned sb disk' (update ino i d) := by
  have inData := owned.inData_of_free free bound
  have newLedger := owned.ledger.assign (p := (i, k)) (b := b) (holds_eq_none vacant)
    (fun inUse => by simp [free] at inUse)
  constructor
  · apply newLedger.congr
    · exact holds_assign range type type' inside inData.pos own others
    · intro x
      constructor
      · rintro ⟨isData, set⟩
        rw [bits x isData.2] at set
        by_cases same : x = b
        · exact .inl same
        · exact .inr ⟨isData, by simpa [same] using set⟩
      · rintro (rfl | ⟨isData, set⟩)
        · exact ⟨inData, by simp [bits x bound]⟩
        · exact ⟨isData, by simp [bits x isData.2, set]⟩
  · intro x below
    simp [bits x (by omega), owned.reserved x below]

/-- Only inodes in range count. -/
theorem Owned.of_inodes (owned : Owned sb disk ino) (same : ∀ i < sb.ninodes, ino' i = ino i) :
    Owned sb disk ino' := by
  refine ⟨?_, owned.reserved⟩
  apply owned.ledger.congr
  · apply holds_congr
    intro i range
    simp [same i range]
  · exact fun _ => .rfl

end Xv6.Fs
