import Xv6.Disk.Block
import Xv6.Lib.Bitmap

/-!
# The disk format

The superblock, the inodes and the free bitmap as they lie in their blocks.
-/

namespace Xv6.Fs

open Function

/-- `NDIRECT`: block addresses kept in the inode itself. -/
def ndirect : Nat := 12

/-- `NINDIRECT`: block addresses kept in the indirect block. -/
def nindirect : Nat := 128

/-- `MAXFILE`: the largest file, in blocks. -/
def maxfile : Nat := ndirect + nindirect

/-- `IPB`: inodes in a block. -/
def ipb : Nat := 8

/-- `BPB`: bitmap bits in a block. -/
@[irreducible]
def bpb : Nat := bsize * 8

theorem bpb_pos : 0 < bpb := by
  unfold bpb bsize
  omega

/-- `ROOTINO`: the inode of the root directory. -/
def rootIno : Nat := 1

/-- `ROOTDEV`: the device of the root file system. -/
def rootDev : Nat := 1

/-- `T_DIR`. -/
def tDir : UInt16 := 1

/-- `T_FILE`. -/
def tFile : UInt16 := 2

/-- `T_DEV`. -/
def tDev : UInt16 := 3

/-- `struct superblock`. -/
structure Superblock where
  size : Nat
  nblocks : Nat
  ninodes : Nat
  nlog : Nat
  logstart : Nat
  inodestart : Nat
  bmapstart : Nat
  deriving DecidableEq

/-- `struct dinode`.  The shorts are kept as 16-bit patterns. -/
structure Dinode where
  type : UInt16
  major : UInt16
  minor : UInt16
  nlink : UInt16
  size : UInt32
  addrs : Fin (ndirect + 1) → UInt32
  deriving DecidableEq

namespace Superblock

/-- The superblock in block 1. -/
def decode (block : Block) : Superblock where
  size := block.word 0
  nblocks := block.word 1
  ninodes := block.word 2
  nlog := block.word 3
  logstart := block.word 4
  inodestart := block.word 5
  bmapstart := block.word 6

/-- `IBLOCK(i, sb)`: the block that holds inode `i`. -/
def iblock (sb : Superblock) (i : Nat) : Nat :=
  i / ipb + sb.inodestart

/-- `BBLOCK(b, sb)`: the block of the bitmap that holds the bit of block `b`. -/
def bblock (sb : Superblock) (b : Nat) : Nat :=
  b / bpb + sb.bmapstart

/-- The first block behind the bitmap. -/
def dataStart (sb : Superblock) : Nat :=
  sb.bmapstart + (sb.size / bpb + 1)

/-- The regions lie in the order boot block, superblock, log, inodes, bitmap,
data, and do not overlap. -/
structure Ordered (sb : Superblock) : Prop where
  log : 2 ≤ sb.logstart
  inodes : sb.logstart + sb.nlog ≤ sb.inodestart
  bitmap : sb.inodestart + (sb.ninodes / ipb + 1) ≤ sb.bmapstart
  data : sb.dataStart ≤ sb.size
  size : sb.size < 2 ^ 32
  root : rootIno < sb.ninodes
  inums : sb.ninodes ≤ 2 ^ 16

end Superblock

namespace Dinode

/-- A free inode. -/
def zero : Dinode where
  type := 0
  major := 0
  minor := 0
  nlink := 0
  size := 0
  addrs _ := 0

/-- `addrs[k]` as a block number. -/
def addr (d : Dinode) (k : Nat) : Nat :=
  if bound : k < ndirect + 1 then (d.addrs ⟨k, bound⟩).toNat else 0

/-- The assignment `addrs[k] = b`. -/
def setAddr (d : Dinode) (k b : Nat) : Dinode :=
  { d with addrs := fun j => if j = k then UInt32.ofNat b else d.addrs j }

theorem addr_lt (d : Dinode) (k : Nat) : d.addr k < 2 ^ 32 := by
  unfold addr
  split
  · exact UInt32.toNat_lt _
  · decide

theorem addr_setAddr {d : Dinode} {k b : Nat} (inside : k < ndirect + 1) (fits : b < 2 ^ 32)
    (j : Nat) : (d.setAddr k b).addr j = if j = k then b else d.addr j := by
  unfold addr setAddr
  by_cases same : j = k
  · subst same
    simp only [inside, dite_true, if_true]
    exact Nat.mod_eq_of_lt fits
  · simp [same]

/-- Two inodes with the same fields and addresses are the same. -/
theorem ext_addr {d d' : Dinode} (type : d.type = d'.type) (major : d.major = d'.major)
    (minor : d.minor = d'.minor) (nlink : d.nlink = d'.nlink) (size : d.size = d'.size)
    (addr : ∀ k < ndirect + 1, d.addr k = d'.addr k) : d = d' := by
  have addrs : d.addrs = d'.addrs := by
    funext k
    have same := addr k k.isLt
    unfold Dinode.addr at same
    rw [dif_pos k.isLt, dif_pos k.isLt] at same
    exact UInt32.toNat_inj.mp same
  cases d
  cases d'
  simp_all

/-- The bytes of an inode on the disk. -/
def encode (d : Dinode) : Fin 64 → UInt8 :=
  Bytes.writeWords
    (Bytes.writeLE (Bytes.writeLE (Bytes.writeLE (Bytes.writeLE (Bytes.writeLE (fun _ => 0)
      0 2 d.type.toNat) 2 2 d.major.toNat) 4 2 d.minor.toNat) 6 2 d.nlink.toNat)
      8 4 d.size.toNat) 12 d.addr (ndirect + 1)

def decode (bytes : Fin 64 → UInt8) : Dinode where
  type := UInt16.ofNat (Bytes.readLE bytes 0 2)
  major := UInt16.ofNat (Bytes.readLE bytes 2 2)
  minor := UInt16.ofNat (Bytes.readLE bytes 4 2)
  nlink := UInt16.ofNat (Bytes.readLE bytes 6 2)
  size := UInt32.ofNat (Bytes.readLE bytes 8 4)
  addrs k := UInt32.ofNat (Bytes.readLE bytes (12 + 4 * k) 4)

theorem decode_encode (d : Dinode) : decode (encode d) = d := by
  have short : ∀ x : UInt16, UInt16.ofNat (x.toNat % 256 ^ 2) = x := by
    intro x
    rw [Nat.mod_eq_of_lt (show x.toNat < 256 ^ 2 from x.toNat_lt), UInt16.ofNat_toNat]
  have word : ∀ x : UInt32, UInt32.ofNat (x.toNat % 256 ^ 4) = x := by
    intro x
    rw [Nat.mod_eq_of_lt (show x.toNat < 256 ^ 4 from x.toNat_lt), UInt32.ofNat_toNat]
  unfold decode encode
  congr 1
  iterate 4
    · simp (disch := omega) only [Bytes.readLE_writeWords_of_disjoint,
        Bytes.readLE_writeLE_of_disjoint, Bytes.readLE_writeLE, short]
  · simp (disch := omega) only [Bytes.readLE_writeWords_of_disjoint, Bytes.readLE_writeLE, word]
  · funext k
    rw [Bytes.readLE_writeWords (by unfold ndirect; omega) k.isLt,
      Nat.mod_eq_of_lt (d.addr_lt k), addr, dif_pos k.isLt]
    exact UInt32.ofNat_toNat

@[simp]
theorem decode_zero : decode (fun _ => 0) = zero := by
  simp [decode, zero]

/-- The inode in slot `k` of a block. -/
def get (block : Block) (k : Nat) : Dinode :=
  decode (Bytes.slice block (64 * k) 64)

/-- Store an inode in slot `k` of a block. -/
def put (block : Block) (k : Nat) (d : Dinode) : Block :=
  Bytes.copyIn block (64 * k) 64 (Bytes.byteAt d.encode)

theorem get_put {block : Block} {k : Nat} (inside : k < ipb) (d : Dinode) (j : Nat) :
    get (put block k d) j = if j = k then d else get block j := by
  unfold get put
  by_cases same : j = k
  · subst same
    rw [Bytes.slice_copyIn (by unfold ipb at inside; unfold bsize; omega), decode_encode]
    simp
  · rw [Bytes.slice_copyIn_of_disjoint (by omega), if_neg same]

end Dinode

/-! ## Inodes and bits on a disk -/

/-- The disk holds this inode. -/
def dinode (sb : Superblock) (disk : Nat → Block) (i : Nat) : Dinode :=
  Dinode.get (disk (sb.iblock i)) (i % ipb)

/-- The bitmap marks the block as used. -/
def used (sb : Superblock) (disk : Nat → Block) (b : Nat) : Bool :=
  Bitmap.get (disk (sb.bblock b)) (b % bpb)

variable {sb : Superblock} {disk : Nat → Block} {data : Block}

/-- Storing an inode changes that inode. -/
theorem dinode_put (sb : Superblock) (disk : Nat → Block) (i : Nat) (d : Dinode) (j : Nat) :
    dinode sb (update disk (sb.iblock i) (Dinode.put (disk (sb.iblock i)) (i % ipb) d)) j =
      if j = i then d else dinode sb disk j := by
  have slot : i % ipb < ipb := Nat.mod_lt i (by decide)
  unfold dinode
  by_cases sameBlock : sb.iblock j = sb.iblock i
  · rw [sameBlock, update_self, Dinode.get_put slot]
    by_cases same : j = i
    · simp [same]
    · have otherSlot : j % ipb ≠ i % ipb := by
        unfold Superblock.iblock ipb at sameBlock
        unfold ipb
        omega
      simp [same, otherSlot]
  · have different : j ≠ i := by
      rintro rfl
      exact sameBlock rfl
    rw [update_of_ne sameBlock, if_neg different]

/-- Inodes are not affected by a write to another region. -/
theorem dinode_update_of_ne {b i : Nat} (elsewhere : b ≠ sb.iblock i) :
    dinode sb (update disk b data) i = dinode sb disk i := by
  unfold dinode
  rw [update_of_ne elsewhere.symm]

theorem used_update_of_ne {b b' : Nat} (elsewhere : b ≠ sb.bblock b') :
    used sb (update disk b data) b' = used sb disk b' := by
  unfold used
  rw [update_of_ne elsewhere.symm]

theorem used_set (sb : Superblock) (disk : Nat → Block) (b b' : Nat) :
    used sb (update disk (sb.bblock b) (Bitmap.set (disk (sb.bblock b)) (b % bpb))) b' =
      (decide (b' = b) || used sb disk b') := by
  have slot : b % bpb / 8 < bsize := by
    have bound := Nat.mod_lt b bpb_pos
    unfold bpb at bound ⊢
    omega
  unfold used
  by_cases sameBlock : sb.bblock b' = sb.bblock b
  · rw [sameBlock, update_self, Bitmap.get_set _ slot]
    congr 1
    rw [decide_eq_decide]
    unfold Superblock.bblock bpb bsize at sameBlock
    unfold bpb bsize
    omega
  · have different : b' ≠ b := by
      rintro rfl
      exact sameBlock rfl
    rw [update_of_ne sameBlock]
    simp [different]

theorem used_clear (sb : Superblock) (disk : Nat → Block) (b b' : Nat) :
    used sb (update disk (sb.bblock b) (Bitmap.clear (disk (sb.bblock b)) (b % bpb))) b' =
      (!decide (b' = b) && used sb disk b') := by
  have slot : b % bpb / 8 < bsize := by
    have bound := Nat.mod_lt b bpb_pos
    unfold bpb at bound ⊢
    omega
  unfold used
  by_cases sameBlock : sb.bblock b' = sb.bblock b
  · rw [sameBlock, update_self, Bitmap.get_clear _ slot]
    congr 2
    rw [decide_eq_decide]
    unfold Superblock.bblock bpb bsize at sameBlock
    unfold bpb bsize
    omega
  · have different : b' ≠ b := by
      rintro rfl
      exact sameBlock rfl
    rw [update_of_ne sameBlock]
    simp [different]

/-- The first bitmap block marks the first `n` blocks. -/
theorem used_foldl_set {n b : Nat}
    (block : disk sb.bmapstart = (List.range n).foldl Bitmap.set fun _ => 0) (few : n ≤ bpb)
    (bound : b < bpb) : used sb disk b = decide (b < n) := by
  have first : sb.bblock b = sb.bmapstart := by
    rw [Superblock.bblock, Nat.div_eq_of_lt bound, Nat.zero_add]
  unfold used
  rw [first, block, Nat.mod_eq_of_lt bound, Bitmap.get_foldl_set, Bitmap.get_zero]
  · simp
  · intro i member
    have low := List.mem_range.mp member
    unfold bpb at few
    omega

end Xv6.Fs
