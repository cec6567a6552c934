import Xv6.Fs.Dir
import Xv6.Fs.Node

/-!
# A fresh file system

The image that `mkfs` writes for one empty file `README`: a root directory with
the entries `.`, `..` and `README`.  It satisfies the invariant, with any cache
that agrees with it.
-/

namespace Xv6.Fs.Image

open Stateful

def sb : Superblock where
  size := 1000
  nblocks := 941
  ninodes := 200
  nlog := 30
  logstart := 2
  inodestart := 32
  bmapstart := 58

/-- The inode of the root directory. -/
def root : Dinode where
  type := tDir
  major := 0
  minor := 0
  nlink := 1
  size := 512
  addrs k := if k = 0 then 59 else 0

/-- The inode of the file. -/
def readme : Dinode where
  type := tFile
  major := 0
  minor := 0
  nlink := 1
  size := 0
  addrs _ := 0

/-- `"README"` -/
def readmeName : List UInt8 := [82, 69, 65, 68, 77, 69]

def superblock : Block :=
  Bytes.writeWords (fun _ => 0) 0 (fun i => [1000, 941, 200, 30, 2, 32, 58].getD i 0) 7

def inodeBlock : Block :=
  Dinode.put (Dinode.put (fun _ => 0) 1 root) 2 readme

/-- Everything before the data area is used, and so is the block of the root
directory. -/
def bitmap : Block :=
  (List.range 60).foldl Bitmap.set fun _ => 0

def rootBlock : Block :=
  Bytes.copyIn (Bytes.copyIn (Bytes.copyIn (fun _ => 0)
    0 16 (Dirent.named dot 1).byte) 16 16 (Dirent.named dotdot 1).byte)
    32 16 (Dirent.named readmeName 2).byte

def disk (b : Nat) : Block :=
  if b = 1 then superblock
  else if b = 32 then inodeBlock
  else if b = 58 then bitmap
  else if b = 59 then rootBlock
  else fun _ => 0

/-- The state with the given cache. -/
def state (icache : Entry → Inode) : State where
  sb := sb
  disk := disk
  icache := icache
  devsw _ := ⟨none, none⟩
  trace := []

/-! ## What the image holds -/

theorem decode_superblock : Superblock.decode superblock = sb := by
  have words : ∀ i < 7, superblock.word i = [1000, 941, 200, 30, 2, 32, 58].getD i 0 % 2 ^ 32 := by
    intro i bound
    have read : Bytes.readLE superblock (0 + 4 * i) 4 =
        [1000, 941, 200, 30, 2, 32, 58].getD i 0 % 2 ^ 32 :=
      Bytes.readLE_writeWords (by decide) bound
    rwa [Nat.zero_add] at read
  unfold Superblock.decode
  rw [words 0 (by decide), words 1 (by decide), words 2 (by decide), words 3 (by decide),
    words 4 (by decide), words 5 (by decide), words 6 (by decide)]
  rfl

theorem sb_ordered : sb.Ordered := by
  constructor <;> simp [sb, Superblock.dataStart, bpb, bsize, ipb, rootIno]

theorem dinode_eq {i : Nat} (range : i < 200) : dinode sb disk i =
    if i = 1 then root else if i = 2 then readme else Dinode.zero := by
  have slot : ∀ k < 3, k < ipb := by decide
  unfold dinode Superblock.iblock
  by_cases first : i / ipb = 0
  · have block : disk (i / ipb + sb.inodestart) = inodeBlock := by
      rw [first]
      rfl
    have index : i % ipb = i := Nat.mod_eq_of_lt (by unfold ipb at first ⊢; omega)
    rw [block, index, inodeBlock, Dinode.get_put (slot 2 (by decide)),
      Dinode.get_put (slot 1 (by decide))]
    by_cases two : i = 2
    · subst two
      rfl
    · rw [if_neg two, if_neg two]
      simp [Dinode.get]
  · have block : disk (i / ipb + sb.inodestart) = fun _ => 0 := by
      have low : 32 < i / ipb + sb.inodestart := by
        unfold sb ipb at *
        simp only
        omega
      have high : i / ipb + sb.inodestart < 58 := by
        unfold sb ipb
        simp only
        omega
      unfold disk
      rw [if_neg (by omega), if_neg (by omega), if_neg (by omega), if_neg (by omega)]
    rw [block, if_neg (by unfold ipb at first; omega), if_neg (by unfold ipb at first; omega)]
    simp [Dinode.get]

theorem used_eq {b : Nat} (bound : b < 1000) : used sb disk b = decide (b < 60) := by
  refine used_foldl_set rfl ?_ ?_ <;>
  · unfold bpb bsize
    omega

theorem ptr_root (k : Nat) : ptr disk root k = if k = 0 then 59 else 0 := by
  have addr : ∀ j < ndirect + 1, root.addr j = if j = 0 then 59 else 0 := by decide
  by_cases direct : k ≤ ndirect
  · rw [ptr_of_le direct, addr k (by omega)]
  · rw [ptr_of_gt (by omega), addr ndirect (by decide), if_neg (show k ≠ 0 by omega)]
    rfl

theorem ptr_readme (k : Nat) : ptr disk readme k = 0 := by
  have addr : ∀ j, readme.addr j = 0 := by
    intro j
    unfold Dinode.addr
    split <;> rfl
  unfold ptr
  rw [addr, addr]
  simp

theorem holds_eq_some_iff (p : Place) (b : Nat) :
    holds sb disk (dinode sb disk) p = some b ↔ p = (1, 0) ∧ b = 59 := by
  obtain ⟨i, k⟩ := p
  rw [holds_eq_some]
  constructor
  · rintro ⟨range, type, inside, rfl, nonzero⟩
    rw [dinode_eq range] at nonzero type ⊢
    by_cases isRoot : i = 1
    · subst isRoot
      rw [if_pos rfl, ptr_root] at nonzero ⊢
      by_cases zero : k = 0
      · subst zero
        exact ⟨rfl, rfl⟩
      · simp [zero] at nonzero
    · rw [if_neg isRoot] at nonzero type
      by_cases isReadme : i = 2
      · rw [if_pos isReadme, ptr_readme] at nonzero
        exact absurd rfl nonzero
      · rw [if_neg isReadme] at type
        exact absurd rfl type
  · rintro ⟨same, rfl⟩
    cases same
    have range : (1 : Nat) < 200 := by decide
    refine ⟨range, ?_, by decide, ?_, by decide⟩
    · rw [dinode_eq range]
      decide
    · rw [dinode_eq range, if_pos rfl, ptr_root]
      rfl

theorem owned : Owned sb disk (dinode sb disk) := by
  have start : sb.dataStart = 59 := by
    simp [Superblock.dataStart, sb, bpb, bsize]
  constructor
  · constructor
    · intro p b held
      obtain ⟨-, rfl⟩ := (holds_eq_some_iff p b).mp held
      refine ⟨⟨start.le, by decide⟩, ?_⟩
      rw [used_eq (by decide)]
      rfl
    · intro p q b first second
      rw [((holds_eq_some_iff p b).mp first).1, ((holds_eq_some_iff q b).mp second).1]
    · rintro b ⟨⟨low, high⟩, set⟩
      rw [used_eq high, decide_eq_true_eq] at set
      rw [start] at low
      obtain rfl : b = 59 := by omega
      exact ⟨(1, 0), (holds_eq_some_iff _ _).mpr ⟨rfl, rfl⟩⟩
  · intro b below
    rw [start] at below
    rw [used_eq (by omega)]
    simp only [decide_eq_true_eq]
    omega

theorem extent {i : Nat} (range : i < 200) (type : (dinode sb disk i).type ≠ 0) :
    Extent disk (dinode sb disk i) (blocksOf (dinode sb disk i).size.toNat) := by
  rw [dinode_eq range] at type ⊢
  by_cases isRoot : i = 1
  · rw [if_pos isRoot]
    have len : blocksOf root.size.toNat = 1 := by decide
    rw [len]
    refine ⟨by decide, fun bn _ => ?_, by decide⟩
    rw [ptr_root]
    have first : slot bn = 0 ↔ bn < 1 := by
      unfold slot ndirect
      split <;> omega
    by_cases zero : slot bn = 0
    · simp [zero, first.mp zero]
    · simp only [zero, if_false, ne_eq, not_true_eq_false, false_iff]
      exact fun below => zero (first.mpr below)
  · rw [if_neg isRoot] at type ⊢
    by_cases isReadme : i = 2
    · rw [if_pos isReadme]
      have len : blocksOf readme.size.toNat = 0 := by decide
      rw [len]
      refine ⟨by decide, fun bn _ => ?_, by decide⟩
      simp [ptr_readme]
    · rw [if_neg isReadme] at type
      exact absurd rfl type

/-- The image is well formed, with any cache that agrees with it. -/
theorem fsInv {icache : Entry → Inode} (cache : CacheInv (state icache))
    (coherent : ∀ e, (state icache).Live e → (icache e).valid = true →
      (icache e).copy = dinode sb disk (icache e).inum ∧ (icache e).copy.type ≠ 0) :
    FsInv (state icache) := by
  constructor
  · exact ⟨sb_ordered, decode_superblock⟩
  · exact cache
  · exact coherent
  · exact owned
  · exact fun i range => extent range

theorem freeCount (icache : Entry → Inode) : (state icache).freeCount = 940 := by
  have free : (Finset.range 1000).filter (fun b => (state icache).used b = false) =
      Finset.Ico 60 1000 := by
    ext b
    simp only [Finset.mem_filter, Finset.mem_range, Finset.mem_Ico]
    constructor
    · rintro ⟨bound, clear⟩
      rw [State.used, state, used_eq bound] at clear
      simp only [decide_eq_false_iff_not] at clear
      omega
    · rintro ⟨low, high⟩
      refine ⟨high, ?_⟩
      rw [State.used, state, used_eq high]
      simp only [decide_eq_false_iff_not]
      omega
  unfold State.freeCount
  change ((Finset.range 1000).filter fun b => (state icache).used b = false).card = 940
  rw [free, Nat.card_Ico]

/-- An unused cache entry. -/
def unusedInode : Inode := ⟨0, 0, 0, false, false, Dinode.zero⟩

/-- The cache when the file is in entry 0 and the root directory in entry 1. -/
def icache (e : Entry) : Inode :=
  if e = 0 then ⟨rootDev, 2, 1, false, true, readme⟩
  else if e = 1 then ⟨rootDev, rootIno, 1, false, true, root⟩
  else unusedInode

theorem live_icache {e : Entry} (live : (state icache).Live e) : e = 0 ∨ e = 1 := by
  by_contra neither
  rw [not_or] at neither
  change 0 < (icache e).ref at live
  rw [icache, if_neg neither.1, if_neg neither.2] at live
  exact absurd live (Nat.lt_irrefl 0)

theorem fsInv_icache : FsInv (state icache) := by
  apply fsInv
  · constructor
    · intro e live
      rcases live_icache live with rfl | rfl <;> rfl
    · intro e live
      rcases live_icache live with rfl | rfl <;> decide
    · intro e live
      rcases live_icache live with rfl | rfl <;> decide
    · intro e e' live live'
      rcases live_icache live with rfl | rfl <;> rcases live_icache live' with rfl | rfl <;> decide
  · intro e live _
    rcases live_icache live with rfl | rfl
    · refine ⟨?_, by decide⟩
      exact (dinode_eq (i := 2) (by decide)).symm
    · refine ⟨?_, by decide⟩
      exact (dinode_eq (i := 1) (by decide)).symm

theorem node_two (cache : Entry → Inode) : (state cache).node 2 = ⟨tFile, 0, 0, 1, []⟩ := by
  have inode : (state cache).dinode 2 = readme := dinode_eq (i := 2) (by decide)
  have range : 2 < (state cache).sb.ninodes := show 2 < 200 by decide
  rw [State.node_eq range (by rw [inode]; decide), inode]
  rfl

end Xv6.Fs.Image
