import Xv6.Fs.Image
import Xv6.Mkfs.Program

/-!
# Whether the image is well formed

The kernel takes an image as it is: it relies on the regions of the superblock, on
an exact bitmap and on files that have a block for each part of their size.  The
program rounds the size of the root directory up to the next block, also when its
entries end exactly at the end of a block; then the last block of the directory is
missing, and the kernel allocates one when it reads there.
-/

namespace Xv6.Mkfs

open Stateful Fs

/-- What the kernel expects of a disk. -/
structure WellFormed (disk : Nat → Block) : Prop where
  ordered : (Superblock.decode (disk 1)).Ordered
  owned : Owned (.decode (disk 1)) disk (dinode (.decode (disk 1)) disk)
  extent : ∀ i < (Superblock.decode (disk 1)).ninodes,
    (dinode (.decode (disk 1)) disk i).type ≠ 0 →
    Extent disk (dinode (.decode (disk 1)) disk i)
      (blocksOf (dinode (.decode (disk 1)) disk i).size.toNat)

/-- The kernel has mounted the disk, and entry `e` holds an inode of it. -/
structure Reads (disk : Nat → Block) (s : State) (e : Entry) : Prop where
  onDisk : s.disk = disk
  sb : s.sb = .decode (disk 1)
  range : (s.icache e).inum < s.sb.ninodes
  copy : (s.icache e).copy = s.dinode (s.icache e).inum
  inUse : (s.icache e).copy.type ≠ 0

/-- Reading files and directories changes nothing, so it never allocates a block. -/
def ReadOnly (disk : Nat → Block) : Prop :=
  ∀ s e, Reads disk s e → ∀ off n,
    Wp (readi e off n) (fun _ => False) (fun _ s' => s' = s) s

/-- The files whose inodes the superblock does not count are empty. -/
def Counted (files : List HostFile) : Prop :=
  ∀ i, ninodes ≤ i → contents files i = []

variable {img : Image} {files : List HostFile} {disk : Nat → Block} {s : State} {e : Entry}

/-! ## Reading a well-formed image -/

theorem Reads.working (reads : Reads disk s e) (ordered : (Superblock.decode (disk 1)).Ordered)
    (owned : Owned (.decode (disk 1)) disk (dinode (.decode (disk 1)) disk)) : Working s e := by
  obtain ⟨rfl, sb, range, copy, inUse⟩ := reads
  rw [← sb] at ordered owned
  refine ⟨⟨ordered, sb.symm⟩, range, inUse, ?_⟩
  refine owned.of_inodes fun i _ => ?_
  unfold State.inodes
  rw [copy, Function.update_eq_self]
  rfl

/-- Files that have a block for each part of their size are only read. -/
theorem readOnly_of_extent (extent : ∀ i < (Superblock.decode (disk 1)).ninodes,
    (dinode (.decode (disk 1)) disk i).type ≠ 0 → Extent disk (dinode (.decode (disk 1)) disk i)
      (blocksOf (dinode (.decode (disk 1)) disk i).size.toNat)) : ReadOnly disk := by
  intro s e reads off n
  by_cases device : (s.icache e).copy.type = tDev
  · simp only [readi, wp_bind, wp_get, if_pos device]
    split
    · rfl
    · split <;> rfl
  · obtain ⟨rfl, sb, range, copy, inUse⟩ := reads
    have extent := extent (s.icache e).inum
    rw [← sb] at extent
    have own := extent range (by rw [copy] at inUse; exact inUse)
    refine (readi_spec device ?_ off n).imp fun _ _ => And.left
    rw [copy]
    exact own

/-- A read of a block that the file does not have allocates it. -/
theorem not_readi_unchanged {len : Nat} (working : Working s e)
    (extent : Extent s.disk (s.icache e).copy len) (inside : len < maxfile)
    (notDev : (s.icache e).copy.type ≠ tDev) {off : UInt32} (offset : off.toNat = len * bsize)
    (before : off.toNat < (s.icache e).copy.size.toNat) :
    ¬ Wp (readi e off 1) (fun _ => False) (fun _ s' => s' = s) s := by
  intro unchanged
  have bound := (s.icache e).copy.size.toNat_lt
  have sum : (off + 1).toNat = off.toNat + 1 := by
    rw [UInt32.toNat_add]
    exact Nat.mod_eq_of_lt (by change off.toNat + 1 < 2 ^ 32; omega)
  have good : ¬ (off > (s.icache e).copy.size ∨ off + 1 < off) := by
    rw [gt_iff_lt, UInt32.lt_iff_toNat_lt, UInt32.lt_iff_toNat_lt, sum]
    omega
  have within : ¬ off + 1 > (s.icache e).copy.size := by
    rw [gt_iff_lt, UInt32.lt_iff_toNat_lt, sum]
    omega
  have block : off.toNat / bsize = len := by
    rw [offset]
    exact Nat.mul_div_cancel _ (by decide)
  simp only [readi, wp_bind, wp_get, if_neg notDev, if_neg good, if_neg within] at unchanged
  change Wp (readiLoop e 1 1 off.toNat) _ _ s at unchanged
  rw [readiLoop, if_neg (by decide), wp_bind, block] at unchanged
  have both := (bmap_spec working extent (Nat.le_refl len) inside).and unchanged
  obtain ⟨b, s', -, mapped, rest⟩ := both.returns_of fun _ => And.right
  have same : s' = s := rest
  have count := mapped.taken.count
  rw [same, max_eq_right (show len ≤ len + 1 by omega)] at count
  have grows := blocksFor_lt_succ len
  omega

/-! ## The superblock and the bitmap -/

theorem decode_superblock : Superblock.decode superblock = sb :=
  Image.decode_superblock

theorem sb_ordered : sb.Ordered := Image.sb_ordered

theorem dataStart_eq : sb.dataStart = nmeta := by
  simp [Superblock.dataStart, sb, bpb, bsize, fssize, nmeta, nlog, ninodeblocks, nbitmap, ninodes,
    ipb]

/-- The files behind the last one are empty. -/
theorem contents_of_le {i : Nat} (outside : files.length + 2 ≤ i) : contents files i = [] := by
  obtain ⟨k, rfl⟩ : ∃ k, i = k + 2 := ⟨i - 2, by omega⟩
  rw [contents_file, List.getElem?_eq_none (by omega)]
  rfl

theorem counted_of_few (few : files.length + 2 ≤ ninodes) : Counted files :=
  fun _ beyond => contents_of_le (few.trans beyond)

/-- The kernel with the image mounted, and the root directory in all cache entries. -/
def rootState (img : Image) : State where
  sb := sb
  disk := img.sectors
  icache _ := ⟨rootDev, rootIno, 1, false, true, table img rootIno⟩
  devsw _ := ⟨none, none⟩
  trace := []

namespace Formatted

variable (formatted : Formatted files img)
include formatted

theorem decode : Superblock.decode (img.sectors 1) = sb := by
  rw [formatted.superblock, decode_superblock]

theorem liveRoot : img.Live rootIno :=
  ⟨by decide, by rw [formatted.freeinode]; unfold rootIno; omega⟩

theorem used_iff {b : Nat} (bound : b < fssize) :
    used sb img.sectors b = true ↔ b < img.freeblock := by
  have high := formatted.laid.blocks.high
  have large : fssize ≤ bpb := by
    unfold bpb
    decide
  rw [used_foldl_set formatted.bitmap (high.trans large) (bound.trans_le large),
    decide_eq_true_eq]

theorem marked_iff {b : Nat} :
    sb.InData b ∧ used sb img.sectors b = true ↔ nmeta ≤ b ∧ b < img.freeblock := by
  have high := formatted.laid.blocks.high
  have area : sb.InData b ↔ nmeta ≤ b ∧ b < fssize := by
    unfold Superblock.InData
    rw [dataStart_eq]
    rfl
  rw [area]
  constructor
  · rintro ⟨⟨low, bound⟩, set⟩
    exact ⟨low, (formatted.used_iff bound).mp set⟩
  · rintro ⟨low, taken⟩
    have bound : b < fssize := taken.trans_le high
    exact ⟨⟨low, bound⟩, (formatted.used_iff bound).mpr taken⟩

/-- The inodes that the superblock does not count hold no blocks. -/
theorem holds_eq (counted : Counted files) (p : Place) :
    holds sb img.sectors (table img) p = holds geometry img.sectors (table img) p := by
  unfold holds
  by_cases low : p.1 < ninodes
  · have inside : p.1 < geometry.ninodes := low.trans (by decide)
    have inside' : p.1 < sb.ninodes := low
    simp only [inside, inside']
  · rw [if_neg (fun held => low held.1), if_neg]
    rintro ⟨range, typed, -, nonzero⟩
    have extent :=
      formatted.laid.blocks.extent p.1 ((formatted.laid.blocks.inUse p.1 range).mp typed)
    rw [counted p.1 (by omega)] at extent
    exact nonzero extent.ptr_eq_zero

theorem owned (counted : Counted files) : Owned sb img.sectors (table img) := by
  constructor
  · exact formatted.laid.blocks.ledger.congr (formatted.holds_eq counted)
      fun _ => formatted.marked_iff
  · intro b below
    rw [dataStart_eq] at below
    have low := formatted.laid.blocks.low
    exact (formatted.used_iff (below.trans (by decide))).mpr (by omega)

/-- A block of an inode that the superblock does not count is marked without being held. -/
theorem counted (owned : Owned sb img.sectors (table img)) : Counted files := by
  have blocks := formatted.laid.blocks
  intro i beyond
  by_contra some
  have live : img.Live i := by
    refine ⟨(show 0 < ninodes by decide).trans_le beyond, ?_⟩
    by_contra outside
    rw [formatted.freeinode] at outside
    exact some (contents_of_le (by omega))
  have first : 0 < blocksOf (contents files i).length := by
    have := List.length_pos_of_ne_nil some
    unfold blocksOf bsize
    omega
  obtain ⟨inside, nonzero⟩ := blocks.ptr_slot live first
  obtain ⟨p, held⟩ :=
    owned.ledger.held (formatted.marked_iff.mpr (blocks.ptr_mem live inside nonzero))
  obtain ⟨range, typed, inside', isPtr, -⟩ := holds_eq_some.mp held
  have range : p.1 < ninodes := range
  have live' := (blocks.inUse p.1 (range.trans (by decide))).mp typed
  have same := (blocks.ptr_inj live live' inside inside' nonzero isPtr).1
  omega

theorem extent {i : Nat} (live : img.Live i) (other : i ≠ rootIno) :
    Extent img.sectors (table img i) (blocksOf (table img i).size.toNat) := by
  rw [formatted.size i live other]
  exact formatted.laid.blocks.extent i live

theorem extent_root :
    Extent img.sectors (table img rootIno) (blocksOf (direntSize * (files.length + 2))) := by
  have extent := formatted.laid.blocks.extent rootIno formatted.liveRoot
  rwa [contents_root, length_rootContent] at extent

theorem blocks_rootSize : blocksOf (table img rootIno).size.toNat =
    direntSize * (files.length + 2) / bsize + 1 := by
  rw [formatted.rootSize, length_rootContent]
  unfold blocksOf bsize
  omega

theorem extent_of_partly (partly : (files.length + 2) % 32 ≠ 0) (i : Nat) (range : i < sb.ninodes)
    (typed : (table img i).type ≠ 0) :
    Extent img.sectors (table img i) (blocksOf (table img i).size.toNat) := by
  have live := (formatted.laid.blocks.inUse i (Nat.lt_trans range (by decide))).mp typed
  by_cases root : i = rootIno
  · subst root
    have size : direntSize * (files.length + 2) = 16 * (files.length + 2) := rfl
    have exact : blocksOf (16 * (files.length + 2)) = 16 * (files.length + 2) / bsize + 1 := by
      unfold blocksOf bsize
      omega
    rw [formatted.blocks_rootSize, size, ← exact]
    exact formatted.extent_root
  · exact formatted.extent live root

theorem wellFormed_iff :
    WellFormed img.sectors ↔ (files.length + 2) % 32 ≠ 0 ∧ Counted files := by
  have whole := formatted.extent_root
  have rounded := formatted.blocks_rootSize
  have size : direntSize * (files.length + 2) = 16 * (files.length + 2) := rfl
  rw [size] at whole rounded
  constructor
  · intro wellFormed
    have owned := wellFormed.owned
    rw [formatted.decode] at owned
    refine ⟨fun full => ?_, formatted.counted owned⟩
    have extent := wellFormed.extent rootIno
    rw [formatted.decode] at extent
    have root := extent (by decide) ((formatted.laid.blocks.typed formatted.liveRoot))
    change Extent img.sectors (table img rootIno) (blocksOf (table img rootIno).size.toNat) at root
    have exact : blocksOf (16 * (files.length + 2)) = 16 * (files.length + 2) / bsize := by
      unfold blocksOf bsize
      omega
    rw [rounded] at root
    rw [exact] at whole
    have inside : 16 * (files.length + 2) / bsize < maxfile := root.short
    have present := (root.blocks _ inside).mpr (Nat.lt_succ_self _)
    exact present (whole.vacant inside)
  · rintro ⟨partly, counted⟩
    refine ⟨?_, ?_, ?_⟩ <;> rw [formatted.decode]
    · exact sb_ordered
    · exact formatted.owned counted
    · exact formatted.extent_of_partly partly

/-- Behind the entries of a full root directory the kernel allocates a block. -/
theorem not_readOnly (full : (files.length + 2) % 32 = 0) : ¬ ReadOnly img.sectors := by
  intro readOnly
  have inodes := formatted.laid.blocks.inodes
  have whole := formatted.extent_root
  have rootSize := formatted.rootSize
  -- no multiple of 32 is above `NINODES` and below the number of slots
  have short : files.length + 2 ≤ 192 := by
    rw [formatted.freeinode, show slots = 208 by rfl] at inodes
    omega
  have counted := counted_of_few (show files.length + 2 ≤ ninodes by unfold ninodes; omega)
  have size : direntSize * (files.length + 2) = 16 * (files.length + 2) := rfl
  have last : blocksOf (16 * (files.length + 2)) = 16 * (files.length + 2) / bsize := by
    unfold blocksOf bsize
    omega
  rw [length_rootContent] at rootSize
  rw [size] at whole rootSize
  rw [last] at whole
  have reads : Reads img.sectors (rootState img) 0 := by
    constructor
    · rfl
    · exact formatted.decode.symm
    · exact show rootIno < 200 by decide
    · rfl
    · exact formatted.laid.blocks.typed formatted.liveRoot
  have working : Working (rootState img) 0 := by
    refine reads.working ?_ ?_ <;> rw [formatted.decode]
    · exact sb_ordered
    · exact formatted.owned counted
  have offset : (UInt32.ofNat (16 * (files.length + 2))).toNat = 16 * (files.length + 2) :=
    Nat.mod_eq_of_lt (by omega)
  refine not_readi_unchanged working whole ?_ ?_ ?_ ?_
    (readOnly _ _ reads (UInt32.ofNat (16 * (files.length + 2))) 1)
  · have most : maxfile = 140 := rfl
    unfold bsize
    omega
  · have directory := formatted.type rootIno formatted.liveRoot
    change (table img rootIno).type ≠ tDev
    rw [directory]
    decide
  · rw [offset]
    unfold bsize
    omega
  · change _ < (table img rootIno).size.toNat
    rw [offset, rootSize]
    unfold bsize
    omega

theorem readOnly_iff : ReadOnly img.sectors ↔ (files.length + 2) % 32 ≠ 0 := by
  constructor
  · exact fun readOnly full => formatted.not_readOnly full readOnly
  · intro partly
    apply readOnly_of_extent
    rw [formatted.decode]
    exact formatted.extent_of_partly partly

end Formatted

/-- If there are slots for the inodes, the image is well formed exactly if the entries of the
root directory do not fill its last block and the inodes that the superblock does not count are
empty files; reading it never allocates a block exactly if the entries do not fill the block. -/
theorem wellFormed_iff_of_mkfs (room : files.length + 2 ≤ slots) (done : mkfs files = .ok img) :
    (WellFormed img.sectors ↔ (files.length + 2) % 32 ≠ 0 ∧ Counted files) ∧
      (ReadOnly img.sectors ↔ (files.length + 2) % 32 ≠ 0) := by
  have formatted := mkfs_formatted room done
  exact ⟨formatted.wellFormed_iff, formatted.readOnly_iff⟩

theorem fits_nil : Fits [] := by
  refine ⟨?_, ?_, ?_, by decide⟩ <;>
  · intro f member
    cases member

/-- The image without any files is well formed. -/
theorem empty_image_wellFormed : ∃ img, mkfs [] = .ok img ∧ WellFormed img.sectors := by
  obtain ⟨img, done⟩ := mkfs_ok (by decide) fits_nil
  exact ⟨img, done, (wellFormed_iff_of_mkfs (by decide) done).1.mpr
    ⟨by decide, counted_of_few (by decide)⟩⟩

/-- Thirty empty files with one letter as their names. -/
def letterFile (k : Fin 30) : HostFile where
  name := [UInt8.ofNat (97 + k)]
  opens := true
  chunks := []
  noNul := by
    revert k
    decide
  pieces := by simp

/-- With thirty files the entries of the root directory fill one block: the image is
not well formed, and the kernel allocates a block when it reads the directory. -/
theorem thirty_files_not_wellFormed : ∃ img, mkfs (List.ofFn letterFile) = .ok img ∧
    ¬ WellFormed img.sectors ∧ ¬ ReadOnly img.sectors := by
  have fits : Fits (List.ofFn letterFile) := by
    refine ⟨?_, ?_, ?_, ?_⟩
    · intro f member
      obtain ⟨k, rfl⟩ := List.mem_ofFn.mp member
      clear member
      revert k
      decide
    · intro f member
      obtain ⟨k, rfl⟩ := List.mem_ofFn.mp member
      rfl
    · intro f member
      obtain ⟨k, rfl⟩ := List.mem_ofFn.mp member
      exact Nat.zero_le _
    · have none : (List.ofFn letterFile).map (fun f => blocksFor (blocksOf f.bytes.length)) =
          List.replicate 30 0 := rfl
      rw [cost, length_rootContent, none, List.length_ofFn]
      decide
  obtain ⟨img, done⟩ := mkfs_ok (by simp [slots, ninodeblocks, ninodes, ipb]) fits
  have formatted := mkfs_formatted (by simp [slots, ninodeblocks, ninodes, ipb]) done
  refine ⟨img, done, ?_, ?_⟩
  · rw [formatted.wellFormed_iff]
    simp
  · rw [formatted.readOnly_iff]
    simp

end Xv6.Mkfs
