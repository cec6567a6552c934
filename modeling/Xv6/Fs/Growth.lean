import Xv6.Fs.Ownership

/-!
# How a file grows

`bmap` gives a file its next block, and an indirect block first when the direct
slots are used up.  Each block that it takes goes into a vacant slot, so the
ledger stays exact; the blocks of all other files stay as they are.
-/

namespace Xv6.Fs

open Stateful Function State

/-- The inodes as the code sees them while it works on the copy in entry `e`. -/
def State.inodes (s : State) (e : Entry) : Nat → Dinode :=
  update s.dinode (s.icache e).inum (s.icache e).copy

/-- Entry `e` holds an inode in use, and the ledger is exact when its copy counts. -/
structure Working (s : State) (e : Entry) : Prop where
  mounted : s.Mounted
  range : (s.icache e).inum < s.sb.ninodes
  inUse : (s.icache e).copy.type ≠ 0
  owned : Owned s.sb s.disk (s.inodes e)

/-- The block number in slot `k` of the inode in entry `e`. -/
def State.ptr (s : State) (e : Entry) (k : Nat) : Nat :=
  Fs.ptr s.disk (s.icache e).copy k

/-- A block that the work on entry `e` leaves alone: it is outside the bitmap, and in
the data area it is a block of another file. -/
structure Foreign (s : State) (e : Entry) (x : Nat) : Prop where
  notBitmap : ¬ s.sb.IsBitmap x
  inUse : s.sb.dataStart ≤ x → x < s.sb.size ∧ s.used x = true
  notOwn : s.sb.dataStart ≤ x → ∀ k < nslots, s.ptr e k ≠ x

/-- The work on entry `e` has taken `n` blocks for its file, and otherwise changed
only blocks of that file and the bitmap. -/
structure Taken (s s' : State) (e : Entry) (n : Nat) : Prop where
  working : Working s' e
  sb : s'.sb = s.sb
  devsw : s'.devsw = s.devsw
  cache : ∃ addrs, s'.icache = update s.icache e
    { s.icache e with copy := { (s.icache e).copy with addrs := addrs } }
  kept : ∀ k < nslots, s.ptr e k ≠ 0 → s'.ptr e k = s.ptr e k
  fresh : ∀ k < nslots, s.ptr e k = 0 → s'.ptr e k ≠ 0 → s.used (s'.ptr e k) = false
  disk : ∀ x, Foreign s e x → s'.disk x = s.disk x
  used : ∀ x < s.sb.size, s.used x = true → s'.used x = true
  count : s'.freeCount + n = s.freeCount

/-- Between two states only these blocks were logged; newest first. -/
def Logged (s s' : State) (new : List Nat) : Prop :=
  s'.trace = new.map .logWrite ++ s.trace

/-- The blocks that a file of `len` blocks takes, the indirect block included. -/
def blocksFor (len : Nat) : Nat :=
  len + if ndirect < len then 1 else 0

theorem blocksFor_mono {len len' : Nat} (le : len ≤ len') : blocksFor len ≤ blocksFor len' := by
  unfold blocksFor
  split <;> split <;> omega

variable {s s' : State} {e : Entry} {len bn b : Nat}

variable {j x k n : Nat} {d : Dinode}

section

variable (s e)

@[simp]
theorem State.withCopy_disk (d : Dinode) : (s.withCopy e d).disk = s.disk := rfl

@[simp]
theorem State.withCopy_copy (d : Dinode) : ((s.withCopy e d).icache e).copy = d := by
  simp [withCopy, withInode]

@[simp]
theorem State.withCopy_inum (d : Dinode) :
    ((s.withCopy e d).icache e).inum = (s.icache e).inum := by
  simp [withCopy, withInode]

theorem State.withCopy_freeCount (d : Dinode) : (s.withCopy e d).freeCount = s.freeCount :=
  freeCount_congr rfl fun _ _ => rfl

theorem State.inodes_withCopy (d : Dinode) :
    (s.withCopy e d).inodes e = update s.dinode (s.icache e).inum d := by
  unfold inodes
  rw [withCopy_inum, withCopy_copy]
  rfl

theorem State.inodes_self : s.inodes e (s.icache e).inum = (s.icache e).copy :=
  update_self ..

theorem State.inodes_of_ne (other : j ≠ (s.icache e).inum) : s.inodes e j = s.dinode j :=
  update_of_ne other ..

end

/-- A change of the copy in entry `e`, seen in the table of inodes. -/
theorem State.inodes_eq_update (s s' : State) (e : Entry) (sb : s'.sb = s.sb)
    (inum : (s'.icache e).inum = (s.icache e).inum)
    (blocks : ∀ j < s.sb.ninodes, s'.disk (s.sb.iblock j) = s.disk (s.sb.iblock j)) :
    ∀ j < s.sb.ninodes, s'.inodes e j =
      update (s.inodes e) (s.icache e).inum (s'.icache e).copy j := by
  intro j range
  unfold inodes
  rw [inum]
  by_cases same : j = (s.icache e).inum
  · subst same
    simp
  · rw [update_of_ne same, update_of_ne same, update_of_ne same]
    exact dinode_congr sb (blocks j range)

/-! ## Taking a block -/

/-- Inode blocks are not in the data area. -/
theorem Superblock.Ordered.iblock_lt_dataStart {sb : Superblock} (ordered : sb.Ordered)
    (range : j < sb.ninodes) : sb.iblock j < sb.dataStart :=
  (ordered.iblock_lt range).trans sb.bmapstart_lt_dataStart

/-- Taking a block does not change the inode blocks. -/
theorem State.alloc_disk_iblock (ordered : s.sb.Ordered) (inData : s.sb.InData b)
    (range : j < s.sb.ninodes) : (s.alloc b).disk (s.sb.iblock j) = s.disk (s.sb.iblock j) := by
  apply alloc_disk_of_ne inData.2.le
  · have below := ordered.iblock_lt_dataStart range
    have above := inData.1
    omega
  · exact ordered.iblock_not_bitmap range

/-- A used block is neither taken nor part of the bitmap. -/
theorem State.alloc_disk_of_used (bound : b < s.sb.size) (free : s.used b = false)
    (inData : s.sb.dataStart ≤ x) (set : s.used x = true) : (s.alloc b).disk x = s.disk x := by
  apply alloc_disk_of_ne bound.le
  · rintro rfl
    exact absurd (set.symm.trans free) (by decide)
  · exact Superblock.not_isBitmap_of_dataStart_le inData

theorem State.alloc_mounted (mounted : s.Mounted) (inData : s.sb.InData b) :
    (s.alloc b).Mounted := by
  refine mounted.congr (show (s.alloc b).sb = s.sb from rfl) ?_
  apply alloc_disk_of_ne inData.2.le
  · have above := mounted.ordered.bmapstart_pos
    have between := s.sb.bmapstart_lt_dataStart
    have low := inData.1
    omega
  · exact mounted.ordered.one_not_bitmap

/-- The pointers of an inode of which `addrs[k]` has taken the block `b`. -/
theorem ptr_assignAddr (mounted : s.Mounted) (direct : k ≤ ndirect) (vacant : d.addr k = 0)
    (inData : s.sb.InData b)
    (indirect : d.addr ndirect ≠ 0 → (s.alloc b).disk (d.addr ndirect) = s.disk (d.addr ndirect))
    (l : Nat) : ptr (s.alloc b).disk (d.setAddr k b) l =
      if l = k then b else ptr s.disk d l := by
  have fits : b < 2 ^ 32 := inData.2.trans mounted.ordered.size
  exact ptr_setAddr direct vacant fits inData.pos (fun _ => alloc_disk_self ..) indirect l

/-- The indirect blocks of files in use stay when a block is taken. -/
theorem Owned.alloc_indirect (owned : Owned s.sb s.disk (s.inodes e)) (bound : b < s.sb.size)
    (free : s.used b = false) (inRange : j < s.sb.ninodes) (type : (s.inodes e j).type ≠ 0)
    (nonzero : (s.inodes e j).addr ndirect ≠ 0) :
    (s.alloc b).disk ((s.inodes e j).addr ndirect) = s.disk ((s.inodes e j).addr ndirect) := by
  obtain ⟨isData, set⟩ := owned.used_of_indirect inRange type nonzero
  exact alloc_disk_of_used bound free isData.1 set

/-- The indirect block of the file is a used block of the data area. -/
theorem Working.heldIndirect (working : Working s e)
    (present : (s.icache e).copy.addr ndirect ≠ 0) :
    s.sb.InData ((s.icache e).copy.addr ndirect) ∧
      s.used ((s.icache e).copy.addr ndirect) = true := by
  have held := working.owned.used_of_indirect working.range
  rw [s.inodes_self] at held
  exact held working.inUse present

section

variable (working : Working s e) (bound : b < s.sb.size) (free : s.used b = false)
include working bound free

/-- `addrs[k]` takes a free block. -/
theorem Working.ownedAddr (direct : k ≤ ndirect) (vacant : (s.icache e).copy.addr k = 0) :
    Owned s.sb (s.alloc b).disk
      (((s.alloc b).withCopy e ((s.icache e).copy.setAddr k b)).inodes e) := by
  obtain ⟨mounted, range, inUse, owned⟩ := working
  have inData := owned.inData_of_free free bound
  have inodes := s.inodes_eq_update
    ((s.alloc b).withCopy e ((s.icache e).copy.setAddr k b)) e rfl
    (withCopy_inum ..) (fun j => alloc_disk_iblock mounted.ordered inData)
  refine Owned.of_inodes ?_ inodes
  rw [withCopy_copy]
  refine owned.assignAt range (k := k) ?_ inUse ?_ ?_ free bound mounted.ordered.data ?_ ?_ ?_
  · rwa [s.inodes_self]
  · unfold nslots maxfile
    omega
  · rw [s.inodes_self, ptr_of_le direct]
    exact vacant
  · intro l _
    rw [s.inodes_self]
    apply ptr_assignAddr mounted direct vacant inData
    intro present
    have kept := owned.alloc_indirect bound free range
    rw [s.inodes_self] at kept
    exact kept inUse present
  · intro j inRange _
    exact owned.alloc_indirect bound free inRange
  · intro x inside
    exact alloc_used inData.1 inside.le

/-- A word of the indirect block takes a free block. -/
theorem Working.ownedWord (word : j < nindirect) (present : (s.icache e).copy.addr ndirect ≠ 0)
    (vacant : (s.disk ((s.icache e).copy.addr ndirect)).word j = 0)
    (disk : s'.disk = update (s.alloc b).disk ((s.icache e).copy.addr ndirect)
      ((s.disk ((s.icache e).copy.addr ndirect)).setWord j b)) (sb : s'.sb = s.sb)
    (cache : s'.icache = s.icache) : Owned s'.sb s'.disk (s'.inodes e) := by
  have held := working.heldIndirect present
  obtain ⟨mounted, range, inUse, owned⟩ := working
  have inData := owned.inData_of_free free bound
  have fits : b < 2 ^ 32 := bound.trans mounted.ordered.size
  have inodes := s.inodes_eq_update s' e sb (by rw [cache]) (by
    intro j' inRange
    have below := mounted.ordered.iblock_lt_dataStart inRange
    have above := held.1.1
    rw [disk, update_of_ne (by omega)]
    exact alloc_disk_iblock mounted.ordered inData inRange)
  rw [sb]
  refine Owned.of_inodes ?_ inodes
  rw [cache]
  refine owned.assignAt range (k := ndirect + 1 + j) ?_ inUse ?_ ?_ free bound
    mounted.ordered.data ?_ ?_ ?_
  · rwa [s.inodes_self]
  · unfold nslots maxfile
    omega
  · rw [s.inodes_self, ptr_of_gt (by omega), if_neg present, Nat.add_sub_cancel_left]
    exact vacant
  · intro l inside
    rw [s.inodes_self]
    refine ptr_setWord present word fits ?_
    rw [disk, update_self]
  · intro j' inRange other typed nonzero
    have notSame : (s.inodes e j').addr ndirect ≠ (s.icache e).copy.addr ndirect := by
      intro same
      have slot : ndirect < nslots := by decide
      have equal := owned.ptr_inj (k := ndirect) (l := ndirect) range inRange
        (by rwa [s.inodes_self]) typed slot slot (by rwa [s.inodes_self, ptr_ndirect])
        (by rw [ptr_ndirect, ptr_ndirect, same, s.inodes_self])
      exact other equal.1
    rw [disk, update_of_ne notSame]
    exact owned.alloc_indirect bound free inRange typed nonzero
  · intro x inside
    have elsewhere : (s.icache e).copy.addr ndirect ≠ s.sb.bblock x := by
      have bitmap := (Superblock.isBitmap_bblock inside.le).2
      have above := held.1.1
      omega
    rw [disk, used_update_of_ne elsewhere]
    exact alloc_used inData.1 inside.le

/-- Slot `k` has taken the block `b`. -/
theorem Working.taken (working' : Working s' e) (sb : s'.sb = s.sb) (devsw : s'.devsw = s.devsw)
    (cache : ∃ addrs, s'.icache = update s.icache e
      { s.icache e with copy := { (s.icache e).copy with addrs := addrs } })
    (vacant : s.ptr e k = 0) (pointers : ∀ l < nslots, s'.ptr e l = if l = k then b else s.ptr e l)
    (disk : ∀ x, Foreign s e x → s'.disk x = (s.alloc b).disk x)
    (bits : ∀ x ≤ s.sb.size, s'.used x = (s.alloc b).used x) : Taken s s' e 1 := by
  have inData := working.owned.inData_of_free free bound
  refine ⟨working', sb, devsw, cache, ?_, ?_, ?_, ?_, ?_⟩
  · intro l inside nonzero
    rw [pointers l inside, if_neg]
    rintro rfl
    exact nonzero vacant
  · intro l inside zero nonzero
    rw [pointers l inside] at nonzero ⊢
    by_cases same : l = k
    · rw [if_pos same]
      exact free
    · rw [if_neg same] at nonzero
      exact absurd zero nonzero
  · intro x foreign
    rw [disk x foreign]
    apply alloc_disk_of_ne bound.le
    · rintro rfl
      have set := (foreign.inUse inData.1).2
      exact absurd (set.symm.trans free) (by decide)
    · exact foreign.notBitmap
  · intro x inside set
    rw [bits x inside.le, alloc_used inData.1 inside.le]
    simp [set]
  · rw [freeCount_congr (s := s.alloc b) sb fun x inside => bits x (le_of_lt inside)]
    exact freeCount_alloc inData.1 bound free

/-- The block for `addrs[k]`. -/
theorem Working.takeAddr (direct : k ≤ ndirect) (vacant : (s.icache e).copy.addr k = 0) :
    Taken s ((s.alloc b).withCopy e ((s.icache e).copy.setAddr k b)) e 1 ∧
      ∀ l, ((s.alloc b).withCopy e ((s.icache e).copy.setAddr k b)).ptr e l =
        if l = k then b else s.ptr e l := by
  have owned := working.ownedAddr bound free direct vacant
  have inData := working.owned.inData_of_free free bound
  have pointers : ∀ l, ((s.alloc b).withCopy e ((s.icache e).copy.setAddr k b)).ptr e l =
      if l = k then b else s.ptr e l := by
    intro l
    unfold State.ptr
    rw [withCopy_copy, withCopy_disk]
    apply ptr_assignAddr working.mounted direct vacant inData
    intro present
    have kept := working.owned.alloc_indirect bound free working.range
    rw [s.inodes_self] at kept
    exact kept working.inUse present
  refine ⟨working.taken bound free ⟨?_, ?_, ?_, owned⟩ rfl rfl ⟨_, rfl⟩ ?_ (fun l _ => pointers l)
    (fun _ _ => rfl) fun _ _ => rfl, pointers⟩
  · exact (alloc_mounted working.mounted inData).congr rfl rfl
  · rw [withCopy_inum]
    exact working.range
  · rw [withCopy_copy]
    exact working.inUse
  · rw [State.ptr, ptr_of_le direct]
    exact vacant

/-- The block for a word of the indirect block. -/
theorem Working.takeWord (s' : State) (word : j < nindirect)
    (present : (s.icache e).copy.addr ndirect ≠ 0)
    (vacant : (s.disk ((s.icache e).copy.addr ndirect)).word j = 0)
    (disk : s'.disk = update (s.alloc b).disk ((s.icache e).copy.addr ndirect)
      ((s.disk ((s.icache e).copy.addr ndirect)).setWord j b)) (sb : s'.sb = s.sb)
    (devsw : s'.devsw = s.devsw) (cache : s'.icache = s.icache) :
    Taken s s' e 1 ∧
      ∀ l < nslots, s'.ptr e l = if l = ndirect + 1 + j then b else s.ptr e l := by
  have owned := working.ownedWord bound free word present vacant disk sb cache
  have inData := working.owned.inData_of_free free bound
  have fits : b < 2 ^ 32 := bound.trans working.mounted.ordered.size
  have held := working.heldIndirect present
  have pointers : ∀ l < nslots, s'.ptr e l = if l = ndirect + 1 + j then b else s.ptr e l := by
    intro l inside
    unfold State.ptr
    rw [cache]
    refine ptr_setWord present word fits ?_
    rw [disk, update_self]
  refine ⟨working.taken bound free ⟨?_, ?_, ?_, owned⟩ sb devsw ⟨(s.icache e).copy.addrs, ?_⟩ ?_
    pointers ?_ ?_, pointers⟩
  · refine (alloc_mounted working.mounted inData).congr sb ?_
    rw [disk, update_of_ne]
    have above := held.1.1
    have pos := working.mounted.ordered.bmapstart_pos
    have between := s.sb.bmapstart_lt_dataStart
    omega
  · rw [cache, sb]
    exact working.range
  · rw [cache]
    exact working.inUse
  · rw [cache]
    exact (update_eq_self e s.icache).symm
  · rw [State.ptr, ptr_of_gt (by omega), if_neg present, Nat.add_sub_cancel_left]
    exact vacant
  · intro x foreign
    rw [disk, update_of_ne]
    rintro rfl
    refine foreign.notOwn held.1.1 ndirect (by decide) ?_
    rw [State.ptr, ptr_ndirect]
  · intro x inside
    unfold State.used
    rw [disk, sb, used_update_of_ne]
    · rfl
    · have bitmap := (Superblock.isBitmap_bblock inside).2
      have above := held.1.1
      omega

end

theorem Taken.refl (working : Working s e) : Taken s s e 0 := by
  constructor
  · exact working
  · rfl
  · rfl
  · exact ⟨(s.icache e).copy.addrs, (update_eq_self e s.icache).symm⟩
  · exact fun _ _ _ => rfl
  · exact fun _ _ zero nonzero => absurd zero nonzero
  · exact fun _ _ => rfl
  · exact fun _ _ set => set
  · rfl

/-- Blocks of other files stay blocks of other files. -/
theorem Taken.foreign (taken : Taken s s' e n) (foreign : Foreign s e x) : Foreign s' e x := by
  constructor
  · rw [taken.sb]
    exact foreign.notBitmap
  · rw [taken.sb]
    intro inData
    obtain ⟨bound, set⟩ := foreign.inUse inData
    exact ⟨bound, taken.used x bound set⟩
  · rw [taken.sb]
    rintro inData k inside rfl
    have set := (foreign.inUse inData).2
    have nonzero : s'.ptr e k ≠ 0 := by
      have between := s.sb.bmapstart_lt_dataStart
      omega
    by_cases vacant : s.ptr e k = 0
    · have free := taken.fresh k inside vacant nonzero
      exact absurd (set.symm.trans free) (by decide)
    · exact foreign.notOwn inData k inside (taken.kept k inside vacant).symm

theorem Taken.inum (taken : Taken s s' e n) : (s'.icache e).inum = (s.icache e).inum := by
  obtain ⟨addrs, cache⟩ := taken.cache
  simp [cache]

theorem Taken.trans {s'' : State} {m : Nat} (first : Taken s s' e n) (second : Taken s' s'' e m) :
    Taken s s'' e (n + m) := by
  constructor
  · exact second.working
  · exact second.sb.trans first.sb
  · exact second.devsw.trans first.devsw
  · obtain ⟨addrs, cache⟩ := first.cache
    obtain ⟨addrs', cache'⟩ := second.cache
    refine ⟨addrs', ?_⟩
    rw [cache', cache]
    simp
  · intro k inside nonzero
    have kept := first.kept k inside nonzero
    rw [second.kept k inside (by rwa [kept]), kept]
  · intro k inside zero nonzero
    by_cases middle : s'.ptr e k = 0
    · have later := second.fresh k inside middle nonzero
      -- a block that is free later was free before
      have bound : s''.ptr e k < s.sb.size := by
        have held := second.working.owned.used_of_ptr (i := (s''.icache e).inum)
          second.working.range (by rw [s''.inodes_self]; exact second.working.inUse) inside
          (by rw [s''.inodes_self]; exact nonzero)
        rw [s''.inodes_self] at held
        have size := held.1.2
        rwa [second.sb, first.sb] at size
      cases before : s.used (s''.ptr e k) with
      | false => rfl
      | true => exact absurd ((first.used _ bound before).symm.trans later) (by decide)
    · have kept := second.kept k inside middle
      rw [kept]
      exact first.fresh k inside zero middle
  · intro x foreign
    rw [second.disk x (first.foreign foreign), first.disk x foreign]
  · intro x bound set
    exact second.used x (by rwa [first.sb]) (first.used x bound set)
  · have early := first.count
    have late := second.count
    omega

section

variable (working : Working s e)
include working

/-- The blocks of the file are used blocks of the data area. -/
theorem Working.held (inside : k < nslots) (nonzero : s.ptr e k ≠ 0) :
    s.sb.InData (s.ptr e k) ∧ s.used (s.ptr e k) = true := by
  have held := working.owned.used_of_ptr working.range (k := k)
  rw [s.inodes_self] at held
  exact held working.inUse inside nonzero

/-- The blocks of the file are different from each other. -/
theorem Working.ptr_inj {l : Nat} (inside : k < nslots) (inside' : l < nslots)
    (nonzero : s.ptr e k ≠ 0) (same : s.ptr e l = s.ptr e k) : l = k := by
  have inj := working.owned.ptr_inj working.range working.range (k := k) (l := l)
  rw [s.inodes_self] at inj
  exact (inj working.inUse working.inUse inside inside' nonzero same).2

/-! ## `bmap` -/

/-- The blocks are blocks of the bitmap or in the given slots of the file. -/
def State.Within (s : State) (e : Entry) (slots : Set Nat) (blocks : List Nat) : Prop :=
  ∀ x ∈ blocks, s.sb.IsBitmap x ∨ x ≠ 0 ∧ ∃ k ∈ slots, x = s.ptr e k

/-- What `bmap` has done when it returns block `bn` of a file of `len` blocks. -/
structure Mapped (s s' : State) (e : Entry) (len bn b : Nat) : Prop where
  result : b = s'.ptr e (slot bn)
  present : bn < len → s' = s
  taken : Taken s s' e (blocksFor (max len (bn + 1)) - blocksFor len)
  extent : Extent s'.disk (s'.icache e).copy (max len (bn + 1))
  content : ∀ k < nslots, k ≠ ndirect → s.ptr e k ≠ 0 → s'.disk (s.ptr e k) = s.disk (s.ptr e k)
  log : ∃ new, Logged s s' new ∧ s'.Within e {ndirect, slot bn} new

/-- The block is there already. -/
theorem Mapped.of_present (extent : Extent s.disk (s.icache e).copy len) (bound : bn < len) :
    Mapped s s e len bn (s.ptr e (slot bn)) := by
  have same : max len (bn + 1) = len := by omega
  constructor
  · rfl
  · exact fun _ => rfl
  · rw [same, Nat.sub_self]
    exact Taken.refl working
  · rw [same]
    exact extent
  · exact fun _ _ _ _ => rfl
  · exact ⟨[], rfl, by rintro _ ⟨⟩⟩

variable {disk : Nat → Block}

omit working in
/-- The file gets its next block. -/
theorem Extent.grow {disk' : Nat → Block} {d' : Dinode} (extent : Extent disk d len)
    (inside : len < maxfile) (nonzero : b ≠ 0)
    (pointers : ∀ bn < maxfile, Fs.ptr disk' d' (slot bn) =
      if bn = len then b else Fs.ptr disk d (slot bn))
    (indirect : d'.addr ndirect ≠ 0 ↔ ndirect < len + 1) : Extent disk' d' (len + 1) := by
  refine ⟨inside, ?_, indirect⟩
  intro bn bound
  rw [pointers bn bound]
  by_cases same : bn = len
  · subst same
    simp [nonzero]
  · rw [if_neg same, extent.blocks bn bound]
    omega

omit working in
theorem Mapped.of_next (new : List Nat) (extent : Extent s.disk (s.icache e).copy len)
    (inside : len < maxfile) (nonzero : b ≠ 0) (pointers : ∀ bn < maxfile, s'.ptr e (slot bn) =
      if slot bn = slot len then b else s.ptr e (slot bn))
    (indirect : (s'.icache e).copy.addr ndirect ≠ 0 ↔ ndirect < len + 1)
    (cost : blocksFor (len + 1) - blocksFor len = n) (taken : Taken s s' e n)
    (content : ∀ k < nslots, k ≠ ndirect → s.ptr e k ≠ 0 → s'.disk (s.ptr e k) = s.disk (s.ptr e k))
    (logged : Logged s s' new)
    (within : s'.ptr e (slot len) = b → s'.Within e {ndirect, slot len} new) :
    Mapped s s' e len len b := by
  have same : max len (len + 1) = len + 1 := by omega
  have result : s'.ptr e (slot len) = b := by rw [pointers len inside, if_pos rfl]
  rw [← cost, ← same] at taken
  refine ⟨result.symm, by omega, taken, ?_, content, new, logged, within result⟩
  rw [same]
  refine extent.grow inside nonzero (fun bn bound => (pointers bn bound).trans ?_) indirect
  simp only [show slot bn = slot len ↔ bn = len from ⟨slot_inj, congrArg slot⟩]
  rfl

/-- A direct slot takes a block. -/
theorem Mapped.of_direct (extent : Extent s.disk (s.icache e).copy len) (direct : len < ndirect)
    (size : b < s.sb.size) (free : s.used b = false) :
    Mapped s ((s.alloc b).withCopy e ((s.icache e).copy.setAddr len b)) e len len b := by
  have inside : len < maxfile := direct.trans (by decide)
  have inData := working.owned.inData_of_free free size
  have vacant : (s.icache e).copy.addr len = 0 := by
    by_contra nonzero
    rw [← ptr_slot_of_lt direct, ← ne_eq, extent.blocks len inside] at nonzero
    exact absurd nonzero (Nat.lt_irrefl len)
  obtain ⟨taken, pointers⟩ := working.takeAddr size free direct.le vacant
  have slotLen : slot len = len := if_pos direct
  have cost : blocksFor (len + 1) - blocksFor len = 1 := by
    unfold blocksFor
    rw [if_neg (by omega), if_neg (by omega)]
    omega
  refine .of_next [b, s.sb.bblock b] extent inside inData.pos ?_ ?_ cost taken ?_ rfl
    fun result x member => ?_
  · intro bn _
    rw [pointers, slotLen]
  · rw [withCopy_copy, (s.icache e).copy.addr_setAddr (by omega)
      (size.trans working.mounted.ordered.size), if_neg (by omega), extent.indirect]
    omega
  · intro k bound _ nonzero
    obtain ⟨isData, set⟩ := working.held bound nonzero
    exact alloc_disk_of_used size free isData.1 set
  · rcases List.mem_pair.mp member with rfl | rfl
    · exact .inr ⟨inData.pos, _, .inr rfl, result.symm⟩
    · exact .inl (Superblock.isBitmap_bblock size.le)

/-- The state after word `j` of the indirect block has taken block `b`. -/
def State.allocWord (s : State) (e : Entry) (j b : Nat) : State :=
  { s.alloc b with
    disk := update (s.alloc b).disk ((s.icache e).copy.addr ndirect)
      ((s.disk ((s.icache e).copy.addr ndirect)).setWord j b)
    trace := .logWrite ((s.icache e).copy.addr ndirect) :: (s.alloc b).trace }

omit working in
/-- The slot of a block behind the direct ones. -/
theorem slot_of_ge (behind : ndirect ≤ bn) : slot bn = ndirect + 1 + (bn - ndirect) := by
  rw [slot, if_neg (by omega)]
  omega

omit working in
/-- The word of the indirect block that is to hold the next block. -/
theorem Extent.vacant_word (extent : Extent disk d len) (behind : ndirect < len)
    (inside : len < maxfile) : (disk (d.addr ndirect)).word (len - ndirect) = 0 := by
  have present := extent.indirect.mpr behind
  have vacant := extent.vacant inside
  rwa [ptr_slot_of_ge behind.le, if_neg present] at vacant

/-- The content of the file stays. -/
theorem State.allocWord_disk_old (size : b < s.sb.size) (free : s.used b = false)
    (present : (s.icache e).copy.addr ndirect ≠ 0) (bound : k < nslots) (notIndirect : k ≠ ndirect)
    (nonzero : s.ptr e k ≠ 0) : (s.allocWord e j b).disk (s.ptr e k) = s.disk (s.ptr e k) := by
  obtain ⟨isData, set⟩ := working.held bound nonzero
  have different : s.ptr e k ≠ (s.icache e).copy.addr ndirect := by
    intro same
    refine notIndirect (working.ptr_inj (k := ndirect) (by decide) bound ?_ ?_)
    · rwa [State.ptr, ptr_ndirect]
    · rw [same, State.ptr, ptr_ndirect]
  exact (update_of_ne different _ _).trans
    (alloc_disk_of_used size free isData.1 set)

/-- A word of the indirect block takes a block. -/
theorem Mapped.of_word (extent : Extent s.disk (s.icache e).copy len) (behind : ndirect < len)
    (inside : len < maxfile) (size : b < s.sb.size) (free : s.used b = false) :
    Mapped s (s.allocWord e (len - ndirect) b) e len len b := by
  have present := extent.indirect.mpr behind
  have inData := working.owned.inData_of_free free size
  have word : len - ndirect < nindirect := by
    unfold maxfile at inside
    omega
  obtain ⟨taken, pointers⟩ := working.takeWord size free (s.allocWord e (len - ndirect) b)
    word present (extent.vacant_word behind inside) rfl rfl rfl rfl
  rw [← slot_of_ge behind.le] at pointers
  have cost : blocksFor (len + 1) - blocksFor len = 1 := by
    unfold blocksFor
    rw [if_pos (by omega), if_pos (by omega)]
    omega
  refine .of_next [(s.icache e).copy.addr ndirect, b, s.sb.bblock b] extent inside
    inData.pos (fun bn bound => pointers _ (slot_lt bound)) ?_ cost taken
    (fun k => allocWord_disk_old working size free present) rfl fun result x member => ?_
  · change (s.icache e).copy.addr ndirect ≠ 0 ↔ ndirect < len + 1
    simp only [present, ne_eq, not_false_eq_true, true_iff]
    omega
  · simp only [List.mem_cons, List.not_mem_nil, or_false] at member
    rcases member with rfl | rfl | rfl
    · exact .inr ⟨present, _, .inl rfl, rfl⟩
    · exact .inr ⟨inData.pos, _, .inr rfl, result.symm⟩
    · exact .inl (Superblock.isBitmap_bblock size.le)

/-- The indirect slot and the first word of the new indirect block take a block each. -/
theorem Mapped.of_both (extent : Extent s.disk (s.icache e).copy ndirect) {b' : Nat}
    (size : b < s.sb.size) (free : s.used b = false) (size' : b' < s.sb.size) (middle : State)
    (isMiddle : middle = (s.alloc b).withCopy e ((s.icache e).copy.setAddr ndirect b))
    (free' : middle.used b' = false) : Mapped s (middle.allocWord e 0 b') e ndirect ndirect b' := by
  have vacant : (s.icache e).copy.addr ndirect = 0 := by
    by_contra present
    exact absurd (extent.indirect.mp present) (Nat.lt_irrefl _)
  obtain ⟨taken, pointers⟩ := working.takeAddr size free (Nat.le_refl _) vacant
  rw [← isMiddle] at taken pointers
  have inData := working.owned.inData_of_free free size
  have addr : (middle.icache e).copy.addr ndirect = b := by
    rw [isMiddle, withCopy_copy, (s.icache e).copy.addr_setAddr (by omega)
      (size.trans working.mounted.ordered.size), if_pos rfl]
  have present : (middle.icache e).copy.addr ndirect ≠ 0 := by
    rw [addr]
    exact inData.pos
  have zero : (middle.disk ((middle.icache e).copy.addr ndirect)).word 0 = 0 := by
    rw [addr, isMiddle, withCopy_disk, alloc_disk_self]
    simp [Block.word]
  obtain ⟨taken', pointers'⟩ := taken.working.takeWord (by rwa [taken.sb]) free'
    (middle.allocWord e 0 b') (by decide) present zero rfl rfl rfl rfl
  have slotEq : slot ndirect = ndirect + 1 + 0 := by decide
  have inData' : b' ≠ 0 :=
    (taken.working.owned.inData_of_free free' (by rwa [taken.sb])).pos
  have indirect : (middle.allocWord e 0 b').ptr e ndirect = b := by
    rw [pointers' _ (by decide), if_neg (by omega), pointers, if_pos rfl]
  have bitmap : ∀ x ≤ s.sb.size, (middle.allocWord e 0 b').sb.IsBitmap (s.sb.bblock x) := by
    intro x bound
    have sb : (middle.allocWord e 0 b').sb = s.sb := taken.sb
    rw [sb]
    exact Superblock.isBitmap_bblock bound
  have middleTrace : middle.trace = [b, s.sb.bblock b].map .logWrite ++ s.trace := by
    rw [isMiddle]
    rfl
  refine .of_next [b, b', s.sb.bblock b', b, s.sb.bblock b] extent (by decide) inData' ?_
    ?_ (by decide) (taken.trans taken') ?_ ?_ fun result x member => ?_
  · intro bn bound
    rw [pointers' _ (slot_lt bound), pointers, if_neg (slot_ne_ndirect bn), slotEq]
  · change (middle.icache e).copy.addr ndirect ≠ 0 ↔ ndirect < ndirect + 1
    simp [present]
  · intro k bound notIndirect nonzero
    obtain ⟨isData, set⟩ := working.held bound nonzero
    have kept := taken.kept k bound nonzero
    have later : (middle.allocWord e 0 b').disk (middle.ptr e k) = middle.disk (middle.ptr e k) :=
      allocWord_disk_old taken.working (by rwa [taken.sb]) free' present bound notIndirect
        (by rwa [kept])
    rw [kept] at later
    rw [later, isMiddle]
    exact alloc_disk_of_used size free isData.1 set
  · unfold Logged allocWord alloc
    simp only [addr, middleTrace, taken.sb, List.map_cons, List.map_nil, List.cons_append,
      List.nil_append]
  · simp only [List.mem_cons, List.not_mem_nil, or_false] at member
    rcases member with rfl | rfl | rfl | rfl | rfl
    · exact .inr ⟨inData.pos, _, .inl rfl, indirect.symm⟩
    · exact .inr ⟨inData', _, .inr rfl, result.symm⟩
    · exact .inl (bitmap _ size'.le)
    · exact .inr ⟨inData.pos, _, .inl rfl, indirect.symm⟩
    · exact .inl (bitmap _ size.le)

end

/-- `balloc` can only fail if the file would need more blocks than are free. -/
theorem blocksFor_lt_succ (len : Nat) : blocksFor len < blocksFor (len + 1) := by
  unfold blocksFor
  split <;> split <;> omega

/-- `bmap` of a block that the file has. -/
theorem bmap_present (extent : Extent s.disk (s.icache e).copy len) (bound : bn < len) :
    Wp (bmap e bn) (fun _ => False) (fun b s' => s' = s ∧ b = s.ptr e (slot bn)) s := by
  have inside : bn < maxfile := bound.trans_le extent.short
  have pointer := (extent.blocks bn inside).mpr bound
  simp only [bmap, wp_bind, wp_get, State.ptr]
  by_cases direct : bn < ndirect
  · rw [ptr_slot_of_lt direct] at pointer ⊢
    rw [if_pos direct, if_neg pointer]
    exact ⟨rfl, rfl⟩
  · have present : (s.icache e).copy.addr ndirect ≠ 0 := extent.indirect.mpr (by omega)
    rw [ptr_slot_of_ge (by omega), if_neg present] at pointer ⊢
    rw [if_neg direct, if_pos (show bn - ndirect < nindirect by unfold maxfile at inside; omega),
      if_neg present]
    simp only [wp_bind, wp_pure, wp_bread, if_neg pointer]
    exact ⟨trivial, trivial⟩

/-- `bmap` returns block `bn` of the file, which gets it if it is the next one. -/
theorem bmap_spec (working : Working s e) (extent : Extent s.disk (s.icache e).copy len)
    (bound : bn ≤ len) (inside : bn < maxfile) :
    Wp (bmap e bn)
      (fun reason => reason = .outOfBlocks ∧
        s.freeCount + blocksFor len < blocksFor (max len (bn + 1)))
      (fun b s' => Mapped s s' e len bn b) s := by
  have pointer := extent.blocks bn inside
  have starved : ∀ reason : Halt, reason = .outOfBlocks ∧ (∀ x < s.sb.size, s.used x = true) →
      bn = len → reason = .outOfBlocks ∧
        s.freeCount + blocksFor len < blocksFor (max len (bn + 1)) := by
    rintro reason ⟨rfl, full⟩ rfl
    rw [freeCount_eq_zero full, Nat.zero_add, max_eq_right (Nat.le_succ bn)]
    exact ⟨rfl, blocksFor_lt_succ bn⟩
  simp only [bmap, wp_bind, wp_get]
  split
  · -- a direct block
    rename_i direct
    rw [ptr_slot_of_lt direct] at pointer
    split
    · rename_i vacant
      have last : bn = len := by
        have missing : ¬ bn < len := fun below => pointer.mpr below vacant
        omega
      subst last
      refine Wp.bind (balloc_spec s) (fun reason full => starved reason full rfl) ?_
      rintro b s' ⟨size, free, -, rfl⟩
      simp only [wp_bind, wp_setCopy, wp_pure]
      exact Mapped.of_direct working extent direct size free
    · rename_i present
      have mapped := Mapped.of_present working extent (pointer.mp present)
      rw [State.ptr, ptr_slot_of_lt direct] at mapped
      exact mapped
  · rename_i indirect
    have behind : ndirect ≤ bn := by omega
    rw [if_pos (show bn - ndirect < nindirect by unfold maxfile at inside; omega)]
    split
    · -- the indirect block is missing
      rename_i missing
      have notBehind : ¬ ndirect < len := fun below => extent.indirect.mpr below missing
      obtain rfl : len = ndirect := by omega
      obtain rfl : bn = ndirect := by omega
      refine Wp.bind (balloc_spec s) (fun reason full => starved reason full rfl) ?_
      rintro b s' ⟨size, free, -, rfl⟩
      obtain ⟨taken, -⟩ := working.takeAddr size free (Nat.le_refl _) missing
      have middleZero : (((s.alloc b).withCopy e ((s.icache e).copy.setAddr ndirect b)).disk b).word
          (ndirect - ndirect) = 0 := by
        rw [withCopy_disk, alloc_disk_self]
        simp [Block.word]
      have addr :
          (((s.alloc b).withCopy e ((s.icache e).copy.setAddr ndirect b)).icache e).copy.addr
            ndirect = b := by
        rw [withCopy_copy, (s.icache e).copy.addr_setAddr (by omega)
          (size.trans working.mounted.ordered.size), if_pos rfl]
      simp only [wp_bind, wp_setCopy, wp_pure, wp_bread, alloc_icache]
      generalize isMiddle : (s.alloc b).withCopy e ((s.icache e).copy.setAddr ndirect b) = middle
        at taken middleZero addr ⊢
      rw [if_pos middleZero]
      refine Wp.bind (balloc_spec middle) ?_ ?_
      · rintro reason ⟨rfl, full⟩
        have count := taken.count
        rw [freeCount_eq_zero full] at count
        rw [← count]
        exact ⟨rfl, by decide⟩
      · rintro b' s' ⟨size', free', -, rfl⟩
        simp only [wp_bind, wp_logWrite, wp_pure]
        rw [taken.sb] at size'
        have mapped := Mapped.of_both working extent size free size' middle isMiddle.symm free'
        simpa only [allocWord, write, addr, Nat.sub_self] using mapped
    · rename_i present
      have longer : ndirect < len := extent.indirect.mp present
      rw [ptr_slot_of_ge behind, if_neg present] at pointer
      simp only [wp_bind, wp_pure, wp_bread]
      split
      · rename_i vacant
        have last : bn = len := by
          have missing : ¬ bn < len := fun below => pointer.mpr below vacant
          omega
        subst last
        refine Wp.bind (balloc_spec s) (fun reason full => starved reason full rfl) ?_
        rintro b s' ⟨size, free, -, rfl⟩
        simp only [wp_bind, wp_logWrite, wp_pure]
        exact Mapped.of_word working extent longer inside size free
      · rename_i present'
        have mapped := Mapped.of_present working extent (pointer.mp present')
        rw [State.ptr, ptr_slot_of_ge behind, if_neg present] at mapped
        exact mapped

end Xv6.Fs
