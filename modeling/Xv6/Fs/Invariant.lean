import Xv6.Fs.Content

/-!
# The invariant of the file system

What holds whenever no inode is being changed: the ledger of blocks is exact,
every file has exactly the blocks that its size asks for, and the inode cache
agrees with the disk.  While the copy in one cache entry is changed and not yet
written back, the same holds with that copy in place of the inode on the disk
(`Editing`); `iupdate` ends the change.
-/

namespace Xv6.Fs

open Stateful Function State

/-- The cache entry is in use. -/
def State.Live (s : State) (e : Entry) : Prop :=
  0 < (s.icache e).ref

/-- The entries of the inode cache that are in use. -/
structure CacheInv (s : State) : Prop where
  dev : ∀ e, s.Live e → (s.icache e).dev = rootDev
  pos : ∀ e, s.Live e → 0 < (s.icache e).inum
  range : ∀ e, s.Live e → (s.icache e).inum < s.sb.ninodes
  unique : ∀ e e', s.Live e → s.Live e' → (s.icache e).inum = (s.icache e').inum → e = e'

/-- The disk and the cache are consistent. -/
structure FsInv (s : State) : Prop where
  mounted : s.Mounted
  cache : CacheInv s
  coherent : ∀ e, s.Live e → (s.icache e).valid = true →
    (s.icache e).copy = s.dinode (s.icache e).inum ∧ (s.icache e).copy.type ≠ 0
  owned : Owned s.sb s.disk s.dinode
  extent : ∀ i < s.sb.ninodes, (s.dinode i).type ≠ 0 →
    Extent s.disk (s.dinode i) (blocksOf (s.dinode i).size.toNat)

/-- They are consistent but for the copy in entry `e`, which is ahead of the disk. -/
structure Editing (s : State) (e : Entry) : Prop where
  mounted : s.Mounted
  cache : CacheInv s
  live : s.Live e
  coherent : ∀ e', e' ≠ e → s.Live e' → (s.icache e').valid = true →
    (s.icache e').copy = s.dinode (s.icache e').inum ∧ (s.icache e').copy.type ≠ 0
  owned : Owned s.sb s.disk (s.inodes e)
  extent : ∀ i < s.sb.ninodes, (s.inodes e i).type ≠ 0 →
    Extent s.disk (s.inodes e i) (blocksOf (s.inodes e i).size.toNat)

/-- Nothing has happened to the files other than `i`. -/
structure Elsewhere (s s' : State) (i : Nat) : Prop where
  sb : s'.sb = s.sb
  devsw : s'.devsw = s.devsw
  dinode : ∀ j < s.sb.ninodes, j ≠ i → s'.dinode j = s.dinode j
  blocks : ∀ j < s.sb.ninodes, j ≠ i → (s.dinode j).type ≠ 0 → ∀ k < nslots,
    ptr s.disk (s.dinode j) k ≠ 0 →
    s'.disk (ptr s.disk (s.dinode j) k) = s.disk (ptr s.disk (s.dinode j) k)

/-- The cache entries differ in nothing but their copies. -/
def SameTags (s s' : State) : Prop :=
  ∀ e, s'.icache e = { s.icache e with copy := (s'.icache e).copy }

variable {s s' s'' : State} {e : Entry} {i : Nat}

/-! ## Cache entries -/

namespace SameTags

variable (same : SameTags s s')
include same

theorem inum (e : Entry) : (s'.icache e).inum = (s.icache e).inum := by
  rw [same e]

theorem dev (e : Entry) : (s'.icache e).dev = (s.icache e).dev := by
  rw [same e]

theorem valid (e : Entry) : (s'.icache e).valid = (s.icache e).valid := by
  rw [same e]

theorem live (e : Entry) : s'.Live e ↔ s.Live e := by
  unfold State.Live
  rw [same e]

/-- The invariant of the entries does not mention the copies. -/
theorem cacheInv (sb : s'.sb = s.sb) (cache : CacheInv s) : CacheInv s' := by
  constructor
  · intro e live
    rw [same.dev]
    exact cache.dev e ((same.live e).mp live)
  · intro e live
    rw [same.inum]
    exact cache.pos e ((same.live e).mp live)
  · intro e live
    rw [same.inum, sb]
    exact cache.range e ((same.live e).mp live)
  · intro e e' live live'
    rw [same.inum, same.inum]
    exact cache.unique e e' ((same.live e).mp live) ((same.live e').mp live')

end SameTags

theorem SameTags.of_icache (same : s'.icache = s.icache) : SameTags s s' := by
  intro e
  rw [same]

theorem SameTags.of_update {d : Dinode}
    (same : s'.icache = update s.icache e { s.icache e with copy := d }) : SameTags s s' := by
  intro e'
  rw [same]
  by_cases here : e' = e
  · subst here
    simp
  · simp [here]

/-! ## Other files -/

variable {j x : Nat}

namespace Elsewhere

/-- The pointers of another file. -/
theorem ptr (elsewhere : Elsewhere s s' i) (range : j < s.sb.ninodes) (other : j ≠ i)
    (type : (s.dinode j).type ≠ 0) (k : Nat) :
    Fs.ptr s'.disk (s'.dinode j) k = Fs.ptr s.disk (s.dinode j) k := by
  rw [elsewhere.dinode j range other]
  apply ptr_congr (fun _ => rfl)
  intro present
  have block := elsewhere.blocks j range other type ndirect (by decide)
  rw [ptr_ndirect] at block
  exact block present

/-- The content of another file. -/
theorem fileByte (elsewhere : Elsewhere s s' i) (range : j < s.sb.ninodes) (other : j ≠ i)
    (type : (s.dinode j).type ≠ 0)
    (extent : Extent s.disk (s.dinode j) (blocksOf (s.dinode j).size.toNat))
    (bound : x < (s.dinode j).size.toNat) :
    Fs.fileByte s'.disk (s'.dinode j) x = Fs.fileByte s.disk (s.dinode j) x := by
  have below : x / bsize < blocksOf (s.dinode j).size.toNat := by
    unfold blocksOf bsize
    omega
  have inside := below.trans_le extent.short
  unfold Fs.fileByte
  rw [elsewhere.ptr range other type,
    elsewhere.blocks j range other type _ (slot_lt inside) ((extent.blocks _ inside).mpr below)]

theorem trans (first : Elsewhere s s' i) (second : Elsewhere s' s'' i) : Elsewhere s s'' i := by
  constructor
  · exact second.sb.trans first.sb
  · exact second.devsw.trans first.devsw
  · intro j range other
    rw [second.dinode j (by rwa [first.sb]) other, first.dinode j range other]
  · intro j range other type k inside nonzero
    have same := first.ptr range other type k
    have later := second.blocks j (by rwa [first.sb]) other
      (by rwa [first.dinode j range other]) k inside (by rwa [same])
    rw [same] at later
    rw [later, first.blocks j range other type k inside nonzero]

end Elsewhere

/-! ## Editing an inode -/

theorem FsInv.inodes_eq (inv : FsInv s) (live : s.Live e) (valid : (s.icache e).valid = true) :
    s.inodes e = s.dinode := by
  unfold inodes
  rw [(inv.coherent e live valid).1]
  exact update_eq_self _ _

theorem FsInv.working (inv : FsInv s) (live : s.Live e) (valid : (s.icache e).valid = true) :
    Working s e := by
  refine ⟨inv.mounted, inv.cache.range e live, (inv.coherent e live valid).2, ?_⟩
  rw [inv.inodes_eq live valid]
  exact inv.owned

theorem FsInv.extent_copy (inv : FsInv s) (live : s.Live e) (valid : (s.icache e).valid = true) :
    Extent s.disk (s.icache e).copy (blocksOf (s.icache e).copy.size.toNat) := by
  obtain ⟨same, type⟩ := inv.coherent e live valid
  rw [same] at type ⊢
  exact inv.extent _ (inv.cache.range e live) type

/-- The state after inode `i` has been written to its block. -/
def State.putInode (s : State) (i : Nat) (d : Dinode) : State :=
  s.write (s.sb.iblock i) (Dinode.put (s.disk (s.sb.iblock i)) (i % ipb) d)

theorem State.putInode_dinode (s : State) (i : Nat) (d : Dinode) :
    (s.putInode i d).dinode = update s.dinode i d := by
  funext j
  refine (dinode_put s.sb s.disk i d j).trans ?_
  rw [update_apply]
  rfl

theorem State.putInode_disk_of_ne {d : Dinode} (other : x ≠ s.sb.iblock i) :
    (s.putInode i d).disk x = s.disk x :=
  update_of_ne other ..

section

variable (ordered : s.sb.Ordered) (range : i < s.sb.ninodes) {d : Dinode}
include ordered range

theorem State.putInode_disk_of_dataStart_le (inData : s.sb.dataStart ≤ x) :
    (s.putInode i d).disk x = s.disk x := by
  apply putInode_disk_of_ne
  have below := ordered.iblock_lt_dataStart range
  omega

theorem State.putInode_used (bound : x ≤ s.sb.size) : (s.putInode i d).used x = s.used x := by
  have elsewhere : s.sb.iblock i ≠ s.sb.bblock x := by
    have bitmap := (Superblock.isBitmap_bblock bound).1
    have below := ordered.iblock_lt range
    omega
  exact used_update_of_ne elsewhere

omit range in
theorem State.putInode_disk_one : (s.putInode i d).disk 1 = s.disk 1 := by
  apply putInode_disk_of_ne
  have above := ordered.one_lt_iblock i
  omega

theorem State.putInode_freeCount : (s.putInode i d).freeCount = s.freeCount :=
  freeCount_congr rfl fun _ bound => putInode_used ordered range (le_of_lt bound)

end

/-- The state after `iupdate`. -/
def State.updated (s : State) (e : Entry) : State :=
  s.putInode (s.icache e).inum (s.icache e).copy

@[simp]
theorem wp_iupdate {stop : Halt → Prop} {post : Unit → State → Prop} :
    Wp (iupdate e) stop post s ↔ post () (s.updated e) := .rfl

/-- `iupdate` writes the copy to the disk. -/
theorem State.updated_dinode (s : State) (e : Entry) : (s.updated e).dinode = s.inodes e :=
  s.putInode_dinode ..

@[simp]
theorem State.updated_icache (s : State) (e : Entry) : (s.updated e).icache = s.icache := rfl

variable (editing : Editing s e)
include editing

theorem Editing.updated_disk (inData : s.sb.dataStart ≤ x) : (s.updated e).disk x = s.disk x :=
  putInode_disk_of_dataStart_le editing.mounted.ordered
    (editing.cache.range e editing.live) inData

theorem Editing.updated_freeCount : (s.updated e).freeCount = s.freeCount :=
  putInode_freeCount editing.mounted.ordered (editing.cache.range e editing.live)

/-- The blocks of all files are where they were. -/
theorem Editing.updated_ptr (range : j < s.sb.ninodes) (type : (s.inodes e j).type ≠ 0) (k : Nat) :
    ptr (s.updated e).disk (s.inodes e j) k = ptr s.disk (s.inodes e j) k := by
  apply ptr_congr (fun _ => rfl)
  intro present
  have held := editing.owned.used_of_indirect range type present
  exact editing.updated_disk held.1.1

/-- After `iupdate` everything is as before, but on the disk. -/
theorem Editing.updated : Editing (s.updated e) e := by
  have ordered := editing.mounted.ordered
  have range := editing.cache.range e editing.live
  have dinode := s.updated_dinode e
  have inodes : (s.updated e).inodes e = s.inodes e := by
    unfold inodes at dinode ⊢
    rw [dinode, updated_icache]
    exact update_idem ..
  constructor
  · exact editing.mounted.congr rfl (putInode_disk_one ordered)
  · exact (SameTags.of_icache (s.updated_icache e)).cacheInv rfl editing.cache
  · exact editing.live
  · intro e' other live valid
    have different : (s.icache e').inum ≠ (s.icache e).inum :=
      fun equal => other (editing.cache.unique e' e live editing.live equal)
    have kept := editing.coherent e' other live valid
    rw [dinode, updated_icache, s.inodes_of_ne e different]
    exact kept
  · rw [inodes]
    refine editing.owned.congr (fun x bound => putInode_used ordered range bound.le) ?_
      ordered.data (fun _ _ => .rfl) (fun _ _ _ _ => rfl)
    intro j inRange type present
    exact editing.updated_disk (editing.owned.used_of_indirect inRange type present).1.1
  · rw [inodes]
    intro j inRange type
    have before := editing.extent j inRange type
    refine ⟨before.short, fun bn bound => ?_, before.indirect⟩
    rw [editing.updated_ptr inRange type]
    exact before.blocks bn bound

omit editing in
/-- The copy has caught up with the disk. -/
theorem Editing.inodes_eq (same : (s.icache e).copy = s.dinode (s.icache e).inum) :
    s.inodes e = s.dinode := by
  unfold inodes
  rw [same]
  exact update_eq_self _ _

/-- The change of an inode in use has ended. -/
theorem Editing.done (same : (s.icache e).copy = s.dinode (s.icache e).inum)
    (inUse : (s.icache e).copy.type ≠ 0) : FsInv s := by
  obtain ⟨mounted, cache, live, coherent, owned, extent⟩ := editing
  rw [Editing.inodes_eq same] at owned extent
  refine ⟨mounted, cache, ?_, owned, extent⟩
  intro e' live' valid
  by_cases here : e' = e
  · subst here
    exact ⟨same, inUse⟩
  · exact coherent e' here live' valid

/-- `iupdate` ends the change of an inode. -/
theorem Editing.update (inUse : (s.icache e).copy.type ≠ 0) : FsInv (s.updated e) := by
  refine editing.updated.done ?_ inUse
  rw [s.updated_dinode]
  exact (s.inodes_self e).symm

/-- `iupdate` leaves the other files alone. -/
theorem Editing.update_elsewhere : Elsewhere s (s.updated e) (s.icache e).inum := by
  constructor
  · rfl
  · rfl
  · intro j _ other
    rw [s.updated_dinode, s.inodes_of_ne e other]
  · intro j inRange other type k inside nonzero
    rw [← s.inodes_of_ne e other] at type nonzero ⊢
    exact editing.updated_disk (editing.owned.used_of_ptr inRange type inside nonzero).1.1

end Xv6.Fs
