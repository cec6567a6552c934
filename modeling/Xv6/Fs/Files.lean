import Xv6.Fs.Node

/-!
# `writei` and `readi` on nodes

`writei` overwrites a range of the bytes of a file and stores the new size in the
inode, so that the invariant holds again when it returns; `readi` returns a range
of them.
-/

namespace Xv6.Fs

open Stateful Splice Function

variable {s s' s₁ : State} {e : Entry} {n : Nat}

/-! ## From the growth of a file back to the invariant -/

variable {j len off : Nat} {src : Nat → UInt8}

/-- The inode blocks are foreign to every file. -/
theorem foreign_iblock (ordered : s.sb.Ordered) (range : j < s.sb.ninodes) :
    Foreign s e (s.sb.iblock j) := by
  have below := ordered.iblock_lt_dataStart range
  constructor
  · exact ordered.iblock_not_bitmap range
  · omega
  · omega

/-- The blocks of another file are foreign to this one. -/
theorem FsInv.foreign_ptr (inv : FsInv s) (live : s.Live e) (valid : (s.icache e).valid = true)
    {k : Nat} (range : j < s.sb.ninodes) (other : j ≠ (s.icache e).inum)
    (type : (s.dinode j).type ≠ 0) (inside : k < nslots) (nonzero : ptr s.disk (s.dinode j) k ≠ 0) :
    Foreign s e (ptr s.disk (s.dinode j) k) := by
  obtain ⟨inData, set⟩ := inv.owned.used_of_ptr range type inside nonzero
  obtain ⟨same, typed⟩ := inv.coherent e live valid
  constructor
  · exact Superblock.not_isBitmap_of_dataStart_le inData.1
  · exact fun _ => ⟨inData.2, set⟩
  · intro _ l inside' equal
    rw [State.ptr, same] at equal
    rw [same] at typed
    exact other (inv.owned.ptr_inj range (inv.cache.range e live) type typed inside inside' nonzero
      equal).1.symm

/-- Growth leaves the other files alone. -/
theorem Taken.elsewhere (taken : Taken s s' e n) (inv : FsInv s) (live : s.Live e)
    (valid : (s.icache e).valid = true) : Elsewhere s s' (s.icache e).inum := by
  constructor
  · exact taken.sb
  · exact taken.devsw
  · intro j range _
    exact State.dinode_congr taken.sb (taken.disk _ (foreign_iblock inv.mounted.ordered range))
  · intro j range other type k inside nonzero
    exact taken.disk _ (inv.foreign_ptr live valid range other type inside nonzero)

theorem Extent.of_addrs {disk : Nat → Block} {d d' : Dinode} (extent : Extent disk d len)
    (addrs : d'.addrs = d.addrs) : Extent disk d' len := by
  have addr : ∀ k, d'.addr k = d.addr k := by
    intro k
    unfold Dinode.addr
    rw [addrs]
  exact extent.of_ptr (ptr_congr addr fun _ => rfl)

/-- A file that has grown, with the new size in the copy of its inode. -/
theorem Taken.editing (taken : Taken s s' e n) (inv : FsInv s) (live : s.Live e)
    (valid : (s.icache e).valid = true) (size : UInt32)
    (extent : Extent s'.disk (s'.icache e).copy (blocksOf size.toNat)) (mid : State)
    (isMid : mid = s'.withCopy e { (s'.icache e).copy with size := size }) : Editing mid e := by
  obtain ⟨addrs, cache⟩ := taken.cache
  have elsewhere := taken.elsewhere inv live valid
  have cache' : mid.icache = update s.icache e
      { s.icache e with copy := { (s'.icache e).copy with size := size } } := by
    simp [isMid, State.withCopy, State.withInode, cache]
  have tags : SameTags s mid := SameTags.of_update cache'
  have sb : mid.sb = s.sb := by
    rw [isMid]
    exact taken.sb
  have disk : mid.disk = s'.disk := by rw [isMid]; rfl
  have inodes : mid.inodes e =
      update s'.dinode (s.icache e).inum { (s'.icache e).copy with size := size } := by
    rw [isMid, State.inodes_withCopy, taken.inum]
  constructor
  · exact taken.working.mounted.congr (sb.trans taken.sb.symm) (by rw [disk])
  · exact tags.cacheInv sb inv.cache
  · exact (tags.live e).mpr live
  · intro e' other live' valid'
    have before := (tags.live e').mp live'
    have different : (s.icache e').inum ≠ (s.icache e).inum :=
      fun equal => other (inv.cache.unique e' e before live equal)
    have entry : mid.icache e' = s.icache e' := by
      rw [cache', update_of_ne other]
    rw [entry] at valid' ⊢
    have kept : mid.dinode (s.icache e').inum = s.dinode (s.icache e').inum := by
      rw [← elsewhere.dinode _ (inv.cache.range e' before) different]
      exact State.dinode_congr (sb.trans taken.sb.symm) (by rw [disk])
    rw [kept]
    exact inv.coherent e' before valid'
  · rw [sb, ← taken.sb, disk, inodes, ← taken.inum]
    refine taken.working.owned.congr (fun _ _ => rfl) (fun _ _ _ _ => rfl) ?_ ?_ ?_
    · exact taken.working.mounted.ordered.data
    · intro j _
      unfold State.inodes
      by_cases same : j = (s'.icache e).inum <;> simp [same]
    · intro j _ _ k
      unfold State.inodes
      by_cases same : j = (s'.icache e).inum
      · simp [same, Dinode.addr]
      · simp [same]
  · intro j range type
    rw [sb] at range
    rw [disk]
    rw [inodes] at type ⊢
    by_cases same : j = (s.icache e).inum
    · subst same
      rw [update_self]
      exact extent.of_addrs rfl
    · rw [update_of_ne same] at type ⊢
      have kept := elsewhere.dinode j range same
      rw [kept] at type
      have before := inv.extent j range type
      refine ⟨by rw [kept]; exact before.short, fun bn bound => ?_, ?_⟩
      · rw [elsewhere.ptr range same type, kept]
        exact before.blocks bn bound
      · rw [kept]
        exact before.indirect

/-- Growth by no block leaves the copy of the inode as it is. -/
theorem Taken.copy_eq (taken : Taken s s' e n) (before : Extent s.disk (s.icache e).copy len)
    (after : Extent s'.disk (s'.icache e).copy len) : (s'.icache e).copy = (s.icache e).copy := by
  obtain ⟨addrs, cache⟩ := taken.cache
  have fields : (s'.icache e).copy = { (s.icache e).copy with addrs := addrs } := by
    simp [cache]
  have pointers : ∀ k < ndirect + 1, s'.ptr e k = s.ptr e k := by
    intro k bound
    have inside : k < nslots := by
      unfold nslots maxfile
      omega
    have missing : s.ptr e k = 0 → s'.ptr e k = 0 := by
      intro zero
      by_contra nonzero
      by_cases direct : k < ndirect
      · have slotEq : slot k = k := if_pos direct
        have short : k < maxfile := direct.trans (by decide)
        rw [← slotEq] at zero nonzero
        exact (before.blocks k short).mpr ((after.blocks k short).mp nonzero) zero
      · obtain rfl : k = ndirect := by omega
        rw [State.ptr, ptr_ndirect] at zero nonzero
        exact before.indirect.mpr (after.indirect.mp nonzero) zero
    by_cases zero : s.ptr e k = 0
    · rw [zero, missing zero]
    · exact taken.kept k inside zero
  apply Dinode.ext_addr
  · rw [fields]
  · rw [fields]
  · rw [fields]
  · rw [fields]
  · rw [fields]
  · intro k bound
    have same := pointers k bound
    rwa [State.ptr, State.ptr, ptr_of_le (by omega), ptr_of_le (by omega)] at same

/-! ## `writei` -/

theorem blocksOf_max (n m : Nat) : blocksOf (max n m) = max (blocksOf n) (blocksOf m) := by
  rcases Nat.le_total n m with le | le
  · rw [max_eq_right le, max_eq_right (blocksOf_mono le)]
  · rw [max_eq_left le, max_eq_left (blocksOf_mono le)]

/-- Bytes `off` to `off + n` of the file in entry `e` have been written, and nothing
else has changed. -/
structure FileWritten (s s' : State) (e : Entry) (src : Nat → UInt8) (off n : Nat) : Prop where
  inv : FsInv s'
  cache : ∃ d, s'.icache = update s.icache e { s.icache e with copy := d }
  node : s'.node = update s.node (s.icache e).inum
    { s.node (s.icache e).inum with data := splice 0 (s.node (s.icache e).inum).data off n src }
  count : s'.freeCount + (blocksFor (blocksOf (max (s.icache e).copy.size.toNat (off + n))) -
    blocksFor (blocksOf (s.icache e).copy.size.toNat)) = s.freeCount
  log : ∃ mid, Written s mid e (blocksOf (s.icache e).copy.size.toNat) src off n ∧
    s'.trace = (if (s.icache e).copy.size.toNat < off + n then
      [.logWrite (s.sb.iblock (s.icache e).inum)] else []) ++ mid.trace

/-- The bytes of the file after a write, as an array. -/
theorem Written.data (written : Written s s' e len src off n) (size : UInt32)
    (isLen : len = blocksOf (s.icache e).copy.size.toNat)
    (inside : off ≤ (s.icache e).copy.size.toNat)
    (isSize : size.toNat = max (s.icache e).copy.size.toNat (off + n)) :
    (List.range size.toNat).map (s'.byte e) =
      splice 0 (Node.ofDinode s.disk (s.icache e).copy).data off n src := by
  apply ext_getD 0
  · rw [length_splice, Node.length_data_ofDinode, isSize, List.length_map, List.length_range]
  · intro x bound
    rw [List.length_map, List.length_range] at bound
    rw [getD_map_range, if_pos bound, getD_splice, Node.getD_data_ofDinode]
    split
    · rename_i within
      exact written.inside x within.1 within.2
    · rename_i outside
      rw [if_pos (by omega)]
      apply written.outside x
      · rw [isLen]
        unfold blocksOf bsize
        omega
      · omega

/-- The content of a file does not move when its inode is written. -/
theorem Editing.updated_byte (editing : Editing s e) (inUse : (s.icache e).copy.type ≠ 0) {x : Nat}
    (bound : x < (s.icache e).copy.size.toNat) : (s.updated e).byte e x = s.byte e x := by
  have range := editing.cache.range e editing.live
  have typed : (s.inodes e (s.icache e).inum).type ≠ 0 := by rwa [s.inodes_self]
  have extent := editing.extent _ range typed
  have pointers := editing.updated_ptr range typed
  rw [s.inodes_self] at extent pointers
  have below : x / bsize < blocksOf (s.icache e).copy.size.toNat := by
    unfold blocksOf bsize
    omega
  have inside := below.trans_le extent.short
  have held := editing.owned.used_of_ptr range typed (slot_lt inside)
  rw [s.inodes_self] at held
  unfold State.byte fileByte
  rw [State.updated_icache, pointers,
    editing.updated_disk (held ((extent.blocks _ inside).mpr below)).1.1]

/-- A write that does not make the file longer. -/
theorem Written.keepSize
    (written : Written s s' e (blocksOf (s.icache e).copy.size.toNat) src off n) (inv : FsInv s)
    (live : s.Live e) (valid : (s.icache e).valid = true)
    (inside : off + n ≤ (s.icache e).copy.size.toNat) : FileWritten s s' e src off n := by
  have same : max (blocksOf (s.icache e).copy.size.toNat) (blocksOf (off + n)) =
      blocksOf (s.icache e).copy.size.toNat := max_eq_left (blocksOf_mono inside)
  have taken := written.taken
  have extent := written.extent
  rw [same] at taken extent
  have copy := taken.copy_eq (inv.extent_copy live valid) extent
  have elsewhere := taken.elsewhere inv live valid
  obtain ⟨addrs, cache⟩ := taken.cache
  have inum := taken.inum
  have live' : s'.Live e := by
    unfold State.Live
    rw [cache, update_self]
    exact live
  have dinode : s'.dinode (s.icache e).inum = s.dinode (s.icache e).inum :=
    State.dinode_congr taken.sb (taken.disk _ (foreign_iblock inv.mounted.ordered
      (inv.cache.range e live)))
  obtain ⟨coherent, inUse⟩ := inv.coherent e live valid
  have inv' : FsInv s' := by
    have editing := taken.editing inv live valid (s'.icache e).copy.size
      (by rw [copy] at extent ⊢; exact extent) s' (by simp [State.withCopy, State.withInode])
    refine editing.done ?_ ?_
    · rw [copy, inum, dinode, coherent]
    · rw [copy]
      exact inUse
  constructor
  · exact inv'
  · exact ⟨_, cache⟩
  · refine elsewhere.node_eq_update inv ?_
    have valid' : (s'.icache e).valid = true := by
      rw [cache, update_self]
      exact valid
    have node := inv'.node_inum live' valid'
    rw [inum] at node
    rw [node, inv.node_inum live valid, copy]
    have data := written.data (s.icache e).copy.size rfl (by omega) (max_eq_left inside).symm
    rw [← data]
    unfold Node.ofDinode State.byte
    rw [copy]
  · rw [max_eq_left inside]
    exact taken.count
  · exact ⟨s', written, by rw [if_neg (by omega)]; rfl⟩

/-- A write that makes the file longer, with the new size stored in the inode. -/
theorem Written.newSize (written : Written s s₁ e (blocksOf (s.icache e).copy.size.toNat) src off n)
    (inv : FsInv s) (live : s.Live e) (valid : (s.icache e).valid = true)
    (inside : off ≤ (s.icache e).copy.size.toNat) (beyond : (s.icache e).copy.size.toNat < off + n)
    (fits : off + n < 2 ^ 32) (mid : State)
    (isMid : mid = s₁.withCopy e { (s₁.icache e).copy with size := UInt32.ofNat (off + n) }) :
    FileWritten s (mid.updated e) e src off n := by
  have longer : max (blocksOf (s.icache e).copy.size.toNat) (blocksOf (off + n)) =
      blocksOf (off + n) := max_eq_right (blocksOf_mono beyond.le)
  have size : (UInt32.ofNat (off + n)).toNat = off + n := UInt32.toNat_ofNat_of_lt' fits
  have taken := written.taken
  have extent := written.extent
  rw [longer] at taken extent
  obtain ⟨addrs, cache⟩ := taken.cache
  have elsewhere := taken.elsewhere inv live valid
  have editing : Editing mid e :=
    taken.editing inv live valid (UInt32.ofNat (off + n)) (by rwa [size]) mid isMid
  have cache' : mid.icache = update s.icache e
      { s.icache e with copy := { (s₁.icache e).copy with size := UInt32.ofNat (off + n) } } := by
    simp [isMid, State.withCopy, State.withInode, cache]
  have tags : SameTags s mid := SameTags.of_update cache'
  have copy : (mid.icache e).copy = { (s₁.icache e).copy with size := UInt32.ofNat (off + n) } := by
    simp [cache']
  have old : (s₁.icache e).copy = { (s.icache e).copy with addrs := addrs } := by
    simp [cache]
  have inUse : (mid.icache e).copy.type ≠ 0 := by
    rw [copy, old]
    exact (inv.coherent e live valid).2
  have inv' := editing.update inUse
  have elsewhere' : Elsewhere s (mid.updated e) (s.icache e).inum := by
    have first : Elsewhere s mid (s.icache e).inum := by
      rw [isMid]
      exact ⟨elsewhere.sb, elsewhere.devsw, elsewhere.dinode, elsewhere.blocks⟩
    have second := editing.update_elsewhere
    rw [tags.inum] at second
    exact first.trans second
  constructor
  · exact inv'
  · exact ⟨_, cache'⟩
  · refine elsewhere'.node_eq_update inv ?_
    have node : (mid.updated e).node (mid.icache e).inum =
        Node.ofDinode (mid.updated e).disk (mid.icache e).copy :=
      inv'.node_inum ((tags.live e).mpr live) ((tags.valid e).trans valid)
    rw [tags.inum] at node
    rw [node, inv.node_inum live valid]
    have data := written.data (UInt32.ofNat (off + n)) rfl inside
      (by rw [size, max_eq_right beyond.le])
    have bytes : (Node.ofDinode (mid.updated e).disk (mid.icache e).copy).data =
        (List.range (UInt32.ofNat (off + n)).toNat).map (s₁.byte e) := by
      change (List.range (mid.icache e).copy.size.toNat).map ((mid.updated e).byte e) = _
      rw [copy]
      apply List.map_congr_left
      intro x member
      have bound := List.mem_range.mp member
      rw [editing.updated_byte inUse (by rw [copy]; exact bound)]
      unfold State.byte fileByte
      rw [copy, isMid]
      rfl
    rw [data] at bytes
    rw [← bytes]
    unfold Node.ofDinode
    rw [copy, old]
  · rw [max_eq_right beyond.le]
    have count := taken.count
    rw [editing.updated_freeCount, isMid, State.withCopy_freeCount]
    exact count
  · refine ⟨s₁, written, ?_⟩
    rw [if_pos beyond, ← tags.inum e, ← elsewhere.sb, isMid]
    rfl

/-- The range cannot be written. -/
def BadRange (size off n : Nat) : Prop :=
  size < off ∨ 2 ^ 32 ≤ off + n ∨ maxfile * bsize < off + n

instance (size off n : Nat) : Decidable (BadRange size off n) := by
  unfold BadRange
  infer_instance

/-- `writei` on a file: an error that changes nothing, or the bytes are written. -/
theorem writei_spec (inv : FsInv s) (live : s.Live e) (valid : (s.icache e).valid = true)
    (notDev : (s.icache e).copy.type ≠ tDev) (src : Nat → UInt8) (off n : UInt32) :
    Wp (writei e src off n)
      (fun reason => reason = .outOfBlocks ∧
        ¬ BadRange (s.icache e).copy.size.toNat off.toNat n.toNat ∧
        s.freeCount + blocksFor (blocksOf (s.icache e).copy.size.toNat) <
          blocksFor (blocksOf (max (s.icache e).copy.size.toNat (off.toNat + n.toNat))))
      (fun result s' =>
        if BadRange (s.icache e).copy.size.toNat off.toNat n.toNat then result = none ∧ s' = s
        else result = some n.toNat ∧ FileWritten s s' e src off.toNat n.toNat) s := by
  have bad : (off > (s.icache e).copy.size ∨ off + n < off) ↔
      ((s.icache e).copy.size.toNat < off.toNat ∨ 2 ^ 32 ≤ off.toNat + n.toNat) := by
    rw [add_lt_left_iff, gt_iff_lt, UInt32.lt_iff_toNat_lt]
  simp only [writei, wp_bind, wp_get, if_neg notDev, bad]
  split
  · rename_i error
    have isBad : BadRange (s.icache e).copy.size.toNat off.toNat n.toNat := by
      unfold BadRange
      omega
    rw [wp_pure, if_pos isBad]
    exact ⟨rfl, rfl⟩
  · rename_i good
    have sum : (off + n).toNat = off.toNat + n.toNat := by
      rw [UInt32.toNat_add]
      omega
    rw [sum]
    split
    · rename_i error
      have isBad : BadRange (s.icache e).copy.size.toNat off.toNat n.toNat := by
        unfold BadRange
        omega
      rw [wp_pure, if_pos isBad]
      exact ⟨rfl, rfl⟩
    · rename_i fits
      have allowed : ¬ BadRange (s.icache e).copy.size.toNat off.toNat n.toNat := by
        unfold BadRange
        omega
      simp only [if_neg allowed]
      refine Wp.bind (writeiLoop_spec (inv.working live valid) (inv.extent_copy live valid)
        (Nat.le_refl _) (blocksOf_mono (by omega)) (by omega)) ?_ ?_
      · rintro reason ⟨rfl, starved⟩
        rw [blocksOf_max]
        exact ⟨rfl, allowed, starved⟩
      · rintro last s₁ ⟨rfl, written⟩
        obtain ⟨addrs, cache⟩ := written.taken.cache
        have size : (s₁.icache e).copy.size = (s.icache e).copy.size := by simp [cache]
        simp only [wp_bind, wp_get, size]
        split
        · rename_i grows
          rw [wp_bind, wp_setCopy, wp_bind, wp_iupdate, wp_pure]
          exact ⟨rfl, written.newSize inv live valid (by omega) grows.2 (by omega) _ rfl⟩
        · rename_i keeps
          refine ⟨rfl, written.keepSize inv live valid ?_⟩
          omega

/-- `readi` on a file: an error, or the bytes of the range.  Nothing changes. -/
theorem readi_node_spec (inv : FsInv s) (live : s.Live e) (valid : (s.icache e).valid = true)
    (notDev : (s.icache e).copy.type ≠ tDev) (off n : UInt32) :
    Wp (readi e off n) (fun _ => False)
      (fun result s' => s' = s ∧ result =
        if (s.node (s.icache e).inum).data.length < off.toNat ∨ 2 ^ 32 ≤ off.toNat + n.toNat
        then none
        else some (((s.node (s.icache e).inum).data.drop off.toNat).take n.toNat)) s := by
  have node := inv.node_inum live valid
  refine (readi_spec notDev (inv.extent_copy live valid) off n).mono
    (fun _ impossible => impossible) ?_
  rintro result s' ⟨rfl, rfl⟩
  refine ⟨rfl, ?_⟩
  rw [node, Node.length_data_ofDinode, take_drop_eq_map _ 0, Node.length_data_ofDinode]
  split
  · rfl
  · congr 1
    apply List.map_congr_left
    intro j member
    have bound := List.mem_range.mp member
    rw [Node.getD_data_ofDinode, if_pos (by omega)]
    rfl

end Xv6.Fs
