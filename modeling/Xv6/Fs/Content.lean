import Xv6.Fs.Growth

/-!
# Reading and writing the content of a file

The bytes of a file are scattered over its blocks.  `readi` collects them without
changing anything, and `writei` changes the bytes of the range that it is given,
extends the file where the range goes beyond its end, and leaves all other files
alone.
-/

namespace Xv6.Fs

open Stateful Function

variable {s s' : State} {e : Entry} {len : Nat}

/-- The number of blocks that hold the first `n` bytes of a file. -/
def blocksOf (n : Nat) : Nat :=
  (n + bsize - 1) / bsize

theorem blocksOf_mono {n n' : Nat} (le : n ≤ n') : blocksOf n ≤ blocksOf n' :=
  Nat.div_le_div_right (by omega)

/-- Byte `x` of the file of an inode. -/
def fileByte (disk : Nat → Block) (d : Dinode) (x : Nat) : UInt8 :=
  Bytes.byteAt (disk (ptr disk d (slot (x / bsize)))) (x % bsize)

/-- Byte `x` of the file in entry `e`. -/
def State.byte (s : State) (e : Entry) (x : Nat) : UInt8 :=
  fileByte s.disk (s.icache e).copy x

/-! ## A write to a data block -/

@[simp]
theorem State.write_icache (s : State) (b : Nat) (data : Block) :
    (s.write b data).icache = s.icache := rfl

/-- The content of a block of the file is replaced. -/
theorem Working.writeData (working : Working s e) {k : Nat} (inside : k < nslots)
    (notIndirect : k ≠ ndirect) (nonzero : s.ptr e k ≠ 0) (data : Block) :
    Taken s (s.write (s.ptr e k) data) e 0 ∧
      ∀ l, (s.write (s.ptr e k) data).ptr e l = s.ptr e l := by
  have held := working.held inside nonzero
  obtain ⟨mounted, range, inUse, owned⟩ := working
  have typed : (s.inodes e (s.icache e).inum).type ≠ 0 := by rwa [s.inodes_self]
  have low := held.1.1
  have between := s.sb.bmapstart_lt_dataStart
  -- a block is stored in one place only
  have indirect : ∀ j < s.sb.ninodes, (s.inodes e j).type ≠ 0 →
      (s.inodes e j).addr ndirect ≠ 0 →
      (s.write (s.ptr e k) data).disk ((s.inodes e j).addr ndirect) =
        s.disk ((s.inodes e j).addr ndirect) := by
    intro j inRange type present
    refine update_of_ne ?_ _ _
    intro same
    have equal := owned.ptr_inj (k := k) (l := ndirect) range inRange typed type inside (by decide)
      (by rwa [s.inodes_self]) (by rw [s.inodes_self, ptr_ndirect, same]; rfl)
    exact notIndirect equal.2.symm
  have pointers : ∀ l, (s.write (s.ptr e k) data).ptr e l = s.ptr e l := by
    intro l
    refine ptr_congr (fun _ => rfl) ?_ l
    have kept := indirect _ range typed
    rw [s.inodes_self] at kept
    exact kept
  have bits : ∀ x ≤ s.sb.size, (s.write (s.ptr e k) data).used x = s.used x := by
    intro x bound
    have elsewhere : s.ptr e k ≠ s.sb.bblock x := by
      have bitmap := (Superblock.isBitmap_bblock bound).2
      omega
    exact used_update_of_ne elsewhere
  have blocks : ∀ j < s.sb.ninodes, (s.write (s.ptr e k) data).inodes e j = s.inodes e j := by
    intro j inRange
    have inodes := s.inodes_eq_update (s.write (s.ptr e k) data) e rfl rfl (by
      intro j inRange
      have below := mounted.ordered.iblock_lt_dataStart inRange
      exact update_of_ne (by omega) _ _) j inRange
    rw [inodes]
    unfold State.inodes
    simp
  refine ⟨?_, pointers⟩
  constructor
  · refine ⟨?_, range, inUse, ?_⟩
    · refine mounted.congr rfl ?_
      have pos := mounted.ordered.bmapstart_pos
      exact update_of_ne (by omega) _ _
    · refine owned.congr (fun x bound => bits x bound.le) indirect mounted.ordered.data ?_ ?_
      · intro j inRange
        rw [blocks j inRange]
      · intro j inRange _ l
        rw [blocks j inRange]
  · rfl
  · rfl
  · exact ⟨(s.icache e).copy.addrs, (update_eq_self e s.icache).symm⟩
  · exact fun l _ _ => pointers l
  · intro l _ zero nonzero
    rw [pointers] at nonzero
    exact absurd zero nonzero
  · intro x foreign
    refine update_of_ne ?_ _ _
    rintro rfl
    exact foreign.notOwn low k inside rfl
  · intro x bound set
    rwa [bits x bound.le]
  · exact State.freeCount_congr rfl fun x bound => bits x (le_of_lt bound)

/-! ## `readi` -/

variable {off bn x : Nat} {src : Nat → UInt8}

/-- Consecutive bytes within one block. -/
theorem byteAt_block (s : State) (e : Entry) {j : Nat} (within : off % bsize + j < bsize) :
    Bytes.byteAt (s.disk (s.ptr e (slot (off / bsize)))) (off % bsize + j) =
      s.byte e (off + j) := by
  have block : (off + j) / bsize = off / bsize := by
    unfold bsize at within ⊢
    omega
  have position : (off + j) % bsize = off % bsize + j := by
    unfold bsize at within ⊢
    omega
  rw [State.byte, fileByte, block, position]
  rfl

/-- The loop of `readi` collects the bytes of the range and changes nothing. -/
theorem readiLoop_spec (extent : Extent s.disk (s.icache e).copy len) {turns left : Nat}
    (enough : left ≤ turns) (inside : off + left ≤ len * bsize) :
    Wp (readiLoop e turns left off) (fun _ => False)
      (fun bytes s' => s' = s ∧ bytes = (List.range left).map fun j => s.byte e (off + j)) s := by
  induction turns generalizing left off with
  | zero =>
    obtain rfl : left = 0 := by omega
    exact ⟨rfl, rfl⟩
  | succ turns ih =>
    rw [readiLoop]
    split
    · rename_i done
      subst done
      exact ⟨rfl, rfl⟩
    · rename_i more
      have present : off / bsize < len := by
        unfold bsize at inside ⊢
        omega
      refine Wp.bind (bmap_present extent present) (fun _ impossible => impossible) ?_
      rintro b s' ⟨rfl, rfl⟩
      rw [wp_bind, wp_bread]
      have step : 0 < min left (bsize - off % bsize) := by
        unfold bsize
        omega
      refine Wp.bind (ih ?_ ?_) (fun _ impossible => impossible) ?_
      · omega
      · omega
      · rintro rest s'' ⟨rfl, rfl⟩
        refine ⟨rfl, ?_⟩
        have split : left = min left (bsize - off % bsize) +
            (left - min left (bsize - off % bsize)) := by omega
        conv_rhs => rw [split, List.range_add, List.map_append, List.map_map]
        congr 1
        · apply List.map_congr_left
          intro j member
          have bound := List.mem_range.mp member
          exact byteAt_block s'' e (by omega)
        · apply List.map_congr_left
          intro j _
          simp only [Function.comp, Nat.add_assoc]

/-- The sum of two 32-bit numbers wraps. -/
theorem add_lt_left_iff (x y : UInt32) : x + y < x ↔ 2 ^ 32 ≤ x.toNat + y.toNat := by
  have boundX := x.toNat_lt
  have boundY := y.toNat_lt
  rw [UInt32.lt_iff_toNat_lt, UInt32.toNat_add]
  omega

/-- `readi` on a file that has the blocks of the range: an error, or the bytes of the
range up to the end of the file. -/
theorem readi_within (notDev : (s.icache e).copy.type ≠ tDev)
    (extent : Extent s.disk (s.icache e).copy len) (off n : UInt32)
    (inside : off.toNat ≤ (s.icache e).copy.size.toNat → off.toNat +
      min n.toNat ((s.icache e).copy.size.toNat - off.toNat) ≤ len * bsize) :
    Wp (readi e off n) (fun _ => False)
      (fun result s' => s' = s ∧ result =
        if (s.icache e).copy.size.toNat < off.toNat ∨ 2 ^ 32 ≤ off.toNat + n.toNat then none
        else some ((List.range (min n.toNat ((s.icache e).copy.size.toNat - off.toNat))).map
          fun j => s.byte e (off.toNat + j))) s := by
  have bad : (off > (s.icache e).copy.size ∨ off + n < off) ↔
      ((s.icache e).copy.size.toNat < off.toNat ∨ 2 ^ 32 ≤ off.toNat + n.toNat) := by
    rw [add_lt_left_iff, gt_iff_lt, UInt32.lt_iff_toNat_lt]
  simp only [readi, wp_bind, wp_get, if_neg notDev, bad]
  split
  · exact ⟨rfl, rfl⟩
  · rename_i good
    have count : (if off + n > (s.icache e).copy.size then (s.icache e).copy.size - off
        else n).toNat = min n.toNat ((s.icache e).copy.size.toNat - off.toNat) := by
      have sum : (off + n).toNat = off.toNat + n.toNat := by
        rw [UInt32.toNat_add]
        omega
      have difference : ((s.icache e).copy.size - off).toNat =
          (s.icache e).copy.size.toNat - off.toNat :=
        UInt32.toNat_sub_of_le _ _ (UInt32.le_iff_toNat_le.mpr (by omega))
      split
      · rename_i beyond
        rw [gt_iff_lt, UInt32.lt_iff_toNat_lt, sum] at beyond
        rw [difference]
        omega
      · rename_i within
        rw [gt_iff_lt, UInt32.lt_iff_toNat_lt, sum] at within
        omega
    rw [wp_bind, count]
    refine (readiLoop_spec extent (Nat.le_refl _) (inside (by omega))).mono (fun _ no => no) ?_
    rintro bytes s' ⟨rfl, rfl⟩
    exact ⟨rfl, rfl⟩

/-- `readi` on a file that has all its blocks. -/
theorem readi_spec (notDev : (s.icache e).copy.type ≠ tDev)
    (extent : Extent s.disk (s.icache e).copy (blocksOf (s.icache e).copy.size.toNat))
    (off n : UInt32) :
    Wp (readi e off n) (fun _ => False)
      (fun result s' => s' = s ∧ result =
        if (s.icache e).copy.size.toNat < off.toNat ∨ 2 ^ 32 ≤ off.toNat + n.toNat then none
        else some ((List.range (min n.toNat ((s.icache e).copy.size.toNat - off.toNat))).map
          fun j => s.byte e (off.toNat + j))) s := by
  apply readi_within notDev extent
  unfold blocksOf bsize
  omega

/-! ## `writei` -/

/-- The blocks of a file that bytes `off` to `off + n` are in. -/
def touched (off n : Nat) : Finset Nat :=
  .Ico (off / bsize) (blocksOf (off + n))

/-- Their slots, and the slot of the indirect block. -/
def touchedSlots (off n : Nat) : Set Nat :=
  insert ndirect (slot '' touched off n)

theorem State.Within.imp {slots slots' : Set Nat} {new : List Nat} (within : s.Within e slots new)
    (sb : s'.sb = s.sb) (kept : ∀ k ∈ slots, s.ptr e k ≠ 0 → k ∈ slots' ∧ s'.ptr e k = s.ptr e k) :
    s'.Within e slots' new := by
  intro x member
  rcases within x member with bitmap | ⟨nonzero, k, inside, rfl⟩
  · exact .inl (by rwa [sb])
  · obtain ⟨inside', same⟩ := kept k inside nonzero
    exact .inr ⟨nonzero, k, inside', same.symm⟩

/-- Bytes `off` to `off + n` of the file have been written. -/
structure Written (s s' : State) (e : Entry) (len : Nat) (src : Nat → UInt8) (off n : Nat) :
    Prop where
  taken : Taken s s' e (blocksFor (max len (blocksOf (off + n))) - blocksFor len)
  extent : Extent s'.disk (s'.icache e).copy (max len (blocksOf (off + n)))
  inside : ∀ x, off ≤ x → x < off + n → s'.byte e x = src (x - off)
  outside : ∀ x, x / bsize < len → x < off ∨ off + n ≤ x → s'.byte e x = s.byte e x
  log : ∃ new, Logged s s' new ∧ s'.Within e (touchedSlots off n) new ∧
    (0 < n → ∀ bn ∈ touched off n, s'.ptr e (slot bn) ∈ new)

/-- Nothing is left to be written. -/
theorem Written.refl (working : Working s e) (extent : Extent s.disk (s.icache e).copy len)
    (src : Nat → UInt8) (bound : blocksOf off ≤ len) : Written s s e len src off 0 := by
  have same : max len (blocksOf (off + 0)) = len := by
    rw [Nat.add_zero]
    omega
  constructor
  · rw [same, Nat.sub_self]
    exact Taken.refl working
  · rw [same]
    exact extent
  · omega
  · exact fun _ _ _ => rfl
  · exact ⟨[], rfl, by rintro _ ⟨⟩, by omega⟩

/-- The bytes of a block of the file that has been replaced. -/
theorem Working.byte_write (working : Working s e) (inside : bn < maxfile)
    (nonzero : s.ptr e (slot bn) ≠ 0) (data : Block) (bound : x / bsize < maxfile) :
    (s.write (s.ptr e (slot bn)) data).byte e x =
      if x / bsize = bn then Bytes.byteAt data (x % bsize) else s.byte e x := by
  have pointers := (working.writeData (slot_lt inside) (slot_ne_ndirect bn) nonzero data).2
  have unfolded : (s.write (s.ptr e (slot bn)) data).byte e x = Bytes.byteAt
      ((s.write (s.ptr e (slot bn)) data).disk
        ((s.write (s.ptr e (slot bn)) data).ptr e (slot (x / bsize)))) (x % bsize) := rfl
  rw [unfolded, pointers]
  split
  · rename_i same
    rw [same]
    congr 1
    exact update_self ..
  · rename_i other
    have different : s.ptr e (slot (x / bsize)) ≠ s.ptr e (slot bn) := by
      intro same
      exact other (slot_inj (working.ptr_inj (slot_lt inside) (slot_lt bound) nonzero same))
    congr 1
    exact update_of_ne different ..

/-- Content that `bmap` leaves alone. -/
theorem Mapped.byte {b : Nat} (mapped : Mapped s s' e len bn b)
    (extent : Extent s.disk (s.icache e).copy len) (bound : x / bsize < len) :
    s'.byte e x = s.byte e x := by
  have inside : x / bsize < maxfile := bound.trans_le extent.short
  have nonzero : s.ptr e (slot (x / bsize)) ≠ 0 := (extent.blocks _ inside).mpr bound
  have kept := mapped.taken.kept _ (slot_lt inside) nonzero
  have content := mapped.content _ (slot_lt inside) (slot_ne_ndirect _) nonzero
  have unfolded : s'.byte e x =
      Bytes.byteAt (s'.disk (s'.ptr e (slot (x / bsize)))) (x % bsize) := rfl
  rw [unfolded, kept, content]
  rfl

/-- One turn of the loop: the part of the range in block `bn`. -/
theorem Mapped.write {b m : Nat} (mapped : Mapped s s' e len (off / bsize) b)
    (extent : Extent s.disk (s.icache e).copy len) (bound : blocksOf off ≤ len)
    (inside : off / bsize < maxfile) (some : 0 < m) (within : m ≤ bsize - off % bsize)
    (src : Nat → UInt8) :
    Written s (s'.write b (Bytes.copyIn (s'.disk b) (off % bsize) m src)) e len src off m := by
  have last : blocksOf (off + m) = off / bsize + 1 := by
    unfold blocksOf bsize at *
    omega
  have reached : off / bsize ≤ len := by
    unfold blocksOf bsize at *
    omega
  have working := mapped.taken.working
  have result := mapped.result
  have nonzero : s'.ptr e (slot (off / bsize)) ≠ 0 :=
    (mapped.extent.blocks _ inside).mpr (by omega)
  subst result
  obtain ⟨taken, pointers⟩ := working.writeData (slot_lt inside) (slot_ne_ndirect _) nonzero
    (Bytes.copyIn (s'.disk (s'.ptr e (slot (off / bsize)))) (off % bsize) m src)
  have bytes := fun x => working.byte_write inside nonzero (x := x)
    (Bytes.copyIn (s'.disk (s'.ptr e (slot (off / bsize)))) (off % bsize) m src)
  constructor
  · rw [last]
    exact mapped.taken.trans taken
  · rw [last]
    refine ⟨mapped.extent.short, fun bn below => ?_, mapped.extent.indirect⟩
    rw [← mapped.extent.blocks bn below]
    exact .of_eq (congrArg (· ≠ 0) (pointers (slot bn)))
  · intro x low high
    have block : x / bsize = off / bsize := by
      unfold bsize at *
      omega
    rw [bytes x (by rwa [block]), if_pos block, Bytes.byteAt_copyIn_of_mem]
    · congr 1
      unfold bsize at *
      omega
    · unfold bsize at *
      omega
    · unfold bsize at *
      omega
    · exact Nat.mod_lt x (by decide)
  · intro x below outside
    rw [bytes x (below.trans_le extent.short)]
    split
    · rename_i block
      have same : s' = s := mapped.present (by rwa [← block])
      subst same
      rw [Bytes.byteAt_copyIn_of_notMem (by unfold bsize at *; omega), ← block]
      rfl
    · exact mapped.byte extent below
  · obtain ⟨new, logged, within⟩ := mapped.log
    have only : touched off m = {off / bsize} := by
      rw [touched, last, Nat.Ico_succ_singleton]
    refine ⟨s'.ptr e (slot (off / bsize)) :: new, congrArg _ logged, ?_, ?_⟩
    · refine List.forall_mem_cons.mpr ⟨.inr ⟨nonzero, _, .inr ⟨_, ?_, rfl⟩, (pointers _).symm⟩,
        within.imp rfl fun k inside _ => ⟨?_, pointers k⟩⟩
      · simp [only]
      · simpa [touchedSlots, only] using inside
    · intro _ bn member
      rw [only, Finset.mem_singleton] at member
      rw [member, pointers]
      exact List.mem_cons_self

/-- Two parts of a range, one after the other. -/
theorem Written.trans {s'' : State} {m n : Nat} (first : Written s s' e len src off m)
    (second : Written s' s'' e (max len (blocksOf (off + m))) (fun j => src (j + m)) (off + m)
      (n - m)) (positive : 0 < m) (part : m ≤ n) : Written s s'' e len src off n := by
  have total : off + m + (n - m) = off + n := by omega
  have le : blocksOf (off + m) ≤ blocksOf (off + n) := blocksOf_mono (by omega)
  have lens : max (max len (blocksOf (off + m))) (blocksOf (off + m + (n - m))) =
      max len (blocksOf (off + n)) := by
    rw [total]
    omega
  have costs := blocksFor_mono (le_max_left len (blocksOf (off + m)))
  have costs' := blocksFor_mono (show max len (blocksOf (off + m)) ≤ max len (blocksOf (off + n)) by
    omega)
  have taken' := second.taken
  have extent' := second.extent
  rw [lens] at taken' extent'
  have present : ∀ {bn : Nat}, bn < blocksOf (off + m) →
      slot bn < nslots ∧ s'.ptr e (slot bn) ≠ 0 := by
    intro bn below
    have short := first.extent.short
    have inside : bn < maxfile := by omega
    exact ⟨slot_lt inside, (first.extent.blocks bn inside).mpr (by omega)⟩
  constructor
  · have whole := first.taken.trans taken'
    rwa [show blocksFor (max len (blocksOf (off + m))) - blocksFor len +
      (blocksFor (max len (blocksOf (off + n))) - blocksFor (max len (blocksOf (off + m)))) =
      blocksFor (max len (blocksOf (off + n))) - blocksFor len by omega] at whole
  · exact extent'
  · intro x low high
    by_cases before : x < off + m
    · have written := first.inside x low before
      rw [second.outside x ?_ (.inl before), written]
      have below : x / bsize < blocksOf (off + m) := by
        unfold blocksOf bsize
        omega
      omega
    · rw [second.inside x (by omega) (by omega)]
      congr 1
      omega
  · intro x below outside
    rw [second.outside x (by omega) (by omega), first.outside x below (by omega)]
  · obtain ⟨new, logged, within, blocks⟩ := first.log
    obtain ⟨new', logged', within', blocks'⟩ := second.log
    have early : touched off m ⊆ touched off n := Finset.Ico_subset_Ico_right le
    have late : touched (off + m) (n - m) ⊆ touched off n := by
      rw [touched, total]
      exact Finset.Ico_subset_Ico_left (Nat.div_le_div_right (by omega))
    refine ⟨new' ++ new, ?_, List.forall_mem_append.mpr ⟨?_, ?_⟩, ?_⟩
    · unfold Logged at logged logged' ⊢
      rw [logged', logged, List.map_append, List.append_assoc]
    · refine within'.imp rfl fun k inside _ => ⟨?_, rfl⟩
      exact Set.insert_subset_insert (Set.image_mono late) inside
    · refine within.imp taken'.sb fun k inside nonzero => ⟨?_, taken'.kept k ?_ nonzero⟩
      · exact Set.insert_subset_insert (Set.image_mono early) inside
      · rcases inside with rfl | ⟨bn, member, rfl⟩
        · decide
        · exact (present (Finset.mem_Ico.mp member).2).1
    · intro some bn member
      by_cases earlier : bn < blocksOf (off + m)
      · obtain ⟨inside, nonzero⟩ := present earlier
        rw [taken'.kept _ inside nonzero]
        exact List.mem_append_right _ (blocks positive bn
          (Finset.mem_Ico.mpr ⟨(Finset.mem_Ico.mp member).1, earlier⟩))
      · have high := (Finset.mem_Ico.mp member).2
        have later : off + m < off + n := by
          by_contra equal
          rw [show off + n = off + m by omega] at high
          exact earlier high
        refine List.mem_append_left _ (blocks' (by omega) bn (Finset.mem_Ico.mpr
          ⟨?_, by rwa [total]⟩))
        unfold blocksOf bsize at *
        omega

/-- The loop of `writei`. -/
theorem writeiLoop_spec (working : Working s e) (extent : Extent s.disk (s.icache e).copy len)
    {turns left : Nat} (enough : left ≤ turns) (bound : blocksOf off ≤ len)
    (inside : off + left ≤ maxfile * bsize) :
    Wp (writeiLoop e turns src left off)
      (fun reason => reason = .outOfBlocks ∧
        s.freeCount + blocksFor len < blocksFor (max len (blocksOf (off + left))))
      (fun last s' => last = off + left ∧ Written s s' e len src off left) s := by
  induction turns generalizing s len left off src with
  | zero =>
    obtain rfl : left = 0 := by omega
    exact ⟨rfl, Written.refl working extent src bound⟩
  | succ turns ih =>
    rw [writeiLoop]
    split
    · rename_i done
      subst done
      exact ⟨rfl, Written.refl working extent src bound⟩
    · rename_i more
      have reached : off / bsize ≤ len := by
        unfold blocksOf bsize at *
        omega
      have block : off / bsize < maxfile := by
        unfold bsize at *
        omega
      have next : off / bsize + 1 ≤ blocksOf (off + left) := by
        unfold blocksOf bsize
        omega
      have step : 0 < min left (bsize - off % bsize) := by
        unfold bsize
        omega
      refine Wp.bind (bmap_spec working extent reached block) ?_ ?_
      · rintro reason ⟨rfl, starved⟩
        refine ⟨rfl, starved.trans_le (blocksFor_mono ?_)⟩
        omega
      · intro b s' mapped
        simp only [wp_bind, wp_bread, wp_logWrite]
        have first := mapped.write extent bound block step (Nat.min_le_right ..) src
        have room := first.taken.count
        have costs := blocksFor_mono
          (le_max_left len (blocksOf (off + min left (bsize - off % bsize))))
        have total : off + min left (bsize - off % bsize) +
            (left - min left (bsize - off % bsize)) = off + left := by omega
        have shorter : blocksOf (off + min left (bsize - off % bsize)) ≤ blocksOf (off + left) :=
          blocksOf_mono (by omega)
        refine (ih first.taken.working first.extent ?_ (le_max_right ..) ?_).mono ?_ ?_
        · omega
        · omega
        · rintro reason ⟨rfl, starved⟩
          rw [total, max_assoc, max_eq_right shorter] at starved
          exact ⟨rfl, by omega⟩
        · rintro last s'' ⟨rfl, second⟩
          exact ⟨total, first.trans second step (Nat.min_le_left ..)⟩

end Xv6.Fs
