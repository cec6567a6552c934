import Xv6.Fs.FlatFiles
import Xv6.Log.State

/-!
# Writing a file in transactions

`filewrite` cuts a write into chunks of `writei`.  Each chunk is a transaction, for
which `begin_op` reserves `MAXOPBLOCKS` blocks of the log.
-/

namespace Xv6.Fs

open Log (maxOpBlocks logSize)

/-- `max` of `filewrite`: the bytes of a chunk. -/
def filewriteMax : Nat :=
  (logSize - 1 - 1 - 2) / 2 * 512

variable {s s' : State} {e : Entry} {len off n : Nat} {src : Nat → UInt8}

/-- Every block of the file has a block of its own on the disk. -/
theorem Written.card_touched (written : Written s s' e len src off n) :
    ((touched off n).image fun bn => s'.ptr e (slot bn)).card = (touched off n).card := by
  apply Finset.card_image_of_injOn
  intro bn member bn' member' same
  have below {b : Nat} (member : b ∈ touched off n) : b < max len (blocksOf (off + n)) :=
    (Finset.mem_Ico.mp member).2.trans_le (le_max_right ..)
  have inside := (below member).trans_le written.extent.short
  have inside' := (below member').trans_le written.extent.short
  exact slot_inj (written.taken.working.ptr_inj (slot_lt inside') (slot_lt inside)
    ((written.extent.blocks bn' inside').mpr (below member')) same)

/-- A write logs the blocks that it touches, and at most the bitmap block, the indirect
block and the inode's block besides. -/
theorem FileWritten.footprint (written : FileWritten s s' e src off n) (bitmap : s.sb.size < bpb)
    (some : 0 < n) :
    ∃ blocks : List Nat, s'.trace = blocks.map .logWrite ++ s.trace ∧
      (touched off n).card ≤ blocks.toFinset.card ∧
      blocks.toFinset.card ≤ (touched off n).card + 3 := by
  obtain ⟨mid, written, trace⟩ := written.log
  obtain ⟨new, logged, within, all⟩ := written.log
  have oneBlock : s.sb.dataStart = s.sb.bmapstart + 1 := by
    rw [Superblock.dataStart, Nat.div_eq_of_lt bitmap]
  let inode := s.sb.iblock (s.icache e).inum
  refine ⟨(if (s.icache e).copy.size.toNat < off + n then [inode] else []) ++ new, ?_, ?_, ?_⟩
  · rw [trace, logged, List.map_append, List.append_assoc]
    split <;> rfl
  · rw [← written.card_touched]
    apply Finset.card_le_card
    intro x member
    obtain ⟨bn, inside, rfl⟩ := Finset.mem_image.mp member
    simp [all some bn inside]
  · rw [← written.card_touched]
    refine (Finset.card_le_card ?_).trans ((Finset.card_union_le _
      {inode, s.sb.bmapstart, mid.ptr e ndirect}).trans
        (Nat.add_le_add_left Finset.card_le_three _))
    intro x member
    simp only [Finset.mem_union, Finset.mem_image, Finset.mem_insert, Finset.mem_singleton]
    rcases List.mem_append.mp (List.mem_toFinset.mp member) with isInode | member
    · split at isInode <;> simp_all
    · rcases within x member with ⟨low, high⟩ | ⟨-, k, rfl | ⟨bn, inside, rfl⟩, rfl⟩
      · rw [written.taken.sb] at low high
        omega
      · exact .inr (.inr (.inr rfl))
      · exact .inl ⟨bn, inside, rfl⟩

/-- On a disk with one bitmap block a write of at most 1536 bytes stays within the
reservation of a transaction, and every full chunk of `filewrite` exceeds it. -/
theorem writei_footprint (inv : FsInv s) (ready : Ready s e) (bitmap : s.sb.size < bpb)
    {off n : UInt32} {k : Nat} (done : (writei e src off n).run s = .ok (some k, s'))
    (positive : 0 < n.toNat) :
    ∃ blocks : List Nat, s'.trace = blocks.map .logWrite ++ s.trace ∧
      ((touched off.toNat n.toNat).card ≤ blocks.toFinset.card ∧
        blocks.toFinset.card ≤ (touched off.toNat n.toNat).card + 3) ∧
      (n.toNat ≤ (maxOpBlocks - 1 - 1 - 2) / 2 * 512 → blocks.toFinset.card ≤ maxOpBlocks) ∧
      (n.toNat = filewriteMax → maxOpBlocks < blocks.toFinset.card) := by
  have spec := (writei_spec inv ready.live ready.valid ready.notDev src off n).ok done
  split at spec
  · cases spec.1
  · obtain ⟨blocks, trace, least, most⟩ := spec.2.footprint bitmap positive
    refine ⟨blocks, trace, ⟨least, most⟩, ?_⟩
    rw [touched, Nat.card_Ico, blocksOf, bsize] at least most
    unfold filewriteMax logSize maxOpBlocks
    omega

/-- A full chunk at the start of the empty file of a fresh image. -/
theorem writei_footprint_chunk : ∃ (s' : State) (blocks : List Nat),
    (writei 0 (fun _ => 7) 0 6656).run (Image.state Image.icache) = .ok (some 6656, s') ∧
      s'.trace = blocks.map .logWrite ++ (Image.state Image.icache).trace ∧
      maxOpBlocks < blocks.toFinset.card := by
  have ready : Ready (Image.state Image.icache) 0 :=
    ⟨show 0 < 1 by decide, rfl, show tFile ≠ tDev by decide⟩
  have bitmap : Image.sb.size < bpb := by
    rw [bpb]
    decide
  obtain ⟨result, s', done, spec⟩ := (writei_spec Image.fsInv_icache ready.live ready.valid
    ready.notDev (fun _ => 7) 0 6656).returns_of (by
      rintro _ ⟨-, -, few⟩
      rw [Image.freeCount] at few
      exact absurd few (by decide))
  rw [if_neg (by decide)] at spec
  rw [spec.1] at done
  obtain ⟨blocks, trace, -, -, exceeds⟩ :=
    writei_footprint Image.fsInv_icache ready bitmap done (by decide)
  exact ⟨s', blocks, done, trace, exceeds rfl⟩

end Xv6.Fs
