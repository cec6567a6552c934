import Xv6.Mkfs.Append

/-!
# The image that the program builds

Between two calls the image is at rest: the inodes on it say how long the files
are.  Allocating an inode and appending to a file keep it so, and the contents
follow the host files.
-/

namespace Xv6.Mkfs

open Stateful Fs Function

variable {img img' : Image} {ino : Nat → Dinode} {len : Nat → Nat} {i : Nat} {d : Dinode}
variable {content : Nat → List UInt8} {stop : Exit → Prop}

/-- The inodes of an image. -/
def table (img : Image) : Nat → Dinode :=
  dinode sb img.sectors

/-- The image is at rest and holds these contents. -/
structure Rest (img : Image) (content : Nat → List UInt8) : Prop where
  laid : Laid img (table img) content
  superblock : img.sectors 1 = superblock
  size : ∀ i, img.Live i → (table img i).size.toNat = (content i).length
  type : ∀ i, img.Live i → (table img i).type = if i = rootIno then tDir else tFile

/-! ## Inodes -/

theorem iblock_bounds (range : i < slots) : 1 < sb.iblock i ∧ sb.iblock i < sb.bmapstart := by
  have room : i < 208 := range
  have block : sb.iblock i = i / 8 + 32 := rfl
  have bitmap : sb.bmapstart = 58 := rfl
  omega

theorem iblock_lt_nmeta (range : i < slots) : sb.iblock i < nmeta :=
  (iblock_bounds range).2.trans (by decide)

theorem iblock_lt_fssize (range : i < slots) : sb.iblock i < fssize :=
  (iblock_lt_nmeta range).trans (by decide)

/-- The image after inode `i` has been stored. -/
def Image.withInode (img : Image) (i : Nat) (d : Dinode) : Image :=
  img.store (sb.iblock i) (Dinode.put (img.sectors (sb.iblock i)) (i % ipb) d)

theorem wp_winode {post : Unit → Image → Prop} (length : img.length = fssize) (range : i < slots) :
    Wp (winode i d) stop post img ↔ post () (img.withInode i d) := by
  have inside := iblock_lt_fssize range
  rw [winode, wp_bind, wp_rsect length inside.le, if_pos inside, wp_wsect length inside]
  rfl

theorem wp_rinode {post : Dinode → Image → Prop} (length : img.length = fssize)
    (range : i < slots) : Wp (rinode i) stop post img ↔ post (table img i) img := by
  have inside := iblock_lt_fssize range
  rw [rinode, wp_bind, wp_rsect length inside.le, if_pos inside]
  rfl

theorem table_withInode (img : Image) (i : Nat) (d : Dinode) :
    table (img.withInode i d) = update (table img) i d := by
  funext j
  refine (dinode_put sb img.sectors i d j).trans ?_
  rw [update_apply]
  rfl

theorem Image.withInode_superblock (range : i < slots) :
    (img.withInode i d).sectors 1 = img.sectors 1 :=
  img.store_of_ne (iblock_bounds range).1.ne _

section

variable (laid : Laid img ino content)
include laid

/-- Writes to the metadata leave the files alone. -/
theorem Laid.storeMeta {b : Nat} (low : b < nmeta) (data : Block) :
    Laid (img.store b data) ino content := by
  refine ⟨laid.blocks.storeMeta low data, ?_⟩
  intro j live x inFile
  have live : img.Live j := live
  have inBlocks : x / bsize < blocksOf (content j).length := by
    unfold blocksOf bsize
    omega
  obtain ⟨inside, nonzero⟩ := laid.blocks.ptr_slot live inBlocks
  have above := (laid.blocks.ptr_mem live inside nonzero).1
  have pointer : ptr (img.store b data).sectors (ino j) (slot (x / bsize)) =
      ptr img.sectors (ino j) (slot (x / bsize)) := by
    apply ptr_congr (fun _ => rfl)
    intro present
    have taken := (laid.blocks.indirect_mem live present).1
    exact update_of_ne (by omega) _ _
  rw [← laid.bytes j live x inFile]
  unfold fileByte
  rw [pointer]
  exact congrArg (Bytes.byteAt · _) (update_of_ne (by omega) _ _)

/-- Types and addresses are all that counts of the inodes. -/
theorem Laid.of_addrs {ino' : Nat → Dinode}
    (same : ∀ j < slots, (ino' j).type = (ino j).type ∧ (ino' j).addrs = (ino j).addrs) :
    Laid img ino' content := by
  have pointers : ∀ j < slots, ∀ k, ptr img.sectors (ino' j) k = ptr img.sectors (ino j) k := by
    intro j range
    refine ptr_congr (fun k => ?_) fun _ => rfl
    unfold Dinode.addr
    rw [(same j range).2]
  obtain ⟨⟨length, low, high, inodes, blank, inUse, extent, ledger⟩, bytes⟩ := laid
  have ranged : ∀ j, img.Live j → j < slots := fun j live => live.2.trans_le inodes
  constructor
  · refine ⟨length, low, high, inodes, blank, ?_, ?_, ?_⟩
    · intro j range
      rw [(same j range).1]
      exact inUse j range
    · exact fun j live => (extent j live).of_ptr (pointers j (ranged j live))
    · apply ledger.congr
      · apply holds_congr
        intro j range
        rw [(same j range).1]
        exact ⟨.rfl, fun _ => pointers j range⟩
      · exact fun _ => .rfl
  · intro j live x inFile
    rw [← bytes j live x inFile]
    unfold fileByte
    rw [pointers j (ranged j live)]

/-- A file has at most `MAXFILE` blocks. -/
theorem Laid.length_le (live : img.Live i) : (content i).length ≤ maxfile * bsize := by
  have short : blocksOf (content i).length ≤ maxfile := (laid.blocks.extent i live).short
  have whole : maxfile * bsize = 71680 := rfl
  have most : maxfile = 140 := rfl
  unfold blocksOf bsize at short
  omega

end

/-! ## `iappend` -/

/-- What `iappend` does to an image at rest. -/
structure Extended (img img' : Image) (content : Nat → List UInt8) (i : Nat)
    (p : List UInt8) : Prop where
  rest : Rest img' (update content i (content i ++ p))
  freeinode : img'.freeinode = img.freeinode
  count : img'.freeblock + blocksFor (blocksOf (content i).length) =
    img.freeblock + blocksFor (blocksOf (content i ++ p).length)

theorem Appended.rest {p : List UInt8} (appended : Appended img img' (table img) content i d p)
    (rest : Rest img content) (live : img.Live i) :
    Extended img (img'.withInode i { d with size := UInt32.ofNat (content i ++ p).length })
      content i p := by
  have sameType : d.type = (table img i).type := by
    obtain ⟨addrs, rfl⟩ := appended.addrs
    rfl
  obtain ⟨laid, -, freeinode, count, below⟩ := appended
  have live' : img'.Live i := (Image.live_congr freeinode).mpr live
  have range : i < slots := live'.2.trans_le laid.blocks.inodes
  have long := laid.length_le live'
  rw [update_self] at long
  have size : (UInt32.ofNat (content i ++ p).length).toNat = (content i ++ p).length := by
    have whole : maxfile * bsize = 71680 := rfl
    exact Nat.mod_eq_of_lt (by omega)
  have inodes : ∀ j < slots, table (img'.withInode i
      { d with size := UInt32.ofNat (content i ++ p).length }) j =
      update (table img) i
        { d with size := UInt32.ofNat (content i ++ p).length } j := by
    intro j inRange
    rw [table_withInode]
    by_cases here : j = i
    · subst here
      rw [update_self, update_self]
    · rw [update_of_ne here, update_of_ne here]
      exact congrArg (Dinode.get · _) (below _ (iblock_lt_nmeta inRange))
  have liveOf : ∀ j, img'.Live j → img.Live j ∧ j < slots := fun j live =>
    ⟨(Image.live_congr freeinode).mp live, live.2.trans_le laid.blocks.inodes⟩
  refine ⟨⟨?_, ?_, ?_, ?_⟩, freeinode, count⟩
  · apply (laid.storeMeta (iblock_lt_nmeta range) _).of_addrs
    intro j inRange
    rw [inodes j inRange]
    by_cases here : j = i
    · subst here
      rw [update_self, update_self]
      exact ⟨rfl, rfl⟩
    · rw [update_of_ne here, update_of_ne here]
      exact ⟨rfl, rfl⟩
  · rw [Image.withInode_superblock range, below 1 (by decide)]
    exact rest.superblock
  · intro j live
    obtain ⟨liveJ, inRange⟩ := liveOf j live
    rw [inodes j inRange]
    by_cases here : j = i
    · subst here
      rw [update_self, update_self]
      exact size
    · rw [update_of_ne here, update_of_ne here]
      exact rest.size j liveJ
  · intro j live
    obtain ⟨liveJ, inRange⟩ := liveOf j live
    rw [inodes j inRange, ← rest.type j liveJ]
    by_cases here : j = i
    · subst here
      rw [update_self]
      exact sameType
    · rw [update_of_ne here]

theorem iappend_spec (rest : Rest img content) (live : img.Live i) (p : List UInt8) :
    Wp (iappend i p) (Stops img (content i) p) (fun _ img' => Extended img img' content i p)
      img := by
  have range : i < slots := live.2.trans_le rest.laid.blocks.inodes
  rw [iappend, wp_bind, wp_rinode rest.laid.blocks.length range, rest.size i live]
  refine Wp.bind (iappendLoop_spec rest.laid live (Nat.le_refl _)) (fun _ => id) ?_
  rintro ⟨d, off⟩ img' ⟨rfl, appended⟩
  rw [wp_winode appended.laid.blocks.length range]
  exact appended.rest rest live

theorem Extended.trans {img'' : Image} {p q : List UInt8} (first : Extended img img' content i p)
    (second : Extended img' img'' (update content i (content i ++ p)) i q) :
    Extended img img'' content i (p ++ q) := by
  obtain ⟨-, freeinode, count⟩ := first
  obtain ⟨rest, freeinode', count'⟩ := second
  simp only [update_self, update_idem, List.append_assoc] at *
  exact ⟨rest, freeinode'.trans freeinode, by omega⟩

theorem copyChunks_spec (rest : Rest img content) (live : img.Live i) (chunks : List (List UInt8)) :
    Wp (copyChunks i chunks) (Stops img (content i) chunks.flatten)
      (fun _ img' => Extended img img' content i chunks.flatten) img := by
  induction chunks generalizing img content with
  | nil =>
    refine ⟨?_, rfl, ?_⟩
    · rw [List.flatten_nil, List.append_nil, update_eq_self]
      exact rest
    · rw [List.flatten_nil, List.append_nil]
  | cons c chunks ih =>
    rw [copyChunks, List.flatten_cons]
    refine Wp.bind (iappend_spec rest live c) (fun _ stops => stops.more _) ?_
    intro _ img' extended
    have live' : img'.Live i := (Image.live_congr extended.freeinode).mpr live
    refine (ih extended.rest live').mono ?_ ?_
    · intro reason later
      rw [update_self] at later
      exact stops_append extended.count later
    · intro _ img'' second
      exact extended.trans second

/-! ## `ialloc` -/

/-- A new inode without blocks. -/
theorem Blocks.ialloc (blocks : Blocks img ino len) (pos : 0 < img.freeinode)
    (room : img.freeinode < slots) (typed : d.type ≠ 0) (empty : ∀ k, d.addr k = 0)
    (none : len img.freeinode = 0) :
    Blocks { img with freeinode := img.freeinode + 1 } (update ino img.freeinode d)
      len := by
  have zero : ∀ k, ptr img.sectors d k = 0 := by
    intro k
    unfold ptr
    rw [empty, empty]
    simp
  obtain ⟨length, low, high, inodes, blank, inUse, extent, ledger⟩ := blocks
  refine ⟨length, low, high, room, blank, ?_, ?_, ?_⟩
  · intro j range
    by_cases here : j = img.freeinode
    · subst here
      rw [update_self]
      exact ⟨fun _ => ⟨pos, Nat.lt_succ_self _⟩, fun _ => typed⟩
    · rw [update_of_ne here, inUse j range]
      unfold Image.Live
      simp only
      omega
  · intro j live
    by_cases here : j = img.freeinode
    · subst here
      rw [update_self, none]
      refine ⟨Nat.zero_le _, fun bn _ => ?_, ?_⟩
      · simp [zero]
      · simp [empty]
    · have below := live.2
      simp only at below
      rw [update_of_ne here]
      exact extent j ⟨live.1, by omega⟩
  · apply ledger.congr
    · rintro ⟨j, k⟩
      by_cases here : j = img.freeinode
      · subst here
        have free : ¬ (ino img.freeinode).type ≠ 0 := fun used =>
          Nat.lt_irrefl _ ((inUse _ room).mp used).2
        rw [holds_eq_none (by simp [zero]), holds, if_neg (fun held => free held.2.1)]
      · unfold holds
        simp only [update_of_ne here]
    · exact fun _ => .rfl

theorem ialloc_spec (rest : Rest img content) (pos : 0 < img.freeinode)
    (room : img.freeinode < slots) (none : content img.freeinode = []) {type : UInt16}
    (kind : type = if img.freeinode = rootIno then tDir else tFile) :
    Wp (ialloc type) (fun _ => False) (fun inum img' => inum = img.freeinode ∧
      Rest img' content ∧ img'.freeinode = img.freeinode + 1 ∧
      img'.freeblock = img.freeblock) img := by
  have typed : type ≠ 0 := by
    rw [kind]
    split <;> decide
  rw [ialloc, wp_bind, wp_get, wp_bind, wp_modify, wp_bind,
    wp_winode (by exact rest.laid.blocks.length) room, wp_pure]
  have inodes : table ({ img with freeinode := img.freeinode + 1 }.withInode img.freeinode
      { Dinode.zero with type := type, nlink := 1 }) =
      update (table img) img.freeinode
        { Dinode.zero with type := type, nlink := 1 } := table_withInode _ _ _
  have old : ∀ j, j ≠ img.freeinode →
      ({ img with freeinode := img.freeinode + 1 } : Image).Live j → img.Live j := by
    intro j other live
    have below := live.2
    simp only at below
    exact ⟨live.1, by omega⟩
  refine ⟨rfl, ⟨?_, ?_, ?_, ?_⟩, rfl, rfl⟩
  · rw [inodes]
    apply Laid.storeMeta _ (iblock_lt_nmeta room)
    constructor
    · apply rest.laid.blocks.ialloc pos room typed
      · intro k
        unfold Dinode.addr
        split <;> rfl
      · simp only [none]
        rfl
    · intro j live x inFile
      by_cases here : j = img.freeinode
      · subst here
        simp [none] at inFile
      · rw [update_of_ne here]
        exact rest.laid.bytes j (old j here live) x inFile
  · rw [Image.withInode_superblock room]
    exact rest.superblock
  · intro j live
    rw [inodes]
    by_cases here : j = img.freeinode
    · subst here
      rw [update_self, none]
      rfl
    · rw [update_of_ne here]
      exact rest.size j (old j here live)
  · intro j live
    rw [inodes]
    by_cases here : j = img.freeinode
    · subst here
      rw [update_self]
      exact kind
    · rw [update_of_ne here]
      exact rest.type j (old j here live)

end Xv6.Mkfs
