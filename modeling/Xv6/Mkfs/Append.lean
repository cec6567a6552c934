import Xv6.Mkfs.Blocks

/-!
# Appending to a file

`iappend` puts bytes at the end of a file, in the last block where there is room
and then in new blocks.  The blocks stay as they should be, the bytes of all files
stay, and the program stops only when the file gets too long or the image is full.
-/

namespace Xv6.Mkfs

open Stateful Fs Function

variable {img img' : Image} {ino : Nat → Dinode} {len : Nat → Nat} {i bn : Nat} {d : Dinode}
variable {content : Nat → List UInt8} {stop : Exit → Prop}

/-! ## Sectors -/

variable {sec j : Nat} {source : Nat → UInt8} {reason : Exit}

theorem seek_eq (small : sec ≤ fssize) : seek sec = sec := by
  rw [fssize_eq] at small
  unfold seek bsize
  omega

theorem wp_rsect {post : Block → Image → Prop} (length : img.length = fssize)
    (small : sec ≤ fssize) : Wp (rsect sec) stop post img ↔
      if sec < fssize then post (img.sectors sec) img else stop .perror := by
  rw [rsect, wp_bind, wp_get, seek_eq small, length]
  split <;> rfl

theorem wp_wsect {post : Unit → Image → Prop} {buf : Block} (length : img.length = fssize)
    (inside : sec < fssize) : Wp (wsect sec buf) stop post img ↔ post () (img.store sec buf) := by
  have same : max img.length (sec + 1) = img.length := by omega
  rw [wsect, wp_modify, seek_eq inside.le, same]
  rfl

theorem wp_nextBlock {post : Nat → Image → Prop} : Wp nextBlock stop post img ↔
    post img.freeblock { img with freeblock := img.freeblock + 1 } := Iff.rfl

/-! ## The block of the next byte -/

/-- There are not enough blocks for the next block of inode `i`. -/
def Starved (img : Image) (n : Nat) : Prop :=
  fssize + blocksFor n < img.freeblock + blocksFor (n + 1)

theorem blockFor_present (blocks : Blocks img ino len) (live : img.Live i) (bound : bn < len i) :
    Wp (blockFor (ino i) bn) (fun _ => False)
      (fun r img' => img' = img ∧ r = (ino i, ptr img.sectors (ino i) (slot bn))) img := by
  have extent := blocks.extent i live
  have nonzero := (blocks.ptr_slot live bound).2
  unfold blockFor
  by_cases direct : bn < ndirect
  · rw [ptr_slot_of_lt direct] at nonzero ⊢
    rw [if_pos direct, if_neg nonzero]
    exact ⟨rfl, rfl⟩
  · have present : (ino i).addr ndirect ≠ 0 := extent.indirect.mpr (by omega)
    have member := blocks.indirect_mem live present
    have inside : (ino i).addr ndirect < fssize := member.2.trans_le blocks.high
    rw [ptr_slot_of_ge (by omega), if_neg present] at nonzero ⊢
    rw [if_neg direct, if_neg present, wp_bind, wp_pure, wp_bind,
      wp_rsect blocks.length inside.le, if_pos inside, if_neg nonzero]
    exact ⟨rfl, rfl⟩

theorem blockFor_new (blocks : Blocks img ino len) (live : img.Live i) (inside : len i < maxfile) :
    Wp (blockFor (ino i) (len i)) (fun reason => reason = .perror ∧ Starved img (len i))
      (fun r img' => Grown img img' ino len i r.1 r.2 ∨
        r.2 = fssize ∧ img'.length = fssize ∧ Starved img (len i)) img := by
  have extent := blocks.extent i live
  have high := blocks.high
  have absent := extent.vacant inside
  have length : ({ img with freeblock := img.freeblock + 1 } : Image).length = fssize :=
    blocks.length
  have starved : img.freeblock = fssize → Starved img (len i) := by
    intro full
    have more := blocksFor_lt_succ (len i)
    unfold Starved
    omega
  unfold blockFor
  by_cases direct : len i < ndirect
  · rw [ptr_slot_of_lt direct] at absent
    rw [if_pos direct, if_pos absent, wp_bind, wp_nextBlock, wp_pure]
    by_cases room : img.freeblock < fssize
    · exact .inl (blocks.growDirect live direct room)
    · have full : img.freeblock = fssize := by omega
      exact .inr ⟨full, blocks.length, starved full⟩
  · rw [if_neg direct]
    by_cases exact : len i = ndirect
    · have vacant : (ino i).addr ndirect = 0 := by
        by_contra present
        have behind := extent.indirect.mp present
        omega
      have addr : ((ino i).setAddr ndirect img.freeblock).addr ndirect = img.freeblock := by
        rw [Dinode.addr_setAddr (by decide) (by rw [fssize_eq] at high; omega), if_pos rfl]
      rw [if_pos vacant, wp_bind, wp_nextBlock, wp_bind, wp_pure, wp_bind, addr,
        wp_rsect length high]
      by_cases room : img.freeblock < fssize
      · have zero : img.sectors img.freeblock = fun _ => 0 :=
          blocks.blank _ (Nat.le_refl _) room
        have word : (img.sectors img.freeblock).word 0 = 0 := by
          rw [zero]
          exact Bytes.readLE_zero _ _
        rw [if_pos room]
        simp only [exact, Nat.sub_self]
        rw [if_pos word, wp_bind, wp_nextBlock, wp_bind, wp_wsect (by exact blocks.length) room,
          wp_pure]
        by_cases room' : img.freeblock + 1 < fssize
        · exact .inl (blocks.growBoth live exact room')
        · refine .inr ⟨by simp only; omega, blocks.length, ?_⟩
          unfold Starved blocksFor
          rw [if_neg (by omega), if_pos (by omega)]
          omega
      · rw [if_neg room]
        exact ⟨rfl, starved (by omega)⟩
    · have behind : ndirect < len i := by omega
      have present := extent.indirect.mpr behind
      have member := blocks.indirect_mem live present
      have bound : (ino i).addr ndirect < fssize := member.2.trans_le blocks.high
      have word := extent.vacant_word behind inside
      rw [if_neg present, wp_bind, wp_pure, wp_bind, wp_rsect blocks.length bound.le,
        if_pos bound, if_pos word, wp_bind, wp_nextBlock, wp_bind, wp_wsect length bound,
        wp_pure]
      by_cases room : img.freeblock < fssize
      · exact .inl (blocks.growWord live behind inside room)
      · have full : img.freeblock = fssize := by omega
        exact .inr ⟨full, blocks.length, starved full⟩

/-! ## One piece -/

/-- The image holds these contents: file `i` has the blocks for `content i`, and its
bytes are there. -/
structure Laid (img : Image) (ino : Nat → Dinode) (content : Nat → List UInt8) : Prop where
  blocks : Blocks img ino fun i => blocksOf (content i).length
  bytes : ∀ i, img.Live i → ∀ x < (content i).length,
    fileByte img.sectors (ino i) x = (content i).getD x 0

/-- The next byte of file `i`, whose inode is now `d`, goes to block `b`. -/
structure Found (img img' : Image) (ino : Nat → Dinode) (content : Nat → List UInt8) (i : Nat)
    (d : Dinode) (b : Nat) : Prop where
  blocks : Blocks img' (update ino i d)
    (update (fun j => blocksOf (content j).length) i ((content i).length / bsize + 1))
  address : b = ptr img'.sectors d (slot ((content i).length / bsize))
  addrs : ∃ addrs, d = { ino i with addrs := addrs }
  freeinode : img'.freeinode = img.freeinode
  count : img'.freeblock + blocksFor (blocksOf (content i).length) =
    img.freeblock + blocksFor ((content i).length / bsize + 1)
  kept : ∀ j, img.Live j → ∀ bn < blocksOf (content j).length,
    ptr img'.sectors (update ino i d j) (slot bn) = ptr img.sectors (ino j) (slot bn) ∧
      img'.sectors (ptr img.sectors (ino j) (slot bn)) =
        img.sectors (ptr img.sectors (ino j) (slot bn))
  below : ∀ b < nmeta, img'.sectors b = img.sectors b

theorem blocksOf_eq (n : Nat) :
    blocksOf n = n / bsize ∧ n % bsize = 0 ∨ blocksOf n = n / bsize + 1 ∧ 0 < n % bsize := by
  unfold blocksOf bsize
  omega

theorem lengths_update (content : Nat → List UInt8) (i : Nat) (c : List UInt8) :
    (fun j => blocksOf (update content i c j).length) =
      update (fun j => blocksOf (content j).length) i (blocksOf c.length) := by
  funext j
  exact apply_update (fun _ c => blocksOf c.length) content i c j

/-- A file that ends within a block has room there. -/
theorem Blocks.found_present (blocks : Blocks img ino fun j => blocksOf (content j).length)
    (within : blocksOf (content i).length = (content i).length / bsize + 1) :
    Found img img ino content i (ino i)
      (ptr img.sectors (ino i) (slot ((content i).length / bsize))) := by
  constructor
  · have same : update (fun j => blocksOf (content j).length) i
        ((content i).length / bsize + 1) = fun j => blocksOf (content j).length := by
      rw [← within]
      exact update_eq_self ..
    rw [update_eq_self, same]
    exact blocks
  · rfl
  · exact ⟨_, rfl⟩
  · rfl
  · rw [within]
  · intro j _ bn _
    rw [update_eq_self]
    exact ⟨rfl, rfl⟩
  · exact fun _ _ => rfl

theorem Grown.found {b : Nat}
    (grown : Grown img img' ino (fun j => blocksOf (content j).length) i d b)
    (full : blocksOf (content i).length = (content i).length / bsize) :
    Found img img' ino content i d b := by
  obtain ⟨blocks, address, addrs, freeinode, count, kept, below⟩ := grown
  rw [full] at blocks address
  refine ⟨blocks, address, addrs, freeinode, ?_, kept, below⟩
  rw [← full]
  exact count

/-- What a piece of a file does to the image. -/
structure Appended (img img' : Image) (ino : Nat → Dinode) (content : Nat → List UInt8) (i : Nat)
    (d : Dinode) (p : List UInt8) : Prop where
  laid : Laid img' (update ino i d) (update content i (content i ++ p))
  addrs : ∃ addrs, d = { ino i with addrs := addrs }
  freeinode : img'.freeinode = img.freeinode
  count : img'.freeblock + blocksFor (blocksOf (content i).length) =
    img.freeblock + blocksFor (blocksOf (content i ++ p).length)
  below : ∀ b < nmeta, img'.sectors b = img.sectors b

theorem Image.live_congr (freeinode : img'.freeinode = img.freeinode) :
    img'.Live j ↔ img.Live j := by
  unfold Image.Live
  rw [freeinode]

/-- Bytes that a write to block `b` does not reach. -/
theorem byteAt_store {sectors : Nat → Block} {b c offset n q : Nat} (apart : c = b → q < offset) :
    Bytes.byteAt (update sectors b (Bytes.copyIn (sectors b) offset n source) c) q =
      Bytes.byteAt (sectors c) q := by
  by_cases same : c = b
  · subst same
    rw [update_self]
    exact Bytes.byteAt_copyIn_of_notMem (.inl (apart rfl))
  · rw [update_of_ne same]

variable {p : List UInt8}

namespace Found

variable {b : Nat} (found : Found img img' ino content i d b) (laid : Laid img ino content)
variable (live : img.Live i)
include found live

theorem live' : img'.Live i :=
  (Image.live_congr found.freeinode).mpr live

omit found live in
theorem bound : (content i).length / bsize < update
    (fun j => blocksOf (content j).length) i ((content i).length / bsize + 1) i := by
  rw [update_self]
  exact Nat.lt_succ_self _

omit live in
theorem address' : ptr img'.sectors (update ino i d i)
    (slot ((content i).length / bsize)) = b := by
  rw [update_self]
  exact found.address.symm

/-- A write to the block that has been found changes no pointers. -/
theorem ptr_store (data : Block) (liveJ : img.Live j) (k : Nat) :
    ptr (img'.store b data).sectors (update ino i d j) k =
      ptr img'.sectors (update ino i d j) k := by
  have kept := found.blocks.ptr_storeData (found.live' live) bound data
    ((Image.live_congr found.freeinode).mpr liveJ) k
  rwa [found.address'] at kept

include laid

/-- The bytes that are there already stay. -/
theorem old_byte {n x : Nat} (liveJ : img.Live j) (inFile : x < (content j).length) :
    fileByte (img'.store b (Bytes.copyIn (img'.sectors b) ((content i).length % bsize) n
      source)).sectors (update ino i d j) x = (content j).getD x 0 := by
  have inBlocks : x / bsize < blocksOf (content j).length := by
    unfold blocksOf bsize
    omega
  obtain ⟨pointer, block⟩ := found.kept j liveJ _ inBlocks
  have present := (laid.blocks.ptr_slot liveJ inBlocks)
  rw [← laid.bytes j liveJ x inFile]
  unfold fileByte
  rw [found.ptr_store live _ liveJ, pointer, ← block]
  apply byteAt_store
  intro same
  have both := found.blocks.ptr_inj (found.live' live)
    ((Image.live_congr found.freeinode).mpr liveJ)
    (found.blocks.ptr_slot (found.live' live) bound).1 present.1
    (found.blocks.ptr_slot (found.live' live) bound).2
    (by rw [found.address', pointer, same])
  obtain ⟨rfl, slots⟩ := both
  have sameBlock := slot_inj slots
  unfold bsize at *
  omega

/-- The bytes are stored in the block that has been found. -/
theorem store (some : 0 < p.length) (fits : (content i).length % bsize + p.length ≤ bsize)
    (bytes : ∀ j < p.length, source j = p.getD j 0) :
    Appended img (img'.store b (Bytes.copyIn (img'.sectors b) ((content i).length % bsize)
      p.length source)) ino content i d p := by
  have newBlocks : blocksOf ((content i).length + p.length) = (content i).length / bsize + 1 := by
    unfold blocksOf bsize at *
    omega
  have address := found.address'
  obtain ⟨inside, nonzero⟩ := found.blocks.ptr_slot (found.live' live) bound
  have mem := found.blocks.ptr_mem (found.live' live) inside nonzero
  rw [address] at mem
  constructor
  · constructor
    · rw [lengths_update, List.length_append, newBlocks]
      have stored := found.blocks.storeData (found.live' live) bound
        (Bytes.copyIn (img'.sectors b) ((content i).length % bsize) p.length source)
      rwa [address] at stored
    · intro j liveStored x inFile
      have liveJ : img.Live j := (Image.live_congr found.freeinode).mp liveStored
      by_cases here : j = i
      · subst here
        rw [update_self] at inFile
        rw [update_self (f := content)]
        by_cases old : x < (content j).length
        · rw [found.old_byte laid live liveJ old, List.getD_append _ _ _ _ old]
        · rw [List.length_append] at inFile
          have block : x / bsize = (content j).length / bsize := by
            unfold bsize at *
            omega
          have position : x % bsize = (content j).length % bsize + (x - (content j).length) := by
            unfold bsize at *
            omega
          rw [List.getD_append_right _ _ _ _ (by omega), ← bytes _ (by omega), fileByte,
            found.ptr_store live _ live, block, address, position]
          change Bytes.byteAt (update img'.sectors b _ b) _ = _
          rw [update_self, Bytes.byteAt_copyIn_of_mem (by omega) (by omega)
            (by omega), Nat.add_sub_cancel_left]
      · have other : update content i (content i ++ p) j = content j :=
          update_of_ne here _ _
        rw [other] at inFile ⊢
        exact found.old_byte laid live liveJ inFile
  · exact found.addrs
  · exact found.freeinode
  · rw [List.length_append, newBlocks]
    exact found.count
  · intro x low
    rw [← found.below x low]
    exact update_of_ne (by omega) _ _

end Found

/-! ## The loop -/

/-- Why bytes `p` cannot be appended to a file with content `c`: the file gets too
long, or the image is full. -/
def Stops (img : Image) (c p : List UInt8) (reason : Exit) : Prop :=
  reason = .assertion ∧ maxfile * bsize < (c ++ p).length ∨
    reason = .perror ∧ fssize + blocksFor (blocksOf c.length) <
      img.freeblock + blocksFor (blocksOf (c ++ p).length)

theorem Starved.stops {c : List UInt8} (starved : Starved img (blocksOf c.length))
    (full : blocksOf c.length = c.length / bsize) (some : 0 < p.length) :
    Stops img c p .perror := by
  have more : blocksOf c.length + 1 ≤ blocksOf (c ++ p).length := by
    rw [List.length_append]
    unfold blocksOf bsize at *
    omega
  have mono := blocksFor_mono more
  unfold Starved at starved
  exact .inr ⟨rfl, by omega⟩

section

variable (laid : Laid img ino content)
include laid

/-- The block for the next byte of a file. -/
theorem blockFor_spec (live : img.Live i) (some : 0 < p.length)
    (inside : (content i).length / bsize < maxfile) :
    Wp (blockFor (ino i) ((content i).length / bsize)) (Stops img (content i) p)
      (fun r img' => Found img img' ino content i r.1 r.2 ∨
        r.2 = fssize ∧ img'.length = fssize ∧ Stops img (content i) p .perror) img := by
  rcases blocksOf_eq (content i).length with ⟨full, -⟩ | ⟨within, -⟩
  · rw [← full] at inside ⊢
    refine (blockFor_new laid.blocks live inside).mono ?_ ?_
    · rintro reason ⟨rfl, starved⟩
      exact starved.stops full some
    · rintro r img' (grown | ⟨beyond, length, starved⟩)
      · exact .inl (grown.found full)
      · exact .inr ⟨beyond, length, starved.stops full some⟩
  · refine (blockFor_present laid.blocks live (by simp only [within]; omega)).mono
      (fun _ impossible => impossible.elim) ?_
    rintro r img' ⟨rfl, rfl⟩
    exact .inl (laid.blocks.found_present within)

theorem appendPiece_spec (live : img.Live i) (some : 0 < p.length) :
    Wp (appendPiece (ino i) (content i).length p) (Stops img (content i) p)
      (fun r img' => 0 < r.2 ∧ r.2 ≤ p.length ∧
        Appended img img' ino content i r.1 (p.take r.2)) img := by
  have room : ((content i).length / bsize + 1) * bsize - (content i).length =
      bsize - (content i).length % bsize := by
    unfold bsize
    omega
  have position : (content i).length - (content i).length / bsize * bsize =
      (content i).length % bsize := by
    unfold bsize
    omega
  have within : (content i).length % bsize < bsize := Nat.mod_lt _ (by decide)
  simp only [appendPiece, room, position]
  by_cases inside : (content i).length / bsize < maxfile
  · rw [if_pos inside]
    refine Wp.bind (blockFor_spec laid live some inside) (fun _ => id) ?_
    rintro ⟨d, b⟩ img' (found | ⟨beyond, length, stops⟩)
    · obtain ⟨inSlots, nonzero⟩ := found.blocks.ptr_slot (found.live' live) Found.bound
      have mem := found.blocks.ptr_mem (found.live' live) inSlots nonzero
      rw [found.address'] at mem
      have bound : b < fssize := mem.2.trans_le found.blocks.high
      have taken : (p.take (min p.length (bsize - (content i).length % bsize))).length =
          min p.length (bsize - (content i).length % bsize) := by
        rw [List.length_take]
        omega
      have bytes : ∀ j < (p.take (min p.length (bsize - (content i).length % bsize))).length,
          p.getD j 0 = (p.take (min p.length (bsize - (content i).length % bsize))).getD j 0 := by
        intro j low
        rw [taken] at low
        rw [List.getD_eq_getElem?_getD, List.getD_eq_getElem?_getD, List.getElem?_take, if_pos low]
      have stored := found.store laid live (by omega) (by omega) bytes
      rw [taken] at stored
      simp only
      rw [wp_bind, wp_rsect found.blocks.length bound.le, if_pos bound, wp_bind,
        wp_wsect found.blocks.length bound, wp_pure]
      exact ⟨by omega, Nat.min_le_left _ _, stored⟩
    · simp only at beyond ⊢
      rw [wp_bind, wp_rsect length beyond.le, if_neg (by omega)]
      exact stops
  · rw [if_neg inside, wp_throw]
    have long : maxfile * bsize ≤ (content i).length :=
      (Nat.le_div_iff_mul_le (by decide)).mp (Nat.not_lt.mp inside)
    refine .inl ⟨rfl, ?_⟩
    rw [List.length_append]
    exact long.trans_lt (Nat.lt_add_of_pos_right some)

theorem Appended.refl (i : Nat) : Appended img img ino content i (ino i) [] := by
  constructor
  · rwa [List.append_nil, update_eq_self, update_eq_self]
  · exact ⟨_, rfl⟩
  · rfl
  · rw [List.append_nil]
  · exact fun _ _ => rfl

end

theorem Appended.trans {img'' : Image} {d' : Dinode} {q : List UInt8}
    (first : Appended img img' ino content i d p) (second : Appended img' img'' (update ino i d)
      (update content i (content i ++ p)) i d' q) :
    Appended img img'' ino content i d' (p ++ q) := by
  obtain ⟨-, ⟨addrs, rfl⟩, freeinode, count, below⟩ := first
  obtain ⟨laid, ⟨addrs', rfl⟩, freeinode', count', below'⟩ := second
  simp only [update_self, update_idem, List.append_assoc] at *
  refine ⟨laid, ⟨_, rfl⟩, freeinode'.trans freeinode, by omega, ?_⟩
  intro b low
  rw [below' b low, below b low]

theorem Stops.more {c : List UInt8} (stops : Stops img c p reason) (q : List UInt8) :
    Stops img c (p ++ q) reason := by
  have longer : (c ++ p).length ≤ (c ++ (p ++ q)).length := by
    simp only [List.length_append]
    omega
  have mono := blocksFor_mono (blocksOf_mono longer)
  rcases stops with ⟨rfl, long⟩ | ⟨rfl, full⟩
  · exact .inl ⟨rfl, long.trans_le longer⟩
  · exact .inr ⟨rfl, by omega⟩

/-- The rest of the bytes stops for the same reasons. -/
theorem stops_append {c q : List UInt8} (count : img'.freeblock + blocksFor (blocksOf c.length) =
      img.freeblock + blocksFor (blocksOf (c ++ p).length)) (later : Stops img' (c ++ p) q reason) :
    Stops img c (p ++ q) reason := by
  unfold Stops at *
  rw [List.append_assoc] at later
  rcases later with long | ⟨rfl, full⟩
  · exact .inl long
  · exact .inr ⟨rfl, by omega⟩

theorem iappendLoop_spec (laid : Laid img ino content) (live : img.Live i) {turns : Nat}
    (enough : p.length ≤ turns) :
    Wp (iappendLoop turns (ino i) (content i).length p) (Stops img (content i) p)
      (fun r img' => r.2 = (content i ++ p).length ∧
        Appended img img' ino content i r.1 p) img := by
  induction turns generalizing img ino content p with
  | zero =>
    obtain rfl : p = [] := List.length_eq_zero_iff.mp (by omega)
    exact ⟨by simp, Appended.refl laid i⟩
  | succ turns ih =>
    rw [iappendLoop]
    split
    · rename_i done
      obtain rfl : p = [] := List.length_eq_zero_iff.mp done
      exact ⟨by simp, Appended.refl laid i⟩
    · rename_i more
      refine Wp.bind (appendPiece_spec laid live (by omega)) (fun _ => id) ?_
      rintro ⟨d, n⟩ img' ⟨pos, bound, appended⟩
      simp only at pos bound appended ⊢
      have live' : img'.Live i := (Image.live_congr appended.freeinode).mpr live
      have rest := ih (p := p.drop n) appended.laid live' (by rw [List.length_drop]; omega)
      have length : (content i ++ p.take n).length = (content i).length + n := by
        rw [List.length_append, List.length_take]
        omega
      rw [update_self, update_self, length] at rest
      refine rest.mono ?_ ?_
      · intro reason later
        have stops := stops_append appended.count later
        rwa [List.take_append_drop] at stops
      · rintro r img'' ⟨off, second⟩
        refine ⟨?_, ?_⟩
        · rw [off, List.append_assoc, List.take_append_drop]
        · have whole := appended.trans second
          rwa [List.take_append_drop] at whole

end Xv6.Mkfs
