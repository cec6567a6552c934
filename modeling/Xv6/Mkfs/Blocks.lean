import Xv6.Fs.Content
import Xv6.Mkfs.Code

/-!
# The blocks of an image

While an image is built, its blocks are taken one after the other.  Every block of
the data area below `freeblock` is stored in one slot of one inode, those behind it
are still zero, and each inode has the blocks that its length asks for.

As for the kernel, the inodes are a parameter: `iappend` works on a copy that is
ahead of the image.
-/

namespace Xv6.Mkfs

open Stateful Fs Function

/-- The inodes for which the inode blocks have room. -/
def slots : Nat := ninodeblocks * ipb

/-- The superblock with all the inodes of the inode blocks. -/
def geometry : Superblock := { sb with ninodes := slots }

/-- Inode `i` has been allocated. -/
def Image.Live (img : Image) (i : Nat) : Prop := 0 < i ∧ i < img.freeinode

/-- Replace the content of a sector. -/
def Image.store (img : Image) (b : Nat) (data : Block) : Image :=
  { img with sectors := update img.sectors b data }

theorem Image.store_self (img : Image) (b : Nat) (data : Block) :
    (img.store b data).sectors b = data := by
  simp [Image.store]

variable {b : Nat} {sectors : Nat → Block}

theorem Image.store_of_ne (img : Image) {x : Nat} (different : x ≠ b) (data : Block) :
    (img.store b data).sectors x = img.sectors x := by
  simp [Image.store, different]

/-- The blocks of an image whose inode `i` has `len i` blocks. -/
structure Blocks (img : Image) (ino : Nat → Dinode) (len : Nat → Nat) : Prop where
  length : img.length = fssize
  low : nmeta ≤ img.freeblock
  high : img.freeblock ≤ fssize
  inodes : img.freeinode ≤ slots
  blank : ∀ b, img.freeblock ≤ b → b < fssize → img.sectors b = fun _ => 0
  inUse : ∀ i < slots, (ino i).type ≠ 0 ↔ img.Live i
  extent : ∀ i, img.Live i → Extent img.sectors (ino i) (len i)
  ledger : Ledger.Exact (holds geometry img.sectors ino) fun b => nmeta ≤ b ∧ b < img.freeblock

theorem nmeta_eq : nmeta = 59 := rfl

theorem fssize_eq : fssize = 1000 := rfl

variable {img img' : Image} {ino : Nat → Dinode} {len : Nat → Nat} {i bn : Nat} {d : Dinode}

variable {k j : Nat}

namespace Blocks

section

variable (blocks : Blocks img ino len) (live : img.Live i)
include blocks live

theorem range : i < geometry.ninodes :=
  live.2.trans_le blocks.inodes

theorem typed : (ino i).type ≠ 0 :=
  (blocks.inUse i (blocks.range live)).mpr live

/-- The blocks of a file lie in the part of the data area that has been taken. -/
theorem ptr_mem (inside : k < nslots) (nonzero : ptr img.sectors (ino i) k ≠ 0) :
    nmeta ≤ ptr img.sectors (ino i) k ∧ ptr img.sectors (ino i) k < img.freeblock :=
  blocks.ledger.marked (p := (i, k))
    (holds_eq_some.mpr ⟨blocks.range live, blocks.typed live, inside, rfl, nonzero⟩)

theorem ptr_inj {l : Nat} (live' : img.Live j) (inside : k < nslots) (inside' : l < nslots)
    (nonzero : ptr img.sectors (ino i) k ≠ 0)
    (same : ptr img.sectors (ino j) l = ptr img.sectors (ino i) k) : j = i ∧ l = k := by
  have first : holds geometry img.sectors ino (i, k) = some (ptr img.sectors (ino i) k) :=
    holds_eq_some.mpr ⟨blocks.range live, blocks.typed live, inside, rfl, nonzero⟩
  have second : holds geometry img.sectors ino (j, l) = some (ptr img.sectors (ino i) k) :=
    holds_eq_some.mpr ⟨blocks.range live', blocks.typed live', inside', same, nonzero⟩
  have equal := blocks.ledger.unique second first
  exact ⟨congrArg Prod.fst equal, congrArg Prod.snd equal⟩

/-- Block `bn` of the file is there. -/
theorem ptr_slot (bound : bn < len i) :
    slot bn < nslots ∧ ptr img.sectors (ino i) (slot bn) ≠ 0 := by
  have extent := blocks.extent i live
  have inside : bn < maxfile := bound.trans_le extent.short
  exact ⟨slot_lt inside, (extent.blocks bn inside).mpr bound⟩

/-- The indirect block lies in the part of the data area that has been taken. -/
theorem indirect_mem (present : (ino i).addr ndirect ≠ 0) :
    nmeta ≤ (ino i).addr ndirect ∧ (ino i).addr ndirect < img.freeblock := by
  have member := blocks.ptr_mem live (k := ndirect) (by decide) (by rwa [ptr_ndirect])
  rwa [ptr_ndirect] at member

/-- The blocks of a file are not the indirect block of any file. -/
theorem indirect_ne (live' : img.Live j) (bound : bn < len i) :
    (ino j).addr ndirect ≠ ptr img.sectors (ino i) (slot bn) := by
  intro same
  obtain ⟨inside, nonzero⟩ := blocks.ptr_slot live bound
  have equal := blocks.ptr_inj live live' inside (l := ndirect) (by decide) nonzero
    (by rw [ptr_ndirect, same])
  exact slot_ne_ndirect bn equal.2.symm

end

variable (blocks : Blocks img ino len)
include blocks

/-- A write to a sector that holds no block numbers. -/
theorem store (taken : b < img.freeblock)
    (elsewhere : ∀ j, img.Live j → (ino j).addr ndirect ≠ 0 → (ino j).addr ndirect ≠ b)
    (data : Block) : Blocks (img.store b data) ino len := by
  have pointers : ∀ j, img.Live j → ∀ k,
      ptr (img.store b data).sectors (ino j) k = ptr img.sectors (ino j) k := by
    intro j live k
    apply ptr_congr (fun _ => rfl)
    intro present
    exact update_of_ne (elsewhere j live present) _ _
  obtain ⟨length, low, high, inodes, blank, inUse, extent, ledger⟩ := blocks
  refine ⟨length, low, high, inodes, ?_, inUse, ?_, ?_⟩
  · intro x free bound
    have different : x ≠ b := (taken.trans_le free).ne'
    exact (update_of_ne different _ _).trans (blank x free bound)
  · exact fun j live => (extent j live).of_ptr (pointers j live)
  · apply ledger.congr
    · apply holds_congr
      intro j range
      exact ⟨.rfl, fun typed => pointers j ((inUse j range).mp typed)⟩
    · exact fun _ => .rfl

/-- A write to the metadata. -/
theorem storeMeta (low : b < nmeta) (data : Block) : Blocks (img.store b data) ino len := by
  refine blocks.store (low.trans_le blocks.low) ?_ data
  rintro j live present rfl
  exact absurd low (Nat.not_lt.mpr (blocks.indirect_mem live present).1)

/-- A write to a block of a file. -/
theorem storeData (live : img.Live i) (bound : bn < len i) (data : Block) :
    Blocks (img.store (ptr img.sectors (ino i) (slot bn)) data) ino len := by
  obtain ⟨inside, nonzero⟩ := blocks.ptr_slot live bound
  refine blocks.store (blocks.ptr_mem live inside nonzero).2 ?_ data
  exact fun j live' _ => blocks.indirect_ne live live' bound

theorem ptr_storeData (live : img.Live i) (bound : bn < len i) (data : Block) (live' : img.Live j)
    (k : Nat) :
    ptr (img.store (ptr img.sectors (ino i) (slot bn)) data).sectors (ino j) k =
      ptr img.sectors (ino j) k := by
  apply ptr_congr (fun _ => rfl)
  exact fun _ => update_of_ne (blocks.indirect_ne live live' bound) _ _

end Blocks

/-! ## Taking blocks -/

/-- Slot `k` of inode `i`, whose new value is `d`, takes the next block. -/
theorem take_ledger {sectors' : Nat → Block}
    (ledger : Ledger.Exact (holds geometry sectors ino) fun x => nmeta ≤ x ∧ x < b)
    (low : nmeta ≤ b) (range : i < geometry.ninodes) (type : (ino i).type ≠ 0) (type' : d.type ≠ 0)
    (inside : k < nslots) (vacant : ptr sectors (ino i) k = 0)
    (own : ∀ l < nslots, ptr sectors' d l = if l = k then b else ptr sectors (ino i) l)
    (others : ∀ j < geometry.ninodes, j ≠ i → (ino j).type ≠ 0 → (ino j).addr ndirect ≠ 0 →
      sectors' ((ino j).addr ndirect) = sectors ((ino j).addr ndirect)) :
    Ledger.Exact (holds geometry sectors' (update ino i d))
      fun x => nmeta ≤ x ∧ x < b + 1 := by
  have free : ¬ (nmeta ≤ b ∧ b < b) := fun both => Nat.lt_irrefl b both.2
  have nonzero : b ≠ 0 := by
    rw [nmeta_eq] at low
    omega
  apply (ledger.assign (p := (i, k)) (holds_eq_none vacant) free).congr
  · exact holds_assign range type type' inside nonzero own others
  · intro x
    omega

/-- Inode `i`, whose new value is `d`, has got its next block, which is `b`. -/
structure Grown (img img' : Image) (ino : Nat → Dinode) (len : Nat → Nat) (i : Nat)
    (d : Dinode) (b : Nat) : Prop where
  blocks : Blocks img' (update ino i d) (update len i (len i + 1))
  address : b = ptr img'.sectors d (slot (len i))
  addrs : ∃ addrs, d = { ino i with addrs := addrs }
  freeinode : img'.freeinode = img.freeinode
  count : img'.freeblock + blocksFor (len i) = img.freeblock + blocksFor (len i + 1)
  kept : ∀ j, img.Live j → ∀ bn < len j,
    ptr img'.sectors (update ino i d j) (slot bn) = ptr img.sectors (ino j) (slot bn) ∧
      img'.sectors (ptr img.sectors (ino j) (slot bn)) =
        img.sectors (ptr img.sectors (ino j) (slot bn))
  below : ∀ b < nmeta, img'.sectors b = img.sectors b

namespace Blocks

variable (blocks : Blocks img ino len) (live : img.Live i)
include blocks live

/-- The other inodes keep their indirect blocks when only new blocks and the indirect
block of inode `i` change. -/
theorem indirect_kept
    (same : ∀ x < img.freeblock, ((ino i).addr ndirect ≠ 0 → x ≠ (ino i).addr ndirect) →
      sectors x = img.sectors x) (live' : img.Live j) (other : j ≠ i)
    (present : (ino j).addr ndirect ≠ 0) :
    sectors ((ino j).addr ndirect) = img.sectors ((ino j).addr ndirect) := by
  apply same _ (blocks.indirect_mem live' present).2
  intro present' equal
  have inj := blocks.ptr_inj live live' (k := ndirect) (l := ndirect) (by decide) (by decide)
    (by rwa [ptr_ndirect]) (by rw [ptr_ndirect, ptr_ndirect, equal])
  exact other inj.1

theorem grow {top : Nat} (inside : len i < maxfile) (low : img.freeblock ≤ top)
    (high : top ≤ fssize) (count : top + blocksFor (len i) = img.freeblock + blocksFor (len i + 1))
    (addrs : ∃ addrs, d = { ino i with addrs := addrs }) (nonzero : b ≠ 0)
    (own : ∀ bn < maxfile, ptr sectors d (slot bn) =
      if bn = len i then b else ptr img.sectors (ino i) (slot bn))
    (indirect : d.addr ndirect ≠ 0 ↔ ndirect < len i + 1)
    (ledger : Ledger.Exact (holds geometry sectors (update ino i d))
      fun x => nmeta ≤ x ∧ x < top) (same : ∀ x, x < img.freeblock ∨ top ≤ x →
      ((ino i).addr ndirect ≠ 0 → x ≠ (ino i).addr ndirect) → sectors x = img.sectors x) :
    Grown img { img with sectors := sectors, freeblock := top } ino len i d b := by
  have others : ∀ j, img.Live j → j ≠ i → ∀ k,
      ptr sectors (ino j) k = ptr img.sectors (ino j) k := by
    intro j live' other k
    apply ptr_congr (fun _ => rfl)
    exact blocks.indirect_kept live (fun x bound => same x (.inl bound)) live' other
  constructor
  · constructor
    · exact blocks.length
    · exact blocks.low.trans low
    · exact high
    · exact blocks.inodes
    · intro x free bound
      change top ≤ x at free
      have unchanged : sectors x = img.sectors x := by
        apply same x (.inr free)
        intro present
        have taken := (blocks.indirect_mem live present).2
        omega
      exact unchanged.trans (blocks.blank x (low.trans free) bound)
    · intro j range
      by_cases here : j = i
      · subst here
        obtain ⟨addrs, rfl⟩ := addrs
        rw [update_self]
        exact blocks.inUse j range
      · rw [update_of_ne here]
        exact blocks.inUse j range
    · intro j live'
      by_cases here : j = i
      · subst here
        rw [update_self, update_self]
        exact (blocks.extent j live).grow inside nonzero own indirect
      · rw [update_of_ne here, update_of_ne here]
        exact (blocks.extent j live').of_ptr (others j live' here)
    · exact ledger
  · exact ((own (len i) inside).trans (if_pos rfl)).symm
  · exact addrs
  · rfl
  · exact count
  · intro j live' bn bound
    obtain ⟨inside', nonzero'⟩ := blocks.ptr_slot live' bound
    constructor
    · by_cases here : j = i
      · subst here
        rw [update_self, own bn (bound.trans inside), if_neg bound.ne]
      · rw [update_of_ne here, others j live' here]
    · apply same _ (.inl (blocks.ptr_mem live' inside' nonzero').2)
      intro present
      exact (blocks.indirect_ne live' live bound).symm
  · intro x metadata
    apply same _ (.inl (metadata.trans_le blocks.low))
    intro present
    have taken := (blocks.indirect_mem live present).1
    omega

/-- A direct slot takes the next block. -/
theorem growDirect (direct : len i < ndirect) (room : img.freeblock < fssize) :
    Grown img { img with freeblock := img.freeblock + 1 } ino len i
      ((ino i).setAddr (len i) img.freeblock) img.freeblock := by
  have extent := blocks.extent i live
  have low := blocks.low
  have inside : len i < maxfile := direct.trans (by decide)
  have fits : img.freeblock < 2 ^ 32 := room.trans (by decide)
  have nonzero : img.freeblock ≠ 0 := by
    rw [nmeta_eq] at low
    omega
  have vacant : (ino i).addr (len i) = 0 := by
    have absent := extent.vacant inside
    rwa [ptr_slot_of_lt direct] at absent
  have own : ∀ l, ptr img.sectors ((ino i).setAddr (len i) img.freeblock) l =
      if l = len i then img.freeblock else ptr img.sectors (ino i) l := by
    intro l
    exact ptr_setAddr direct.le vacant fits nonzero (fun last => absurd last direct.ne)
      (fun _ => rfl) l
  refine blocks.grow live inside (Nat.le_succ _) room ?_ ⟨_, rfl⟩ nonzero ?_ ?_ ?_ ?_
  · unfold blocksFor
    rw [if_neg (by omega), if_neg (by omega)]
    omega
  · intro bn _
    have slots : slot bn = len i ↔ bn = len i := by
      unfold slot
      split <;> omega
    rw [own]
    simp only [slots]
  · rw [Dinode.addr_setAddr (by omega) fits, if_neg direct.ne', extent.indirect]
    omega
  · refine take_ledger blocks.ledger low (blocks.range live) (blocks.typed live)
      (blocks.typed live) (k := len i) ?_ ?_ (fun l _ => own l) (fun _ _ _ _ _ => rfl)
    · exact direct.trans (by decide)
    · rw [ptr_of_le direct.le]
      exact vacant
  · exact fun _ _ _ => rfl

/-- A word of the indirect block takes the next block. -/
theorem growWord (behind : ndirect < len i) (inside : len i < maxfile)
    (room : img.freeblock < fssize) :
    Grown img
      { img with
        sectors := update img.sectors ((ino i).addr ndirect)
          ((img.sectors ((ino i).addr ndirect)).setWord (len i - ndirect) img.freeblock)
        freeblock := img.freeblock + 1 } ino len i (ino i) img.freeblock := by
  have extent := blocks.extent i live
  have low := blocks.low
  have fits : img.freeblock < 2 ^ 32 := room.trans (by decide)
  have nonzero : img.freeblock ≠ 0 := by
    rw [nmeta_eq] at low
    omega
  have present := extent.indirect.mpr behind
  have word : len i - ndirect < nindirect := by
    unfold maxfile at inside
    omega
  have place : slot (len i) = ndirect + 1 + (len i - ndirect) := slot_of_ge behind.le
  have own : ∀ l, ptr (update img.sectors ((ino i).addr ndirect)
      ((img.sectors ((ino i).addr ndirect)).setWord (len i - ndirect) img.freeblock)) (ino i) l =
      if l = slot (len i) then img.freeblock else ptr img.sectors (ino i) l := by
    intro l
    rw [place]
    exact ptr_setWord present word fits (update_self ..)
  have same : ∀ x, x ≠ (ino i).addr ndirect → update img.sectors ((ino i).addr ndirect)
      ((img.sectors ((ino i).addr ndirect)).setWord (len i - ndirect) img.freeblock) x =
      img.sectors x := fun x different => update_of_ne different _ _
  refine blocks.grow live inside (Nat.le_succ _) room ?_ ⟨_, rfl⟩ nonzero ?_ ?_ ?_ ?_
  · unfold blocksFor
    rw [if_pos behind, if_pos (by omega)]
    omega
  · intro bn _
    have slots : slot bn = slot (len i) ↔ bn = len i := ⟨slot_inj, congrArg slot⟩
    rw [own]
    simp only [slots]
  · rw [extent.indirect]
    omega
  · refine take_ledger blocks.ledger low (blocks.range live) (blocks.typed live)
      (blocks.typed live) (slot_lt inside) (extent.vacant inside) (fun l _ => own l) ?_
    intro j range other typed present'
    exact blocks.indirect_kept live (fun x _ different => same x (different present))
      ((blocks.inUse j range).mp typed) other present'
  · exact fun x _ different => same x (different present)

/-- The file needs its indirect block, and the next block goes to the first word. -/
theorem growBoth (exact : len i = ndirect) (room : img.freeblock + 1 < fssize) :
    Grown img
      { img with
        sectors := update img.sectors img.freeblock
          ((img.sectors img.freeblock).setWord 0 (img.freeblock + 1))
        freeblock := img.freeblock + 2 } ino len i
      ((ino i).setAddr ndirect img.freeblock) (img.freeblock + 1) := by
  have extent := blocks.extent i live
  have low := blocks.low
  have inside : len i < maxfile := by
    rw [exact]
    decide
  have fits : img.freeblock + 1 < 2 ^ 32 := room.trans (by decide)
  have nonzero : img.freeblock ≠ 0 := by
    rw [nmeta_eq] at low
    omega
  have vacant : (ino i).addr ndirect = 0 := by
    by_contra present
    have behind := extent.indirect.mp present
    omega
  have addr : ((ino i).setAddr ndirect img.freeblock).addr ndirect = img.freeblock := by
    rw [Dinode.addr_setAddr (by decide) (by omega), if_pos rfl]
  have zero : img.sectors img.freeblock = fun _ => 0 :=
    blocks.blank _ (Nat.le_refl _) (by omega)
  have place : slot (len i) = ndirect + 1 + 0 := by
    rw [exact]
    rfl
  have ownAddr : ∀ l, ptr img.sectors ((ino i).setAddr ndirect img.freeblock) l =
      if l = ndirect then img.freeblock else ptr img.sectors (ino i) l := by
    intro l
    exact ptr_setAddr (Nat.le_refl _) vacant (by omega) nonzero (fun _ => zero) (fun _ => rfl) l
  have ownWord : ∀ l, ptr (update img.sectors img.freeblock
      ((img.sectors img.freeblock).setWord 0 (img.freeblock + 1)))
      ((ino i).setAddr ndirect img.freeblock) l = if l = slot (len i) then img.freeblock + 1
      else ptr img.sectors ((ino i).setAddr ndirect img.freeblock) l := by
    intro l
    rw [place]
    refine ptr_setWord (by rwa [addr]) (by decide) fits ?_
    rw [addr, update_self]
  have first : Ledger.Exact (holds geometry img.sectors
      (update ino i ((ino i).setAddr ndirect img.freeblock)))
      fun x => nmeta ≤ x ∧ x < img.freeblock + 1 := by
    refine take_ledger blocks.ledger low (blocks.range live) (blocks.typed live)
      (blocks.typed live) (by decide) ?_ (fun l _ => ownAddr l) (fun _ _ _ _ _ => rfl)
    rw [ptr_ndirect]
    exact vacant
  have second : Ledger.Exact (holds geometry (update img.sectors img.freeblock
      ((img.sectors img.freeblock).setWord 0 (img.freeblock + 1)))
      (update ino i ((ino i).setAddr ndirect img.freeblock)))
      fun x => nmeta ≤ x ∧ x < img.freeblock + 2 := by
    have again := update_idem ((ino i).setAddr ndirect img.freeblock)
      ((ino i).setAddr ndirect img.freeblock) ino (a := i)
    rw [← again]
    refine take_ledger first (by omega) (blocks.range live) ?_ (blocks.typed live)
      (slot_lt inside) ?_ ?_ ?_
    · rw [update_self]
      exact blocks.typed live
    · rw [update_self, ownAddr, if_neg (slot_ne_ndirect _)]
      exact extent.vacant inside
    · intro l _
      rw [update_self]
      exact ownWord l
    · intro j range other typed present
      rw [update_of_ne other] at typed present ⊢
      have taken := (blocks.indirect_mem ((blocks.inUse j range).mp typed) present).2
      exact update_of_ne (by omega) _ _
  refine blocks.grow live inside (by omega) (by omega) ?_ ⟨_, rfl⟩
    (Nat.succ_ne_zero img.freeblock) ?_ ?_ second ?_
  · unfold blocksFor
    rw [if_neg (by omega), if_pos (by omega)]
    omega
  · intro bn _
    have slots : slot bn = slot (len i) ↔ bn = len i := ⟨slot_inj, congrArg slot⟩
    rw [ownWord, ownAddr, if_neg (slot_ne_ndirect bn)]
    simp only [slots]
  · rw [addr]
    exact ⟨fun _ => by omega, fun _ => nonzero⟩
  · intro x outside _
    exact update_of_ne (by omega) _ _

end Blocks

end Xv6.Mkfs
