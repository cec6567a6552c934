import Xv6.User.Handlers

/-!
# The user addresses that a function uses

For each function that is passed a user pointer, the addresses it loads from or
stores to: exactly which for the copies that are not bounded by a length argument,
and at most which for the others.
-/

namespace Xv6.User

open Stateful Fs

/-! ## Addresses in use -/

/-- The `n` addresses from `p` on. -/
def block (p : UInt32) (n : Nat) : Set UInt32 :=
  { a | ∃ k < n, a = p + UInt32.ofNat k }

theorem block_zero (p : UInt32) : block p 0 = ∅ := by
  ext a
  simp [block]

theorem block_add (p : UInt32) (m n : Nat) :
    block p (m + n) = block p m ∪ block (p + UInt32.ofNat m) n := by
  ext a
  constructor
  · rintro ⟨k, bound, rfl⟩
    by_cases first : k < m
    · exact .inl ⟨k, first, rfl⟩
    · refine .inr ⟨k - m, by omega, ?_⟩
      rw [UInt32.add_assoc, ← UInt32.ofNat_add, Nat.add_sub_cancel' (by omega)]
  · rintro (⟨k, bound, rfl⟩ | ⟨k, bound, rfl⟩)
    · exact ⟨k, by omega, rfl⟩
    · refine ⟨m + k, by omega, ?_⟩
      rw [UInt32.ofNat_add, UInt32.add_assoc]

theorem block_succ (p : UInt32) (n : Nat) : block p (n + 1) = block p 1 ∪ block (p + 1) n := by
  rw [Nat.add_comm, block_add]
  rfl

theorem block_split {m n : Nat} (p : UInt32) (le : m ≤ n) :
    block p n = block p m ∪ block (p + UInt32.ofNat m) (n - m) := by
  rw [← block_add, Nat.add_sub_cancel' le]

theorem block_mono {m n : Nat} (p : UInt32) (le : m ≤ n) : block p m ⊆ block p n := by
  rintro a ⟨k, bound, rfl⟩
  exact ⟨k, by omega, rfl⟩

variable {k turns f : Nat} {p n : UInt32} {ip : Inode} {procs : List ProcInfo}

theorem block_inner {n m : Nat} (p : UInt32) (le : k + n ≤ m) :
    block (p + UInt32.ofNat k) n ⊆ block p m := by
  rintro a ⟨j, bound, rfl⟩
  refine ⟨k + j, by omega, ?_⟩
  rw [UInt32.ofNat_add, UInt32.add_assoc]

theorem toNat_offset (bound : p.toNat + k < 2 ^ 32) : (p + UInt32.ofNat k).toNat = p.toNat + k := by
  rw [UInt32.toNat_add, UInt32.toNat_ofNat']
  omega

theorem block_below {a sz : UInt32} {n : Nat} (fits : p.toNat + n ≤ sz.toNat)
    (mem : a ∈ block p n) : a < sz := by
  obtain ⟨k, bound, rfl⟩ := mem
  have small := sz.toNat_lt
  rw [UInt32.lt_iff_toNat_lt, toNat_offset (by omega)]
  omega

/-- From `s` to `s'` exactly the addresses `A` are used. -/
structure Touches (s s' : Machine) (A : Set UInt32) : Prop where
  sz : s'.sz = s.sz
  touched : ∀ a, a ∈ s'.touched ↔ a ∈ s.touched ∨ a ∈ A

/-- From `s` to `s'` at most the addresses `A` are used. -/
structure Within (s s' : Machine) (A : Set UInt32) : Prop where
  sz : s'.sz = s.sz
  touched : ∀ a ∈ s'.touched, a ∈ s.touched ∨ a ∈ A

variable {s s' s'' : Machine} {A B : Set UInt32}

theorem Touches.refl (s : Machine) : Touches s s ∅ := ⟨rfl, fun a => by simp⟩

theorem Touches.trans (first : Touches s s' A) (second : Touches s' s'' B) :
    Touches s s'' (A ∪ B) := by
  refine ⟨second.sz.trans first.sz, fun a => ?_⟩
  rw [second.touched, first.touched, Set.mem_union, or_assoc]

theorem Touches.within (touches : Touches s s' A) (sub : A ⊆ B) : Within s s' B :=
  ⟨touches.sz, fun a used => ((touches.touched a).mp used).imp_right fun mem => sub mem⟩

theorem Within.of_eq (sz : s'.sz = s.sz) (touched : s'.touched = s.touched) : Within s s' A :=
  ⟨sz, fun _ used => .inl (touched ▸ used)⟩

theorem Within.trans (first : Within s s' A) (second : Within s' s'' A) : Within s s'' A := by
  refine ⟨second.sz.trans first.sz, fun a used => ?_⟩
  rcases second.touched a used with earlier | mem
  · exact first.touched a earlier
  · exact .inr mem

theorem Within.mono (within : Within s s' A) (sub : A ⊆ B) : Within s s' B :=
  ⟨within.sz, fun a used => (within.touched a used).imp_right fun mem => sub mem⟩

/-! ## Copying -/

/-- A program does not panic and uses exactly the addresses `A`. -/
def Uses {α : Type} (prog : UserM α) (A : Set UInt32) : Prop :=
  ∀ s, Wp prog (fun _ => False) (fun _ s' => Touches s s' A) s

/-- A program uses at most the addresses `A`. -/
def KeepsTo {α : Type} (prog : UserM α) (A : Set UInt32) : Prop :=
  ∀ s, Wp prog (fun _ => True) (fun _ s' => Within s s' A) s

variable {α β : Type} {prog : UserM α} {next : α → UserM β}

theorem Uses.bind (first : Uses prog A) (second : ∀ value, Uses (next value) B) :
    Uses (prog >>= next) (A ∪ B) := by
  intro s
  apply Wp.bind (first s) (fun _ => id)
  intro value s' touches
  exact (second value s').imp fun _ _ rest => touches.trans rest

theorem Uses.get : Uses (MonadState.get : UserM Machine) ∅ := Touches.refl

theorem Uses.keepsTo (uses : Uses prog A) (sub : A ⊆ B) : KeepsTo prog B :=
  fun s => (uses s).mono (fun _ => False.elim) fun _ _ touches => touches.within sub

theorem KeepsTo.bind (first : KeepsTo prog A) (second : ∀ value, KeepsTo (next value) A) :
    KeepsTo (prog >>= next) A := by
  intro s
  apply Wp.bind (first s) (fun _ => id)
  intro value s' within
  exact (second value s').imp fun _ _ rest => within.trans rest

theorem KeepsTo.mono (keeps : KeepsTo prog A) (sub : A ⊆ B) : KeepsTo prog B :=
  fun s => (keeps s).imp fun _ _ within => within.mono sub

theorem KeepsTo.pure (value : α) : KeepsTo (Pure.pure value : UserM α) A :=
  fun _ => Within.of_eq rfl rfl

theorem KeepsTo.get : KeepsTo (MonadState.get : UserM Machine) A :=
  fun _ => Within.of_eq rfl rfl

theorem KeepsTo.setFile (f : Nat) (file : File) : KeepsTo (User.setFile f file) A :=
  fun _ => Within.of_eq rfl rfl

theorem KeepsTo.setConsole (keys : List UInt8) : KeepsTo (User.setConsole keys) A :=
  fun _ => Within.of_eq rfl rfl

theorem load_uses (addr : UInt32) : Uses (load addr) (block addr 1) := by
  intro s
  refine ⟨rfl, fun a => ?_⟩
  simp [block, or_comm]

theorem store_uses (addr : UInt32) (value : UInt8) : Uses (store addr value) (block addr 1) := by
  intro s
  refine ⟨rfl, fun a => ?_⟩
  simp [block, or_comm]

theorem storeBytes_uses (addr : UInt32) (bytes : List UInt8) :
    Uses (storeBytes addr bytes) (block addr bytes.length) := by
  induction bytes generalizing addr with
  | nil =>
    intro s
    rw [List.length_nil, block_zero]
    exact Touches.refl s
  | cons b bytes ih =>
    rw [List.length_cons, block_succ]
    exact (store_uses addr b).bind fun _ => ih (addr + 1)

theorem storeWord_uses (addr w : UInt32) : Uses (storeWord addr w) (block addr 4) :=
  storeBytes_uses addr (wordBytes w)

theorem loadBytes_uses (addr : UInt32) (n : Nat) : Uses (loadBytes addr n) (block addr n) := by
  induction n generalizing addr with
  | zero =>
    intro s
    rw [block_zero]
    exact Touches.refl s
  | succ n ih =>
    rw [block_succ]
    apply (load_uses addr).bind
    intro b s
    apply Wp.bind (ih (addr + 1) s) (fun _ => id)
    intro bytes s' touches
    exact touches

theorem pipereadLoop_keepsTo (addr : UInt32) (unread : List UInt8) (n : Nat) :
    KeepsTo (pipereadLoop addr unread n) (block addr n) := by
  induction n generalizing addr unread with
  | zero => cases unread <;> exact .pure 0
  | succ n ih =>
    cases unread with
    | nil => exact .pure 0
    | cons b unread =>
      rw [block_succ]
      apply ((store_uses addr b).keepsTo Set.subset_union_left).bind
      intro _
      apply ((ih (addr + 1) unread).mono Set.subset_union_right).bind
      intro count
      exact .pure _

theorem piperead_keepsTo (p : Pipe) (addr : UInt32) (n : Int) :
    KeepsTo (piperead p addr n) (block addr n.toNat) := by
  unfold piperead
  split
  · exact .pure _
  · exact (pipereadLoop_keepsTo addr _ _).bind fun _ => .pure _

theorem pipewriteLoop_keepsTo (p : Pipe) (addr : UInt32) (i n : Nat) :
    KeepsTo (pipewriteLoop p addr i n) (block addr n) := by
  induction n generalizing addr i with
  | zero => exact .pure true
  | succ n ih =>
    unfold pipewriteLoop
    split
    · exact .pure false
    · rw [block_succ]
      apply ((load_uses addr).keepsTo Set.subset_union_left).bind
      intro _
      exact (ih (addr + 1) (i + 1)).mono Set.subset_union_right

theorem consolereadLoop_keepsTo (target : Nat) (dst : UInt32) (keys : List UInt8) (n : Nat) :
    KeepsTo (consolereadLoop target dst keys n) (block dst n) := by
  induction keys generalizing dst n with
  | nil =>
    cases n with
    | zero => exact (KeepsTo.setConsole _).bind fun _ => KeepsTo.pure _
    | succ n => exact .pure _
  | cons c keys ih =>
    cases n with
    | zero => exact (KeepsTo.setConsole _).bind fun _ => KeepsTo.pure _
    | succ n =>
      unfold consolereadLoop
      split
      · exact (KeepsTo.setConsole _).bind fun _ => KeepsTo.pure _
      · rw [block_succ]
        apply ((store_uses dst c).keepsTo Set.subset_union_left).bind
        intro _
        split
        · exact (KeepsTo.setConsole _).bind fun _ => KeepsTo.pure _
        · exact (ih (dst + 1) n).mono Set.subset_union_right

theorem consoleread_keepsTo (dst : UInt32) (n : Int) :
    KeepsTo (consoleread dst n) (block dst n.toNat) :=
  KeepsTo.get.bind fun _ => consolereadLoop_keepsTo _ dst _ _

/-! ## Inodes and files -/

theorem int_of_nonneg (nonneg : 0 ≤ int n) : int n = n.toNat := by
  unfold int at nonneg ⊢
  have small := n.toNat_lt
  split at nonneg <;> split <;> omega

theorem readiLoop_uses (dst : UInt32) (off left : Nat) (enough : left ≤ turns) :
    Uses (readiLoop ip turns dst off left) (block dst left) := by
  induction turns generalizing dst off left with
  | zero =>
    obtain rfl := Nat.le_zero.mp enough
    rw [block_zero]
    exact Touches.refl
  | succ turns ih =>
    unfold readiLoop
    split
    · rename_i done
      rw [done, block_zero]
      exact Touches.refl
    · rename_i more
      have room : off % bsize < bsize := Nat.mod_lt _ (by decide)
      generalize part : min left (bsize - off % bsize) = m
      have copied := storeBytes_uses dst ((List.range m).map fun j => ip.data (off + j))
      rw [List.length_map, List.length_range] at copied
      rw [block_split dst (show m ≤ left by omega)]
      apply copied.bind
      intro _
      exact ih _ _ _ (by omega)

/-- `readi` copies from the blocks of the inode. -/
def Inode.Copies (ip : Inode) (off n : UInt32) : Prop :=
  ip.type ≠ tDev ∧ off ≤ ip.size ∧ off ≤ off + n

/-- The number of bytes it copies then. -/
def Inode.readCount (ip : Inode) (off n : UInt32) : Nat :=
  (if off + n > ip.size then ip.size - off else n).toNat

theorem readi_uses {off : UInt32} (dst : UInt32) (copies : ip.Copies off n) :
    Uses (readi ip dst off n) (block dst (ip.readCount off n)) := by
  intro s
  unfold readi
  rw [if_neg copies.1, if_neg]
  · exact Wp.bind (readiLoop_uses dst off.toNat _ (Nat.le_refl _) s) (fun _ => id)
      fun _ _ touches => touches
  · rw [not_or, gt_iff_lt, UInt32.not_lt, UInt32.not_lt]
    exact copies.2

theorem readi_keepsTo {off : UInt32} (dst : UInt32) (not : ¬ ip.Copies off n) :
    KeepsTo (readi ip dst off n) (block dst (int n).toNat) := by
  unfold readi
  split
  · split
    · exact .pure _
    · exact consoleread_keepsTo dst (int n)
  · rename_i file
    rw [if_pos]
    · exact .pure _
    · by_contra range
      rw [not_or, gt_iff_lt, UInt32.not_lt, UInt32.not_lt] at range
      exact not ⟨file, range⟩

theorem Inode.Copies.readCount_eq {off : UInt32} (copies : ip.Copies off n) :
    ip.readCount off n = min n.toNat (ip.size.toNat - off.toNat) := by
  obtain ⟨-, inside, noWrap⟩ := copies
  rw [UInt32.le_iff_toNat_le] at inside noWrap
  rw [UInt32.toNat_add] at noWrap
  have offBound := off.toNat_lt
  have countBound := n.toNat_lt
  unfold readCount
  split
  · rename_i clipped
    rw [gt_iff_lt, UInt32.lt_iff_toNat_lt, UInt32.toNat_add] at clipped
    rw [UInt32.toNat_sub_of_le _ _ (UInt32.le_iff_toNat_le.mpr inside)]
    omega
  · rename_i whole
    rw [gt_iff_lt, UInt32.not_lt, UInt32.le_iff_toNat_le, UInt32.toNat_add] at whole
    omega

theorem fileread_keepsTo {addr : UInt32} (nonneg : 0 ≤ int n) :
    KeepsTo (fileread f addr n) (block addr n.toNat) := by
  have count : (int n).toNat = n.toNat := by rw [int_of_nonneg nonneg]; rfl
  apply KeepsTo.get.bind
  intro s
  dsimp only
  split
  · exact .pure _
  · split
    · rw [← count]
      exact piperead_keepsTo _ addr (int n)
    · have copied : KeepsTo (readi (s.file f).ip addr (s.file f).off n) (block addr n.toNat) := by
        by_cases copies : (s.file f).ip.Copies (s.file f).off n
        · apply (readi_uses addr copies).keepsTo
          apply block_mono
          rw [copies.readCount_eq]
          exact Nat.min_le_left _ _
        · rw [← count]
          exact readi_keepsTo addr copies
      apply copied.bind
      intro r
      split
      · exact (KeepsTo.setFile _ _).bind fun _ => KeepsTo.pure _
      · exact .pure _
    · exact fun _ => trivial

theorem writeiLoop_keepsTo (data : Nat → UInt8) (src : UInt32) (off left : Nat) :
    KeepsTo (writeiLoop turns data src off left) (block src left) := by
  induction turns generalizing data src off left with
  | zero => exact .pure _
  | succ turns ih =>
    unfold writeiLoop
    split
    · exact .pure _
    · generalize part : min left (bsize - off % bsize) = m
      rw [block_split src (show m ≤ left by omega)]
      apply ((loadBytes_uses src m).keepsTo Set.subset_union_left).bind
      intro bytes
      exact (ih _ _ _ _).mono Set.subset_union_right

theorem writei_keepsTo (ip : Inode) (src off : UInt32) (nonneg : 0 ≤ int n) :
    KeepsTo (writei ip src off n) (block src n.toNat) := by
  unfold writei
  split
  · split
    · exact .pure _
    · refine .bind ?_ fun _ => .pure _
      apply KeepsTo.bind _ fun _ => .pure _
      apply (loadBytes_uses src _).keepsTo
      rw [int_of_nonneg nonneg]
      exact subset_rfl
  · split
    · exact .pure _
    · split
      · exact .pure _
      · exact (writeiLoop_keepsTo _ _ _ _).bind fun _ => .pure _

theorem filewriteLoop_keepsTo (addr : UInt32) (left : Nat) :
    KeepsTo (filewriteLoop f turns addr left) (block addr left) := by
  induction turns generalizing addr left with
  | zero => exact KeepsTo.pure _
  | succ turns ih =>
    unfold filewriteLoop
    split
    · exact KeepsTo.pure _
    · have cap : min left maxChunk ≤ 6656 := Nat.min_le_right _ _
      generalize part : min left maxChunk = n1 at cap
      have exactCount : (UInt32.ofNat n1).toNat = n1 :=
        UInt32.toNat_ofNat_of_lt' (lt_of_le_of_lt cap (by decide))
      rw [block_split addr (show n1 ≤ left by omega)]
      apply KeepsTo.get.bind
      intro s
      have nonneg : 0 ≤ int (UInt32.ofNat n1) := by
        unfold int
        rw [exactCount]
        split <;> omega
      have written := writei_keepsTo (s.file f).ip addr (s.file f).off nonneg
      rw [exactCount] at written
      apply (written.mono Set.subset_union_left).bind
      rintro ⟨r, ip⟩
      apply (KeepsTo.setFile _ _).bind
      intro _
      split
      · exact KeepsTo.pure _
      · split
        · exact fun _ => trivial
        · exact (ih _ _).mono Set.subset_union_right

theorem filewrite_keepsTo {addr : UInt32} :
    KeepsTo (filewrite f addr n) (block addr (int n).toNat) := by
  apply KeepsTo.get.bind
  intro s
  dsimp only
  split
  · exact .pure _
  · split
    · apply (pipewriteLoop_keepsTo _ addr 0 _).bind
      intro done
      split <;> exact .pure _
    · split
      · exact .pure _
      · apply (filewriteLoop_keepsTo addr _).bind
        intro done
        split <;> exact .pure _
    · exact fun _ => trivial

theorem stati_keepsTo (ip : Inode) (st : UInt32) : KeepsTo (stati ip st) (block st 20) := by
  unfold stati
  apply ((storeWord_uses (st + 4) _).keepsTo (block_inner st (by decide))).bind
  intro _
  apply ((storeWord_uses (st + 8) _).keepsTo (block_inner st (by decide))).bind
  intro _
  apply ((storeBytes_uses st _).keepsTo (block_mono st (by simp [halfBytes]))).bind
  intro _
  apply ((storeBytes_uses (st + 12) _).keepsTo (block_inner st (by simp [halfBytes]))).bind
  intro _
  exact (storeWord_uses (st + 16) _).keepsTo (block_inner st (by decide))

theorem cmostime_uses (r : UInt32) : ∃ A ⊆ block r 24, Uses (cmostime r) A := by
  refine ⟨_, ?_, Uses.get.bind fun _ => (storeWord_uses r _).bind fun _ =>
    (storeWord_uses (r + 4) _).bind fun _ => (storeWord_uses (r + 8) _).bind fun _ =>
    (storeWord_uses (r + 12) _).bind fun _ => (storeWord_uses (r + 16) _).bind fun _ =>
    (storeWord_uses (r + 20) _).bind fun _ => (loadBytes_uses (r + 20) 4).bind fun _ =>
    storeWord_uses (r + 20) _⟩
  apply Set.union_subset (Set.empty_subset _)
  apply Set.union_subset (block_mono r (by decide))
  apply Set.union_subset (block_inner r (by decide))
  apply Set.union_subset (block_inner r (by decide))
  apply Set.union_subset (block_inner r (by decide))
  apply Set.union_subset (block_inner r (by decide))
  apply Set.union_subset (block_inner r (by decide))
  apply Set.union_subset (block_inner r (by decide))
  exact block_inner r (by decide)

/-! ## The process table -/

/-- The addresses that `getProcInfo` uses for one process. -/
def entryBlocks (entry : UInt32) (p : ProcInfo) : Set UInt32 :=
  block entry 4 ∪ (block (entry + 4) 4 ∪ (block (entry + 8) 4 ∪ (block (entry + 12) 4 ∪
    (block (entry + 36) 4 ∪ (block (entry + 16) 4 ∪
      (block (entry + 40) p.name.length ∪ block (entry + 20) 7))))))

/-- The addresses that `getProcInfo` uses for a list of processes. -/
def tableBlocks (table : UInt32) : List ProcInfo → Set UInt32
  | [] => ∅
  | p :: procs => entryBlocks table p ∪ tableBlocks (table + uprocSize) procs

theorem length_stateText (state : Process.ProcState) :
    (textBytes (stateText state)).length = 7 := by
  cases state <;> rfl

theorem storeEntry_uses (entry : UInt32) (p : ProcInfo) :
    Uses (storeEntry entry p) (entryBlocks entry p) := by
  apply (storeWord_uses entry _).bind
  intro _
  apply (storeWord_uses (entry + 4) _).bind
  intro _
  apply (storeWord_uses (entry + 8) _).bind
  intro _
  apply (storeWord_uses (entry + 12) _).bind
  intro _
  apply (storeWord_uses (entry + 36) _).bind
  intro _
  apply (storeWord_uses (entry + 16) _).bind
  intro _
  apply (storeBytes_uses (entry + 40) _).bind
  intro _
  rw [← length_stateText p.state]
  exact storeBytes_uses (entry + 20) _

theorem getProcInfoLoop_uses (table : UInt32) (procs : List ProcInfo) :
    Uses (getProcInfoLoop table procs) (tableBlocks table procs) := by
  induction procs generalizing table with
  | nil => exact Touches.refl
  | cons p procs ih =>
    exact (storeEntry_uses table p).bind fun _ => ih _

/-- An entry ends with the name. -/
theorem entryBlocks_below_iff {entry sz : UInt32} {p : ProcInfo}
    (small : entry.toNat + 56 < 2 ^ 32) :
    (∀ a ∈ entryBlocks entry p, a < sz) ↔
      entry.toNat + 40 + p.name.length ≤ sz.toNat := by
  have named := p.named
  constructor
  · intro below
    have last : entry + UInt32.ofNat (39 + p.name.length) ∈ entryBlocks entry p := by
      unfold entryBlocks
      by_cases empty : p.name.length = 0
      · rw [empty]
        iterate 4 apply Set.mem_union_right
        apply Set.mem_union_left
        refine ⟨3, by decide, ?_⟩
        rw [UInt32.add_assoc]
        rfl
      · iterate 6 apply Set.mem_union_right
        apply Set.mem_union_left
        refine ⟨p.name.length - 1, by omega, ?_⟩
        have sum : 39 + p.name.length = 40 + (p.name.length - 1) := by omega
        rw [sum, UInt32.ofNat_add, UInt32.add_assoc]
        rfl
    have lastBelow := below _ last
    rw [UInt32.lt_iff_toNat_lt, toNat_offset (by omega)] at lastBelow
    omega
  · intro fits a mem
    have inside : a ∈ block entry (40 + p.name.length) := by
      rcases mem with mem | mem | mem | mem | mem | mem | mem | mem
      · exact block_mono entry (by omega) mem
      · exact block_inner entry (k := 4) (by omega) mem
      · exact block_inner entry (k := 8) (by omega) mem
      · exact block_inner entry (k := 12) (by omega) mem
      · exact block_inner entry (k := 36) (by omega) mem
      · exact block_inner entry (k := 16) (by omega) mem
      · exact block_inner entry (k := 40) (by omega) mem
      · exact block_inner entry (k := 20) (by omega) mem
    exact block_below (by omega) inside

/-- Every process has its entry, up to the end of its name, below `sz`. -/
def RoomFor (table sz : Nat) (procs : List ProcInfo) : Prop :=
  ∀ k p, procs[k]? = some p → table + 56 * k + 40 + p.name.length ≤ sz

theorem roomFor_cons {table sz : Nat} {p : ProcInfo} :
    RoomFor table sz (p :: procs) ↔
      table + 40 + p.name.length ≤ sz ∧ RoomFor (table + 56) sz procs := by
  constructor
  · intro room
    refine ⟨room 0 p rfl, fun k q at_k => ?_⟩
    have entry := room (k + 1) q at_k
    omega
  · rintro ⟨first, rest⟩ k q at_k
    cases k with
    | zero =>
      obtain rfl := Option.some.inj at_k
      exact first
    | succ k =>
      have entry := rest k q at_k
      omega

theorem tableBlocks_below_iff {table sz : UInt32}
    (small : table.toNat + 56 * procs.length < 2 ^ 32) :
    (∀ a ∈ tableBlocks table procs, a < sz) ↔ RoomFor table.toNat sz.toNat procs := by
  induction procs generalizing table with
  | nil => simp [tableBlocks, RoomFor]
  | cons p procs ih =>
    rw [List.length_cons] at small
    have step : (table + uprocSize).toNat = table.toNat + 56 :=
      toNat_offset (k := 56) (by omega)
    have rest := @ih (table + uprocSize) (by omega)
    rw [roomFor_cons, ← step, ← rest, ← entryBlocks_below_iff (by omega)]
    simp only [tableBlocks, Set.mem_union, or_imp, forall_and]

end Xv6.User
