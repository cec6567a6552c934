import Xv6.Malloc.Calls

/-!
# Integrity of the heap

A program calls `malloc` and `free` in any order and writes to the blocks it holds.  In every
state it reaches both functions return, the free blocks form a circular list that goes upwards
without two blocks that touch, no two blocks overlap, and all of them together are what
`sbrk` has given.
-/

namespace Xv6.Malloc

open Stateful Linked Extents Relation

/-- What `malloc` has returned for a request, and `free` has not taken back. -/
structure Grant where
  ptr : Nat
  nbytes : Nat
  deriving DecidableEq

/-- The address of the header. -/
def Grant.header (g : Grant) : Nat :=
  g.ptr - headerSize

/-- A program and the blocks that it holds. -/
structure Client where
  heap : Heap
  live : List Grant

namespace Client

/-- The allocated blocks. -/
def blocks (s : Client) : List Nat :=
  s.live.map Grant.header

/-- `a` is behind the header of an allocated block and in the block. -/
def Inside (s : Client) (a : Nat) : Prop :=
  ∃ b ∈ s.blocks, b < a ∧ a < (s.heap.extent b).stop

/-- A program when it starts. -/
structure Initial (set : Setting) (s : Client) : Prop where
  null : s.heap.freep = 0
  nothing : s.heap.obtained = 0
  above : set.base + headerSize ≤ s.heap.brk
  below : s.heap.brk < 2 ^ 32
  free : s.live = []

/-- One step of a program. -/
inductive Step (set : Setting) (s : Client) : Client → Prop
  /-- A call of `malloc` that gives a block. -/
  | malloc {nbytes q : Nat} {h' : Heap} (small : nbytes < 2 ^ 31 - 2 ^ 16)
      (ran : (set.malloc nbytes).run s.heap = .ok (q, h')) (given : q ≠ 0) :
      Step set s ⟨h', ⟨q, nbytes⟩ :: s.live⟩
  /-- A call of `malloc` that returns the null pointer. -/
  | refused {nbytes : Nat} {h' : Heap} (small : nbytes < 2 ^ 31 - 2 ^ 16)
      (ran : (set.malloc nbytes).run s.heap = .ok (0, h')) : Step set s ⟨h', s.live⟩
  /-- A call of `free`. -/
  | free {g : Grant} {h' : Heap} (held : g ∈ s.live)
      (ran : (Malloc.free g.ptr).run s.heap = .ok ((), h')) : Step set s ⟨h', s.live.erase g⟩
  /-- The program writes to its blocks. -/
  | write {mem : Nat → Header} (own : ∀ a, ¬ s.Inside a → mem a = s.heap.mem a) :
      Step set s ⟨{ s.heap with mem := mem }, s.live⟩

/-- The heap is as it should be. -/
structure Integrity (set : Setting) (s : Client) (free : List Nat) : Prop where
  /-- The free list is one circular list through `base`. -/
  circular : Route s.heap.next set.base (set.base :: free) set.base
  roving : s.heap.freep ∈ set.base :: free
  upwards : (set.base :: free).Pairwise (· < ·)
  /-- No two blocks overlap, free or allocated. -/
  disjoint : ((free ++ s.blocks).map s.heap.extent).Pairwise Extent.Apart
  untouched : ∀ a ∈ free, ∀ b ∈ free, (s.heap.extent a).stop ≠ b
  room : ∀ g ∈ s.live, headerSize + g.nbytes ≤ headerSize * s.heap.size g.header
  units : headerSize * ((free ++ s.blocks).map s.heap.size).sum = s.heap.obtained

/-- The list has not been set up yet, or the blocks are in shape. -/
structure Sound (set : Setting) (s : Client) : Prop where
  shape : s.Initial set ∨ ∃ free, s.heap.Shaped set.base free s.blocks
  room : ∀ g ∈ s.live, headerSize + g.nbytes ≤ headerSize * s.heap.size g.header

end Client

/-! ## Calls -/

variable {mem : Nat → Header}

namespace Heap.Shaped

variable {h h' : Heap} {base z : Nat} {free used used' : List Nat}

variable (shaped : h.Shaped base free used)
include shaped

/-- The order of the blocks in use does not matter. -/
theorem perm (perm : used.Perm used') : h.Shaped base free used' := by
  have blocks := (perm.append_left free).map h.extent
  refine ⟨shaped.cycle, shaped.roving, shaped.empty, shaped.separated,
    shaped.packed.perm blocks, ?_, shaped.above, shaped.below⟩
  rw [← total_perm blocks]
  exact shaped.covers

/-- The shape depends on the headers of the blocks only. -/
theorem congr (same : ∀ z ∈ base :: (free ++ used), mem z = h.mem z) :
    ({ h with mem := mem } : Heap).Shaped base free used := by
  have extents : ∀ z ∈ base :: (free ++ used),
      ({ h with mem := mem } : Heap).extent z = h.extent z := by
    intro z member
    rw [extent, extent, size, size]
    exact congrArg (fun header => (⟨z, headerSize * header.size⟩ : Extent)) (same z member)
  have listed : (base :: free).map ({ h with mem := mem } : Heap).extent =
      (base :: free).map h.extent :=
    List.map_congr_left fun z member => extents z (by grind)
  have blocks : (free ++ used).map ({ h with mem := mem } : Heap).extent =
      (free ++ used).map h.extent :=
    List.map_congr_left fun z member => extents z (List.mem_cons_of_mem _ member)
  refine ⟨?_, shaped.roving, ?_, ?_, ?_, ?_, shaped.above, shaped.below⟩
  · apply shaped.cycle.congr
    intro z member
    exact congrArg Header.ptr (same z (by grind))
  · exact (congrArg Header.size (same base List.mem_cons_self)).trans shaped.empty
  · rw [listed]
    exact shaped.separated
  · rw [blocks]
    exact shaped.packed
  · rw [blocks]
    exact shaped.covers

/-- The pointer to the block `z`. -/
theorem advance_eq (member : z ∈ used) : advance z 1 = z + headerSize := by
  have listed : z ∈ free ++ used := List.mem_append_right _ member
  have below := shaped.stop_lt (List.mem_cons_of_mem base listed)
  have positive := shaped.packed.positive _ (List.mem_map_of_mem listed)
  simp only [extent, Extent.stop, headerSize] at below positive
  simp only [advance, headerSize]
  omega

end Heap.Shaped

namespace Client

variable {set : Setting} {s s' : Client}

/-- The first call of `malloc` sets up the list. -/
theorem Sound.start (sound : s.Sound set) :
    ∃ free, (set.start s.heap).Shaped set.base free s.blocks ∧
      ∀ c ∈ s.blocks, (set.start s.heap).mem c = s.heap.mem c := by
  unfold Setting.start
  rcases sound.shape with initial | ⟨free, shaped⟩
  · have noBlocks : s.blocks = [] := by simp [blocks, initial.free]
    rw [if_pos initial.null, noBlocks]
    refine ⟨[], ⟨⟨rfl, ?_⟩, List.mem_cons_self, ?_, List.pairwise_singleton _ _, packed_nil _ _,
      initial.nothing.symm, initial.above, initial.below⟩, by simp⟩
    · change (s.heap.store set.base ⟨set.base, 0⟩).next set.base = set.base
      rw [Heap.next_store, Function.update_self]
    · change (s.heap.store set.base ⟨set.base, 0⟩).size set.base = 0
      rw [Heap.size_store, Function.update_self]
  · have nonnull : s.heap.freep ≠ 0 := by
      have basePos := set.base_pos
      rcases List.mem_cons.mp shaped.roving with isBase | listed
      · omega
      · have above := shaped.base_lt (List.mem_append_left s.blocks listed)
        omega
    rw [if_neg nonnull]
    exact ⟨free, shaped, fun _ _ => rfl⟩

variable {nbytes : Nat}

theorem malloc_spec (sound : s.Sound set) (small : nbytes ≤ 2 ^ 31 - 16) :
    Wp (set.malloc nbytes) (fun _ => False) (fun q h' =>
      q ≠ 0 ∧ Sound set ⟨h', ⟨q, nbytes⟩ :: s.live⟩ ∨ q = 0 ∧ Sound set ⟨h', s.live⟩ ∧
        h' = { set.start s.heap with calls := (set.start s.heap).calls + 1 }) s.heap := by
  obtain ⟨free, shaped, started⟩ := sound.start
  obtain ⟨positive, bytes, room⟩ := units_bounds small
  have kept {h' : Heap} (same : ∀ c ∈ s.blocks, h'.mem c = (set.start s.heap).mem c) :
      ∀ g ∈ s.live, headerSize + g.nbytes ≤ headerSize * h'.size g.header := by
    intro g held
    have member : g.header ∈ s.blocks := List.mem_map_of_mem held
    rw [Heap.size, same _ member, started _ member]
    exact sound.room g held
  unfold Setting.malloc
  simp only [wp_bind, wp_modify, wp_get]
  apply (mallocLoop_spec set shaped positive bytes).imp
  rintro q h' (⟨⟨z, free', rfl, shaped', size⟩, same⟩ | ⟨rfl, rfl⟩)
  · rw [shaped'.advance_eq List.mem_cons_self]
    refine .inl ⟨by simp [headerSize], .inr ⟨free', shaped'⟩, ?_⟩
    rw [List.forall_mem_cons]
    refine ⟨?_, kept same⟩
    change _ ≤ headerSize * h'.size z
    rw [size]
    exact room
  · exact .inr ⟨rfl, ⟨.inr ⟨free, shaped.called _⟩, kept fun _ _ => rfl⟩, rfl⟩

theorem malloc_sound (sound : s.Sound set) (small : nbytes < 2 ^ 31 - 2 ^ 16) :
    Wp (set.malloc nbytes) (fun _ => False) (fun q h' =>
      q ≠ 0 ∧ Sound set ⟨h', ⟨q, nbytes⟩ :: s.live⟩ ∨ q = 0 ∧ Sound set ⟨h', s.live⟩) s.heap :=
  (malloc_spec sound (by omega)).imp fun _ _ => Or.imp_right (And.imp_right And.left)

theorem free_sound (sound : s.Sound set) {g : Grant} (held : g ∈ s.live) :
    Wp (Malloc.free g.ptr) (fun _ => False) (fun _ h' => Sound set ⟨h', s.live.erase g⟩)
      s.heap := by
  have member : g.header ∈ s.blocks := List.mem_map_of_mem held
  rcases sound.shape with initial | ⟨free, shaped⟩
  · rw [initial.free] at held
    cases held
  · have perm : s.blocks.Perm (g.header :: (s.live.erase g).map Grant.header) :=
      (List.perm_cons_erase held).map _
    have above := shaped.base_lt (List.mem_append_right free member)
    have pointer : g.ptr = advance g.header 1 := by
      rw [shaped.advance_eq member]
      simp only [Grant.header, headerSize] at above ⊢
      omega
    rw [pointer]
    apply (free_spec (shaped.perm perm)).imp
    rintro _ h' ⟨⟨free', shaped', -⟩, same⟩
    refine ⟨.inr ⟨free', shaped'⟩, fun g' held' => ?_⟩
    change _ ≤ headerSize * h'.size g'.header
    rw [Heap.size, same _ (List.mem_map_of_mem held')]
    exact sound.room g' (List.mem_of_mem_erase held')

theorem write_sound (sound : s.Sound set) (own : ∀ a, ¬ s.Inside a → mem a = s.heap.mem a) :
    Sound set ⟨{ s.heap with mem := mem }, s.live⟩ := by
  rcases sound.shape with initial | ⟨free, shaped⟩
  · refine ⟨.inl ⟨initial.null, initial.nothing, initial.above, initial.below, initial.free⟩, ?_⟩
    simp [initial.free]
  · have same : ∀ z ∈ set.base :: (free ++ s.blocks), mem z = s.heap.mem z := by
      intro z member
      apply own
      rintro ⟨b, isBlock, behind, inside⟩
      have bMember : b ∈ free ++ s.blocks := List.mem_append_right _ isBlock
      rcases List.mem_cons.mp member with rfl | zMember
      · exact Nat.lt_asymm behind (shaped.base_lt bMember)
      · have disjoint : (s.heap.extent b).Apart (s.heap.extent z) :=
          shaped.packed.apart.forall (List.mem_map_of_mem bMember) (List.mem_map_of_mem zMember)
            fun same => behind.ne (congrArg Extent.start same)
        simp only [Extent.Apart, Heap.extent, Extent.stop] at disjoint inside
        omega
    refine ⟨.inr ⟨free, shaped.congr same⟩, fun g held => ?_⟩
    have isBlock : g.header ∈ s.blocks := List.mem_map_of_mem held
    change _ ≤ headerSize * (mem g.header).size
    rw [same _ (by simp [isBlock])]
    exact sound.room g held

theorem Step.sound (step : Step set s s') (sound : s.Sound set) : s'.Sound set := by
  cases step with
  | malloc small ran given =>
    rcases (malloc_sound sound small).ok ran with ⟨-, sound'⟩ | ⟨null, -⟩
    · exact sound'
    · exact (given null).elim
  | refused small ran =>
    rcases (malloc_sound sound small).ok ran with ⟨given, -⟩ | ⟨-, sound'⟩
    · exact (given rfl).elim
    · exact sound'
  | free held ran => exact (free_sound sound held).ok ran
  | write own => exact write_sound sound own

theorem Initial.sound (initial : s.Initial set) : s.Sound set :=
  ⟨.inl initial, by simp [initial.free]⟩

theorem Sound.of_reaches (sound : s.Sound set) (reaches : ReflTransGen (Step set) s s') :
    s'.Sound set := by
  induction reaches with
  | refl => exact sound
  | tail _ step ih => exact step.sound ih

theorem total_extent (h : Heap) (blocks : List Nat) :
    total (blocks.map h.extent) = headerSize * (blocks.map h.size).sum := by
  induction blocks with
  | nil => rfl
  | cons b blocks ih =>
    simp [ih, Nat.mul_add, Heap.extent]

theorem Sound.integrity (sound : s.Sound set) : s.Initial set ∨ ∃ free, s.Integrity set free := by
  rcases sound.shape with initial | ⟨free, shaped⟩
  · exact .inl initial
  · refine .inr ⟨free, shaped.cycle, shaped.roving, shaped.sorted, shaped.packed.apart, ?_,
      sound.room, ?_⟩
    · intro a aFree b bFree
      have separated : Separated (free.map s.heap.extent) :=
        (List.pairwise_cons.mp shaped.separated).2
      refine separated.untouched (fun e member => ?_) _ (List.mem_map_of_mem aFree) _
        (List.mem_map_of_mem bFree)
      exact shaped.packed.positive e (by simp [List.map_append, member])
    · rw [← total_extent]
      exact shaped.covers

/-- Heap integrity of `malloc` and `free`.  In every state of every program both functions
return; before the first call of `malloc` nothing is allocated, and from then on the heap is as
it should be. -/
theorem heap_integrity {s₀ : Client} (initial : s₀.Initial set)
    (reaches : ReflTransGen (Step set) s₀ s) :
    (s.Initial set ∨ ∃ free, s.Integrity set free) ∧
      (∀ nbytes < 2 ^ 31 - 2 ^ 16, ∃ q h', (set.malloc nbytes).run s.heap = .ok (q, h')) ∧
      ∀ g ∈ s.live, ∃ h', (Malloc.free g.ptr).run s.heap = .ok ((), h') := by
  have sound := initial.sound.of_reaches reaches
  refine ⟨sound.integrity, fun nbytes small => ?_, fun g held => ?_⟩
  · obtain ⟨q, h', ran, -⟩ := (malloc_sound sound small).returns
    exact ⟨q, h', ran⟩
  · obtain ⟨_, h', ran, -⟩ := (free_sound sound held).returns
    exact ⟨h', ran⟩

/-- `malloc` gives a block that is large enough, apart from all others and below the break, or it
returns the null pointer and changes no block. -/
def Grants (set : Setting) (s : Client) (nbytes : Nat) : Prop :=
  ∃ q h', (set.malloc nbytes).run s.heap = .ok (q, h') ∧
    (q ≠ 0 ∧ q + nbytes ≤ h'.brk ∧
        (∃ free, (⟨h', ⟨q, nbytes⟩ :: s.live⟩ : Client).Integrity set free) ∨
      q = 0 ∧ h' = { set.start s.heap with calls := (set.start s.heap).calls + 1 })

theorem malloc_grants (sound : s.Sound set) (small : nbytes ≤ 2 ^ 31 - 16) :
    s.Grants set nbytes := by
  obtain ⟨q, h', ran, ⟨given, sound'⟩ | ⟨rfl, -, same⟩⟩ := (malloc_spec sound small).returns
  · refine ⟨q, h', ran, .inl ⟨given, ?_, sound'.integrity.resolve_left fun initial => ?_⟩⟩
    swap
    · cases initial.free
    have room := sound'.room ⟨q, nbytes⟩ List.mem_cons_self
    rcases sound'.shape with initial | ⟨free, shaped⟩
    · cases initial.free
    · have below := shaped.packed.below (h'.extent (q - headerSize))
        (List.mem_map_of_mem (List.mem_append_right _ List.mem_cons_self))
      simp only [Heap.extent, Extent.stop, Grant.header, headerSize] at below room
      omega
  · exact ⟨0, h', ran, .inr ⟨rfl, same⟩⟩

/-- A program with `base` at address 4100, and a system that never refuses memory. -/
def generous : Setting :=
  ⟨4100, by decide, fun _ => some 0⟩

/-- The program when it starts. -/
def fresh (brk : Nat) : Client :=
  ⟨⟨fun _ => ⟨0, 0⟩, 0, brk, 0, 0⟩, []⟩

theorem fresh_initial {brk : Nat} (above : 4108 ≤ brk) (below : brk < 2 ^ 32) :
    (fresh brk).Initial generous :=
  ⟨rfl, rfl, above, below, rfl⟩

/-- `nbytes + sizeof(Header) - 1` wraps around: the block has one unit, which is its header. -/
theorem fresh_malloc_last : ((generous.malloc (2 ^ 32 - 1)).run (fresh 8200).heap).map (fun r =>
    (r.1, r.2.size (r.1 - headerSize), r.2.brk)) = .ok (40968, 1, 40968) := by
  decide +kernel

theorem fresh_sound {brk : Nat} (above : 4108 ≤ brk) (below : brk < 2 ^ 32) :
    (fresh brk).Sound generous :=
  (fresh_initial above below).sound

theorem malloc_wraps : (fresh 8200).Sound generous ∧
    ((generous.malloc (2 ^ 32 - 1)).run (fresh 8200).heap).map (fun r =>
      (r.1, r.2.size (r.1 - headerSize), r.2.brk)) = .ok (40968, 1, 40968) :=
  ⟨fresh_sound (by decide) (by decide), fresh_malloc_last⟩

/-- If `sbrk` gets an `int` that is 0 or negative the block is behind the break. -/
theorem malloc_strays {b : Nat} (large : 2 ^ 31 - 15 ≤ nbytes) (noWrap : nbytes ≤ 2 ^ 32 - 8)
    (isBreak : b = 8200 ∨ b = 8208) (notAll : b + units nbytes * headerSize ≠ 2 ^ 32) :
    Wp (generous.malloc nbytes) (fun _ => False) (fun q h' => q = b + 8 ∧ h'.brk ≤ b)
      (fresh b).heap := by
  obtain ⟨n, isUnits, atLeast, atMost⟩ : ∃ n, units nbytes = n ∧ 2 ^ 28 ≤ n ∧ n ≤ 2 ^ 29 := by
    refine ⟨_, rfl, ?_⟩
    unfold units headerSize
    omega
  rw [isUnits] at notAll
  obtain ⟨sz, size, shrinks⟩ :
      ∃ sz, growproc b (n * headerSize % 2 ^ 32) = some sz ∧ sz ≤ b := by
    unfold growproc
    unfold headerSize at notAll ⊢
    split_ifs with zero positive
    · exact ⟨_, rfl, Nat.le_refl _⟩
    · omega
    · omega
    · dsimp only
      rw [if_neg (by omega)]
      exact ⟨_, rfl, Nat.min_le_left _ _⟩
  have apart : advance b n ≠ 4100 := by
    unfold advance headerSize
    omega
  obtain ⟨fuel, isRounds⟩ : ∃ fuel, rounds = fuel + 2 := ⟨rounds - 2, by unfold rounds; omega⟩
  have block : (b + 8 + 2 ^ 32 - headerSize) % 2 ^ 32 = b ∧ advance b 1 = b + 8 := by
    unfold advance headerSize
    omega
  have base : advance 4100 0 = 4100 := by decide
  have away : b ≠ 4100 ∧ 4100 ≠ b ∧ 4100 < b ∧ b ≠ 2 ^ 32 - 1 := by omega
  have many : ¬ n ≤ 0 ∧ ¬ n < 4096 := by omega
  -- the block is put behind `base`, found there and taken as a whole
  unfold Setting.malloc
  simp [-Nat.reducePow, -bind_pure_comp, Setting.mallocLoop, Setting.start, Setting.morecore,
    Setting.sbrk, Malloc.free, freeLoop, take, fresh, generous, Heap.size, Heap.store, Heap.next,
    Heap.link, wp_bind, wp_modify, wp_get, isUnits, isRounds, size, shrinks, block, base, apart,
    away, many]

/-- `malloc` grants every request on every heap just up to `2 ^ 31 - 16` bytes. -/
theorem malloc_grants_iff (word : nbytes < 2 ^ 32) :
    (∀ set s, Sound set s → s.Grants set nbytes) ↔ nbytes ≤ 2 ^ 31 - 16 := by
  refine ⟨fun grants => ?_, fun small set s sound => malloc_grants sound small⟩
  by_contra large
  by_cases noWrap : nbytes ≤ 2 ^ 32 - 8
  · obtain ⟨b, isBreak, notAll⟩ :
        ∃ b, (b = 8200 ∨ b = 8208) ∧ b + units nbytes * headerSize ≠ 2 ^ 32 := by
      by_cases all : 8200 + units nbytes * headerSize = 2 ^ 32
      · exact ⟨8208, .inr rfl, by omega⟩
      · exact ⟨8200, .inl rfl, all⟩
    obtain ⟨q, h', ran, granted⟩ :=
      grants generous (fresh b) (fresh_sound (by omega) (by omega))
    obtain ⟨rfl, behind⟩ := (malloc_strays (by omega) noWrap isBreak notAll).ok ran
    omega
  · have one : units nbytes = units (2 ^ 32 - 1) := by
      unfold units headerSize
      omega
    have wraps := fresh_malloc_last
    obtain ⟨q, h', ran, granted⟩ :=
      grants generous (fresh 8200) (fresh_sound (by decide) (by decide))
    have same : (generous.malloc (2 ^ 32 - 1)).run (fresh 8200).heap = .ok (q, h') := by
      rw [← ran, Setting.malloc, Setting.malloc, one]
    rw [same] at wraps
    simp only [Except.map, Except.ok.injEq, Prod.mk.injEq] at wraps
    omega

theorem malloc_grants_ten : (fresh 8200).Grants generous 10 :=
  (malloc_grants_iff (by decide)).mpr (by decide) _ _ (fresh_sound (by decide) (by decide))

theorem exists_heap {ε : Type} {run : Except ε (Nat × Heap)} {q : Nat}
    (returned : run.map Prod.fst = .ok q) :
    ∃ h, run = .ok (q, h) := by
  cases run with
  | error => cases returned
  | ok result => exact ⟨result.2, by rw [← Except.ok.inj returned]⟩

/-- Two calls of `malloc`. -/
theorem fresh_mallocs : ((generous.malloc 10).run (fresh 8200).heap).map Prod.fst = .ok 40952 ∧
    ((generous.malloc 10 >>= fun _ => generous.malloc 20).run (fresh 8200).heap).map Prod.fst =
      .ok 40920 := by
  decide +kernel

/-- The first of two blocks is freed again. -/
theorem heap_integrity_of_calls : ∃ s : Client,
    ReflTransGen (Step generous) (fresh 8200) s ∧ s.live = [⟨40920, 20⟩] ∧
      (s.Initial generous ∨ ∃ free, s.Integrity generous free) ∧
      ∃ h', (Malloc.free 40920).run s.heap = .ok ((), h') := by
  have initial : (fresh 8200).Initial generous := fresh_initial (by decide) (by decide)
  obtain ⟨first, second⟩ := fresh_mallocs
  obtain ⟨h₁, ran₁⟩ := exists_heap first
  rw [StateT.run_bind, ran₁] at second
  obtain ⟨h₂, ran₂⟩ := exists_heap second
  have one : Step generous (fresh 8200) ⟨h₁, [⟨40952, 10⟩]⟩ := .malloc (by decide) ran₁ (by decide)
  have two : Step generous ⟨h₁, [⟨40952, 10⟩]⟩ ⟨h₂, [⟨40920, 20⟩, ⟨40952, 10⟩]⟩ :=
    .malloc (by decide) ran₂ (by decide)
  obtain ⟨-, -, frees⟩ := heap_integrity initial ((ReflTransGen.single one).tail two)
  obtain ⟨h₃, ran₃⟩ := frees ⟨40952, 10⟩ (by simp)
  have run := ((ReflTransGen.single one).tail two).tail (.free (by simp) ran₃)
  obtain ⟨integrity, -, frees⟩ := heap_integrity initial run
  exact ⟨_, run, rfl, integrity, frees ⟨40920, 20⟩ (by simp)⟩

end Client

end Xv6.Malloc
