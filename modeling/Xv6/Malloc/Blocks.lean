import Xv6.Lib.Extents
import Xv6.Lib.Route
import Xv6.Malloc.Code

/-!
# The blocks of the allocator

The free blocks form a circular list through `base` that goes upwards; the free blocks and
the blocks in use are packed into the region of `sbrk`.  `free` attaches a block to the ones
after it, and the block before to the result.
-/

namespace Xv6.Malloc

open Stateful Linked Extents Function

namespace Heap

variable {h h' : Heap} {x y z : Nat}

/-- The bytes of a block. -/
def extent (h : Heap) (p : Nat) : Extent :=
  ⟨p, headerSize * h.size p⟩

/-- The list of free blocks is `base :: free`, the blocks in use are `used`. -/
structure Shaped (h : Heap) (base : Nat) (free used : List Nat) : Prop where
  cycle : Route h.next base (base :: free) base
  roving : h.freep ∈ base :: free
  empty : h.size base = 0
  separated : Separated ((base :: free).map h.extent)
  packed : Packed (base + headerSize) h.brk ((free ++ used).map h.extent)
  covers : total ((free ++ used).map h.extent) = h.obtained
  above : base + headerSize ≤ h.brk
  below : h.brk < 2 ^ 32

/-! ## Stores -/

@[simp]
theorem next_store (header : Header) : (h.store x header).next = update h.next x header.ptr := by
  funext z
  by_cases same : z = x
  · simp [next, store, same]
  · simp [next, store, same]

@[simp]
theorem size_store (header : Header) : (h.store x header).size = update h.size x header.size := by
  funext z
  by_cases same : z = x
  · simp [size, store, same]
  · simp [size, store, same]

theorem extent_store (header : Header) :
    (h.store x header).extent =
      update h.extent x ⟨x, headerSize * header.size⟩ := by
  funext z
  by_cases same : z = x
  · simp [extent, same]
  · simp [extent, same]

theorem map_extent_store {header : Header} {blocks : List Nat} (fresh : x ∉ blocks) :
    blocks.map (h.store x header).extent = blocks.map h.extent := by
  apply List.map_congr_left
  intro z member
  rw [extent_store, update_of_ne (ne_of_mem_of_not_mem member fresh)]

/-! ## `link` -/

theorem link_cases (xBelow : (h.extent x).stop < 2 ^ 32) (yBelow : (h.extent y).stop < 2 ^ 32) :
    (h.extent x).stop = y ∧ h.link x y = h.store x ⟨h.next y, h.size x + h.size y⟩ ∨
      (h.extent x).stop ≠ y ∧ h.link x y = h.store x ⟨y, h.size x⟩ := by
  have noWrap : advance x (h.size x) = (h.extent x).stop := Nat.mod_eq_of_lt xBelow
  unfold link
  rw [noWrap]
  by_cases touch : (h.extent x).stop = y
  · have small : h.size x + h.size y < 2 ^ 32 := by
      simp only [extent, Extent.stop, headerSize] at touch yBelow
      omega
    rw [if_pos touch, Nat.mod_eq_of_lt small]
    exact .inl ⟨touch, rfl⟩
  · rw [if_neg touch]
    exact .inr ⟨touch, rfl⟩

theorem mem_link_of_ne (ne : z ≠ x) : (h.link x y).mem z = h.mem z := by
  unfold link
  split <;> simp [store, ne]

theorem extent_link_of_ne (ne : z ≠ x) : (h.link x y).extent z = h.extent z := by
  rw [extent, size, mem_link_of_ne ne, extent, size]

theorem link_frame : (h.link x y).brk = h.brk ∧ (h.link x y).obtained = h.obtained := by
  unfold link
  split <;> exact ⟨rfl, rfl⟩

/-- The block `x` is attached to the blocks from `y` on. -/
theorem link_attach {nodes : List Nat} {q : Nat} (route : Route h.next y nodes q)
    (fresh : x ∉ nodes) (last : nodes = [] → (h.extent x).stop ≠ y)
    (xBelow : (h.extent x).stop < 2 ^ 32) (yBelow : (h.extent y).stop < 2 ^ 32) :
    ∃ rest, Route (h.link x y).next x (x :: rest) q ∧ rest <:+ nodes ∧
      (x :: rest).map (h.link x y).extent = (h.extent x).attach (nodes.map h.extent) := by
  rcases link_cases xBelow yBelow with ⟨touch, linked⟩ | ⟨untouched, linked⟩
  · cases nodes with
    | nil => exact (last rfl touch).elim
    | cons c nodes =>
      obtain ⟨rfl, route⟩ := route
      have later : x ∉ nodes := fun member => fresh (List.mem_cons_of_mem _ member)
      refine ⟨nodes, ⟨rfl, ?_⟩, List.suffix_cons _ _, ?_⟩
      · rw [linked, next_store, update_self]
        apply route.congr
        intro c member
        rw [update_of_ne (ne_of_mem_of_not_mem member later)]
      · rw [List.map_cons, linked, map_extent_store later, extent_store, update_self,
          List.map_cons, Extent.attach, if_pos (show _ = (h.extent y).start from touch)]
        simp [extent, Nat.mul_add]
  · refine ⟨nodes, ⟨rfl, ?_⟩, List.suffix_rfl, ?_⟩
    · rw [linked, next_store, update_self]
      apply route.congr
      intro c member
      rw [update_of_ne (ne_of_mem_of_not_mem member fresh)]
    · rw [List.map_cons, linked, map_extent_store fresh, extent_store, update_self]
      cases nodes with
      | nil => rfl
      | cons c nodes =>
        obtain ⟨rfl, -⟩ := route
        rw [List.map_cons, Extent.attach, if_neg (show ¬ _ = (h.extent y).start from untouched)]
        rfl

/-! ## Inserting a block -/

/-- What `free` does for `b` behind `p`. -/
def insert (h : Heap) (p b : Nat) : Heap :=
  { (h.link b (h.next p)).link p b with freep := p }

theorem mem_insert_of_ne {p b : Nat} (first : z ≠ p) (second : z ≠ b) :
    (h.insert p b).mem z = h.mem z :=
  (mem_link_of_ne first).trans (mem_link_of_ne second)

theorem map_extent_insert {p b : Nat} {blocks : List Nat} (first : p ∉ blocks)
    (second : b ∉ blocks) : blocks.map (h.insert p b).extent = blocks.map h.extent := by
  apply List.map_congr_left
  intro z member
  rw [extent, size, mem_insert_of_ne (ne_of_mem_of_not_mem member first)
    (ne_of_mem_of_not_mem member second), extent, size]

/-- The block `b` is attached to the blocks behind it, and `p` to the result. -/
theorem insert_attach {base p b : Nat} {left right : List Nat}
    (cycle : Route h.next base (left ++ p :: right) base) (fresh : b ∉ left ++ p :: right)
    (nodup : (left ++ p :: right).Nodup) (last : (h.extent b).stop ≠ base)
    (below : ∀ z ∈ base :: b :: p :: right, (h.extent z).stop < 2 ^ 32) :
    ∃ rest, Route (h.insert p b).next base (left ++ p :: rest) base ∧
      (p :: rest).map (h.insert p b).extent =
        (h.extent p).attach ((h.extent b).attach (right.map h.extent)) := by
  rw [route_append_cons] at cycle
  obtain ⟨before, after⟩ := cycle
  simp only [List.mem_append, List.mem_cons, not_or] at fresh
  obtain ⟨notLeft, notP, notRight⟩ := fresh
  rw [List.perm_middle.nodup_iff, List.nodup_cons, List.mem_append, not_or] at nodup
  have nextBelow : (h.extent (h.next p)).stop < 2 ^ 32 := by
    cases right with
    | nil => exact below _ (by simp [after.symm])
    | cons c right => exact below _ (by simp [after.1])
  have notLast : right = [] → (h.extent b).stop ≠ h.next p := by
    rintro rfl
    rwa [after]
  obtain ⟨rest, route, suffix, extents⟩ :=
    link_attach after notRight notLast (below b (by simp)) nextBelow
  have sub : rest ⊆ right := suffix.subset
  have bBelow : ((h.link b (h.next p)).extent b).stop < 2 ^ 32 := by
    have member : (h.link b (h.next p)).extent b ∈
        (h.extent b).attach (right.map h.extent) := by
      rw [← extents]
      exact List.mem_cons_self
    obtain ⟨f, member, same⟩ := stop_of_mem_attach member
    rw [same]
    rw [← List.map_cons, List.mem_map] at member
    obtain ⟨c, member, rfl⟩ := member
    apply below
    simp only [List.mem_cons] at member ⊢
    tauto
  have pSame : (h.link b (h.next p)).extent p = h.extent p := extent_link_of_ne (Ne.symm notP)
  have pFresh : p ∉ b :: rest := by
    rw [List.mem_cons, not_or]
    exact ⟨Ne.symm notP, fun member => nodup.1.2 (sub member)⟩
  obtain ⟨rest', route', -, extents'⟩ :=
    link_attach route pFresh (by simp) (by rw [pSame]; exact below p (by simp)) bBelow
  refine ⟨rest', ?_, ?_⟩
  · rw [route_append_cons]
    refine ⟨?_, route'.2⟩
    apply before.congr
    intro z member
    rw [next, mem_insert_of_ne, next]
    · exact ne_of_mem_of_not_mem member nodup.1.1
    · exact ne_of_mem_of_not_mem member notLeft
  · rw [← extents, ← pSame]
    exact extents'

namespace Shaped

variable {base b p : Nat} {free used left right : List Nat}

theorem apart_of_mem (shaped : h.Shaped base free (b :: used)) (member : z ∈ free ++ used) :
    (h.extent b).Apart (h.extent z) := by
  have packed := shaped.packed.perm (List.perm_middle.map _)
  rw [List.map_cons, packed_cons] at packed
  exact packed.2.2.2.1 _ (List.mem_map_of_mem member)

section

variable (shaped : h.Shaped base free used)
include shaped

theorem base_lt (member : z ∈ free ++ used) : base < z := by
  have above := shaped.packed.above _ (List.mem_map_of_mem member)
  simp only [extent, headerSize] at above
  omega

theorem nodup : (base :: (free ++ used)).Nodup := by
  have nodup := shaped.packed.nodup_start
  rw [List.map_map, show Extent.start ∘ h.extent = id from rfl, List.map_id] at nodup
  exact List.nodup_cons.mpr ⟨fun member => Nat.lt_irrefl _ (shaped.base_lt member), nodup⟩

theorem stop_lt (member : z ∈ base :: (free ++ used)) : (h.extent z).stop < 2 ^ 32 := by
  have below := shaped.below
  rcases List.mem_cons.mp member with rfl | member
  · have above := shaped.above
    simp only [extent, Extent.stop, shaped.empty, headerSize] at above ⊢
    omega
  · exact lt_of_le_of_lt (shaped.packed.below _ (List.mem_map_of_mem member)) below

end

variable (shaped : h.Shaped base free (b :: used))
include shaped

theorem stop_le_of_lt (member : p ∈ base :: free) (before : p < b) : (h.extent p).stop ≤ b := by
  rcases List.mem_cons.mp member with rfl | member
  · rw [Extent.stop, extent, shaped.empty]
    exact before.le
  · rcases shaped.apart_of_mem (List.mem_append_left used member) with after | before'
    · simp only [extent, Extent.stop] at after
      omega
    · exact before'

theorem stop_le_of_gt (member : p ∈ free) (after : b < p) : (h.extent b).stop ≤ p := by
  rcases shaped.apart_of_mem (List.mem_append_left used member) with after' | before
  · exact after'
  · simp only [extent, Extent.stop] at before
    omega

/-- The list with the block attached is separated. -/
theorem separated_attach (split : base :: free = left ++ p :: right) (before : p < b)
    (after : ∀ c ∈ right, b < c) :
    Separated (left.map h.extent ++
      (h.extent p).attach ((h.extent b).attach (right.map h.extent))) := by
  have above : base < b := shaped.base_lt (by simp)
  have pStop : (h.extent p).stop ≤ b := shaped.stop_le_of_lt (by simp [split]) before
  have bStop : ∀ c ∈ right, (h.extent b).stop ≤ c := by
    intro c member
    have later := after c member
    have listed : c ∈ base :: free := by simp [split, member]
    rcases List.mem_cons.mp listed with rfl | listed
    · omega
    · exact shaped.stop_le_of_gt listed later
  have separated := shaped.separated
  rw [split, List.map_append, List.map_cons, Separated, List.pairwise_append,
    List.pairwise_cons] at separated
  obtain ⟨sepLeft, ⟨sepP, sepRight⟩, cross⟩ := separated
  have inner : Separated ((h.extent b).attach (right.map h.extent)) := by
    apply Separated.attach sepRight
    rw [List.forall_mem_map]
    exact bStop
  -- every extent of the new list starts at `p`, at `b` or further to the right
  have starts : ∀ f ∈ (h.extent b).attach (right.map h.extent), b ≤ f.start := by
    intro f member
    obtain ⟨g, member, same⟩ := start_of_mem_attach member
    rw [← List.map_cons, List.mem_map] at member
    obtain ⟨c, member, rfl⟩ := member
    rw [same]
    rcases List.mem_cons.mp member with rfl | member
    · exact Nat.le_refl _
    · exact (after c member).le
  have outer := inner.attach fun f member => pStop.trans (starts f member)
  rw [Separated, List.pairwise_append]
  refine ⟨sepLeft, outer, fun e eMember f fMember => ?_⟩
  have first : e.stop < p := cross e eMember _ List.mem_cons_self
  obtain ⟨g, member, same⟩ := start_of_mem_attach fMember
  rw [same]
  rcases List.mem_cons.mp member with rfl | member
  · exact first
  · exact first.trans (before.trans_le (starts g member))

/-- The free blocks and the others are still packed. -/
theorem packed_attach (split : free = left ++ p :: right) :
    Packed (base + headerSize) h.brk (left.map h.extent ++
      (h.extent p).attach ((h.extent b).attach (right.map h.extent)) ++ used.map h.extent) := by
  have packed := shaped.packed
  simp only [split, List.map_append, List.map_cons] at packed
  have behind : Packed (base + headerSize) h.brk ((h.extent b).attach (right.map h.extent) ++
      (h.extent p :: (left.map h.extent ++ used.map h.extent))) :=
    (packed.perm (by grind)).attach
  have whole : Packed (base + headerSize) h.brk
      ((h.extent p).attach ((h.extent b).attach (right.map h.extent)) ++
        (left.map h.extent ++ used.map h.extent)) :=
    (behind.perm (by grind)).attach
  exact whole.perm (by grind)

theorem insert (split : base :: free = left ++ p :: right) (before : p < b)
    (after : ∀ c ∈ right, b < c) :
    ∃ free', (h.insert p b).Shaped base free' used ∧
      ∃ c ∈ free', h.size b ≤ (h.insert p b).size c := by
  have above : base < b := shaped.base_lt (by simp)
  have last : (h.extent b).stop ≠ base := by
    simp only [extent, Extent.stop]
    omega
  have below : ∀ z ∈ base :: b :: p :: right, (h.extent z).stop < 2 ^ 32 := by
    intro z member
    apply shaped.stop_lt
    grind
  have cycle := shaped.cycle
  have nodup := shaped.nodup
  rw [← List.cons_append, split] at nodup
  rw [split] at cycle
  obtain ⟨rest, cycle', extents⟩ :=
    insert_attach cycle (by grind) (by grind) last below
  have leftSame : left.map (h.insert p b).extent = left.map h.extent :=
    map_extent_insert (by grind) (by grind)
  have usedSame : used.map (h.insert p b).extent = used.map h.extent :=
    map_extent_insert (by grind) (by grind)
  have brkSame : (h.insert p b).brk = h.brk := link_frame.1.trans link_frame.1
  have obtainedSame : (h.insert p b).obtained = h.obtained :=
    link_frame.2.trans link_frame.2
  have separated := shaped.separated_attach split before after
  rw [← leftSame, ← extents, ← List.map_append] at separated
  obtain ⟨f, fs, inner, fStart, fLength⟩ := attach_eq_cons (h.extent b) (right.map h.extent)
  have fMember : f ∈ (h.extent b).attach (right.map h.extent) := by simp [inner]
  have covers := shaped.covers
  cases left with
  | nil =>
    -- `base` is in front, and never touches a block
    obtain ⟨rfl, rfl⟩ := List.cons_eq_cons.mp split
    have untouched : (h.extent base).stop ≠ f.start := by
      rw [fStart, Extent.stop, extent, shaped.empty]
      exact above.ne
    have attached : (h.extent base).attach ((h.extent b).attach (free.map h.extent)) =
        h.extent base :: (h.extent b).attach (free.map h.extent) := by
      rw [inner, Extent.attach, if_neg untouched]
    rw [attached, List.map_cons, List.cons_eq_cons] at extents
    obtain ⟨baseSame, extents⟩ := extents
    have empty : headerSize * (h.insert base b).size base = headerSize * h.size base :=
      congrArg Extent.length baseSame
    rw [shaped.empty] at empty
    refine ⟨rest, ⟨cycle', List.mem_cons_self, Nat.eq_of_mul_eq_mul_left (by decide) empty,
      separated, ?_, ?_, ?_, ?_⟩, ?_⟩
    · rw [brkSame, List.map_append, extents, usedSame]
      apply Packed.attach
      rw [← List.map_append, ← List.map_cons]
      exact shaped.packed.perm (List.perm_middle.map _)
    · rw [obtainedSame, ← covers, List.map_append, extents, usedSame]
      simp only [List.map_append, List.map_cons, total_append, total_attach, total_cons]
      omega
    · rw [brkSame]
      exact shaped.above
    · rw [brkSame]
      exact shaped.below
    · rw [← extents, List.mem_map] at fMember
      obtain ⟨c, member, rfl⟩ := fMember
      exact ⟨c, member, Nat.le_of_mul_le_mul_left fLength (by decide)⟩
  | cons a left =>
    obtain ⟨rfl, rfl⟩ := List.cons_eq_cons.mp split
    rw [List.map_cons, List.map_cons, List.cons_eq_cons] at leftSame
    have empty : headerSize * (h.insert p b).size base = headerSize * h.size base :=
      congrArg Extent.length leftSame.1
    rw [shaped.empty] at empty
    refine ⟨left ++ p :: rest, ⟨cycle', ?_, Nat.eq_of_mul_eq_mul_left (by decide) empty,
      separated, ?_, ?_, ?_, ?_⟩, ?_⟩
    · simp [insert]
    · rw [brkSame, List.map_append, List.map_append, leftSame.2, extents, usedSame]
      exact shaped.packed_attach rfl
    · rw [obtainedSame, ← covers, List.map_append, List.map_append, leftSame.2, extents, usedSame]
      simp only [List.append_eq, List.map_append, List.map_cons, total_append, total_attach,
        total_cons]
      omega
    · rw [brkSame]
      exact shaped.above
    · rw [brkSame]
      exact shaped.below
    · obtain ⟨g, gMember, gLength⟩ := exists_mem_attach (h.extent p) fMember
      rw [← extents, List.mem_map] at gMember
      obtain ⟨c, member, rfl⟩ := gMember
      refine ⟨c, List.mem_append_right _ member, ?_⟩
      exact Nat.le_of_mul_le_mul_left (fLength.trans gLength) (by decide)

end Shaped

end Heap

end Xv6.Malloc
