import Xv6.Malloc.Blocks

/-!
# The functions of the allocator

Every function returns, keeps the blocks in shape, and leaves the headers of the other blocks
in use alone.
-/

namespace Xv6.Malloc

open Stateful Linked Extents Function

variable {h h' : Heap} {base b p : Nat} {free used : List Nat}

/-! ## `free` -/

/-- The loop of `free` ends at `p`. -/
def Ends (h : Heap) (b p : Nat) : Prop :=
  b > p ∧ b < h.next p ∨ p ≥ h.next p ∧ (b > p ∨ b < h.next p)

variable {fuel nu nunits : Nat} {nodes : List Nat} {post : Nat → Heap → Prop} {stop : Stop → Prop}

theorem freeLoop_spec {q : Nat} (route : Route h.next p nodes q) (ends : ∃ c ∈ nodes, Ends h b c)
    (enough : nodes.length ≤ fuel) :
    Wp (freeLoop b fuel p) (fun _ => False)
      (fun c h' => h' = h ∧ c ∈ nodes ∧ Ends h b c) h := by
  induction nodes generalizing p fuel with
  | nil => simp at ends
  | cons c nodes ih =>
    obtain ⟨rfl, route⟩ := route
    cases fuel with
    | zero => simp at enough
    | succ fuel =>
      rw [freeLoop]
      simp only [wp_bind, wp_get]
      split_ifs with between wraps
      · exact ⟨rfl, List.mem_cons_self, .inl between⟩
      · exact ⟨rfl, List.mem_cons_self, .inr wraps⟩
      · have later : ∃ c ∈ nodes, Ends h b c := by
          obtain ⟨c, member, ends⟩ := ends
          rcases List.mem_cons.mp member with rfl | member
          · exact (ends.elim between wraps).elim
          · exact ⟨c, member, ends⟩
        apply (ih route later (Nat.le_of_succ_le_succ enough)).imp
        rintro c' h' ⟨same, member, ends⟩
        exact ⟨same, List.mem_cons_of_mem _ member, ends⟩

namespace Heap.Shaped

variable {left right : List Nat}

theorem sorted (shaped : h.Shaped base free used) : (base :: free).Pairwise (· < ·) := by
  have separated := shaped.separated
  rw [Separated, List.pairwise_map] at separated
  apply separated.imp
  intro c d apart
  simp only [extent, Extent.stop] at apart
  omega

/-- The loop ends at the block before `b`. -/
theorem ends_iff (shaped : h.Shaped base free used) (split : base :: free = left ++ p :: right)
    (above : base < b) (fresh : b ∉ base :: free) : Ends h b p ↔ p < b ∧ ∀ c ∈ right, b < c := by
  have cycle := shaped.cycle
  have sorted := shaped.sorted
  rw [split, route_append_cons] at cycle
  rw [split, List.pairwise_append, List.pairwise_cons] at sorted
  obtain ⟨-, ⟨pFirst, sorted⟩, -⟩ := sorted
  unfold Ends
  cases right with
  | nil =>
    have wraps : h.next p = base := cycle.2
    have least : base ≤ p := by
      have listed : p ∈ base :: free := by simp [split]
      rcases List.mem_cons.mp listed with rfl | listed
      · exact Nat.le_refl _
      · exact (shaped.base_lt (List.mem_append_left _ listed)).le
    simp only [wraps, List.not_mem_nil, false_implies, implies_true, and_true]
    omega
  | cons c right =>
    have follows : h.next p = c := cycle.2.1
    have upwards := pFirst c List.mem_cons_self
    rw [follows]
    constructor
    · intro ends
      refine ⟨by omega, List.forall_mem_cons.mpr ⟨by omega, fun d member => ?_⟩⟩
      have later := (List.pairwise_cons.mp sorted).1 d member
      omega
    · rintro ⟨before, after⟩
      exact .inl ⟨before, after c List.mem_cons_self⟩

end Heap.Shaped

/-- A number above the first of a list that goes upwards has its place in the list. -/
theorem exists_place {a : Nat} (sorted : (a :: nodes).Pairwise (· < ·)) (above : a < b)
    (fresh : b ∉ nodes) :
    ∃ left p right, a :: nodes = left ++ p :: right ∧ p < b ∧ ∀ c ∈ right, b < c := by
  induction nodes generalizing a with
  | nil => exact ⟨[], a, [], rfl, above, by simp⟩
  | cons c nodes ih =>
    rw [List.pairwise_cons] at sorted
    rw [List.mem_cons, not_or] at fresh
    by_cases here : b < c
    · refine ⟨[], a, c :: nodes, rfl, above, List.forall_mem_cons.mpr ⟨here, fun d member => ?_⟩⟩
      exact here.trans ((List.pairwise_cons.mp sorted.2).1 d member)
    · obtain ⟨left, p, right, split, place⟩ :=
        ih sorted.2 (by omega) fresh.2
      exact ⟨a :: left, p, right, by rw [split]; rfl, place⟩

theorem length_le_of_nodup {bound : Nat} (nodup : nodes.Nodup) (bounded : ∀ z ∈ nodes, z < bound) :
    nodes.length ≤ bound := by
  have sub : nodes ⊆ List.range bound := fun z member => List.mem_range.mpr (bounded z member)
  simpa using (List.subperm_of_subset nodup sub).length_le

theorem Heap.Shaped.length_le (shaped : h.Shaped base free used) :
    (base :: free).length ≤ 2 ^ 32 := by
  have nodup : (base :: free).Nodup := shaped.sorted.imp Nat.ne_of_lt
  refine length_le_of_nodup nodup fun z member => ?_
  have inUse : z ∈ base :: (free ++ used) := by
    rw [← List.cons_append]
    exact List.mem_append_left _ member
  have below := shaped.stop_lt inUse
  simp only [Heap.extent, Extent.stop] at below
  omega

/-- The way around the list from `freep`. -/
theorem Heap.Shaped.around (shaped : h.Shaped base free used) :
    ∃ rest, Route h.next h.freep (h.freep :: rest) h.freep ∧
      (h.freep :: rest).Perm (base :: free) ∧ (h.freep :: rest).length ≤ 2 ^ 32 := by
  obtain ⟨left, right, isFreep⟩ := List.append_of_mem shaped.roving
  have cycle := shaped.cycle
  rw [isFreep] at cycle
  have perm : (h.freep :: (right ++ left)).Perm (base :: free) := by
    rw [isFreep]
    exact (List.perm_append_comm.cons _).trans List.perm_middle.symm
  exact ⟨right ++ left, cycle.rotate, perm, perm.length_eq.trans_le shaped.length_le⟩

/-- `free` puts a block in use back into the list. -/
theorem free_spec (shaped : h.Shaped base free (b :: used)) :
    Wp (Malloc.free (advance b 1)) (fun _ => False) (fun _ h' =>
      (∃ free', h'.Shaped base free' used ∧ ∃ c ∈ free', h.size b ≤ h'.size c) ∧
        ∀ c ∈ used, h'.mem c = h.mem c) h := by
  have above : base < b := shaped.base_lt (by simp)
  have nodup := shaped.nodup
  have fresh : b ∉ base :: free := by grind
  have below := shaped.stop_lt (z := b) (by simp)
  have positive := shaped.packed.positive (h.extent b) (List.mem_map_of_mem (by simp))
  have block : (advance b 1 + 2 ^ 32 - headerSize) % 2 ^ 32 = b := by
    simp only [Heap.extent, Extent.stop, advance, headerSize] at below positive ⊢
    omega
  obtain ⟨left, x, right, place, isPlace⟩ :=
    exists_place shaped.sorted above (List.not_mem_of_not_mem_cons fresh)
  obtain ⟨rest, route, perm, length⟩ := shaped.around
  have ends : ∃ c ∈ h.freep :: rest, Ends h b c :=
    ⟨x, perm.mem_iff.mpr (by simp [place]), (shaped.ends_iff place above fresh).mpr isPlace⟩
  have enough : (h.freep :: rest).length ≤ rounds := length.trans (by unfold rounds; decide)
  unfold Malloc.free
  simp only [wp_bind, wp_get]
  rw [block]
  apply (freeLoop_spec route ends enough).imp
  rintro p _ ⟨rfl, member, ends⟩
  obtain ⟨left, right, split⟩ := List.append_of_mem (perm.mem_iff.mp member)
  obtain ⟨pBefore, pAfter⟩ := (shaped.ends_iff split above fresh).mp ends
  refine ⟨shaped.insert split pBefore pAfter, fun c used => ?_⟩
  apply Heap.mem_insert_of_ne
  · have listed : p ∈ base :: free := by simp [split]
    grind
  · grind

/-! ## `morecore` -/

/-- The break goes up by `gap` and then by the `n` bytes that `sbrk` gives. -/
def Heap.grow (h : Heap) (gap n : Nat) : Heap :=
  { h with brk := h.brk + gap + n, obtained := h.obtained + n }

/-- A block from `sbrk` is in use until it is freed. -/
theorem Heap.Shaped.grow {gap : Nat} (shaped : h.Shaped base free used) (link : Nat)
    (positive : 0 < nu) (below : h.brk + gap + headerSize * nu < 2 ^ 32) :
    ((h.grow gap (headerSize * nu)).store (h.brk + gap) ⟨link, nu⟩).Shaped base free
      ((h.brk + gap) :: used) := by
  have above := shaped.above
  have notBlock : h.brk + gap ∉ free ++ used := by
    intro member
    have before := shaped.packed.below _ (List.mem_map_of_mem member)
    have size := shaped.packed.positive _ (List.mem_map_of_mem member)
    simp only [Heap.extent, Extent.stop] at before size
    omega
  have notBase : base ≠ h.brk + gap := by
    simp only [headerSize] at above
    omega
  have fresh : h.brk + gap ∉ base :: free := by grind
  have extents : (base :: free).map ((h.grow gap (headerSize * nu)).store (h.brk + gap)
      ⟨link, nu⟩).extent = (base :: free).map h.extent :=
    Heap.map_extent_store fresh
  have blocks : ((h.brk + gap) :: (free ++ used)).map ((h.grow gap (headerSize * nu)).store
      (h.brk + gap) ⟨link, nu⟩).extent =
        ⟨h.brk + gap, headerSize * nu⟩ :: (free ++ used).map h.extent := by
    rw [List.map_cons, Heap.map_extent_store notBlock, Heap.extent_store, update_self]
    rfl
  refine ⟨?_, shaped.roving, ?_, ?_, ?_, ?_, ?_, below⟩
  · apply shaped.cycle.congr
    intro c member
    rw [Heap.next_store, update_of_ne (ne_of_mem_of_not_mem member fresh)]
    rfl
  · rw [Heap.size_store, update_of_ne notBase]
    exact shaped.empty
  · rw [extents]
    exact shaped.separated
  · refine Packed.perm ?_ (List.perm_middle.symm.map _)
    rw [blocks]
    refine shaped.packed.extend (by omega) (by omega) ?_ (Nat.le_refl _)
    exact Nat.mul_pos (by decide) positive
  · rw [total_perm (List.perm_middle.map _), blocks, total_cons, shaped.covers, Nat.add_comm]
    rfl
  · change _ ≤ h.brk + gap + headerSize * nu
    omega

/-- `sbrk` fails, or it gives `n` bytes behind the break. -/
theorem sbrk_spec (set : Setting) {n : Nat} (positive : 0 < n) (small : n < 2 ^ 31) :
    Wp (set.sbrk n) (fun _ => False) (fun p h' =>
      p = 2 ^ 32 - 1 ∧ h' = { h with calls := h.calls + 1 } ∨
        ∃ gap, p = h.brk + gap ∧ h.brk + gap + n < 2 ^ 32 ∧
          h' = Heap.grow { h with calls := h.calls + 1 } gap n) h := by
  unfold Setting.sbrk
  simp only [wp_bind, wp_get, wp_modify]
  split
  · exact .inl ⟨rfl, rfl⟩
  · rename_i gap _
    rw [growproc, if_neg positive.ne', if_pos small]
    split_ifs with given
    · refine .inr ⟨gap, rfl, by omega, ?_⟩
      simp only [Heap.grow, Nat.add_sub_cancel_left]
    · exact .inl ⟨rfl, rfl⟩

theorem Heap.Shaped.called (shaped : h.Shaped base free used) (n : Nat) :
    Heap.Shaped { h with calls := n } base free used :=
  ⟨shaped.cycle, shaped.roving, shaped.empty, shaped.separated, shaped.packed, shaped.covers,
    shaped.above, shaped.below⟩

/-- `morecore` adds a block of `nu` units to the list if `sbrk` gives one. -/
theorem morecore_spec (set : Setting) (shaped : h.Shaped set.base free used)
    (small : nu * headerSize < 2 ^ 31) :
    Wp (set.morecore nu) (fun _ => False) (fun p h' =>
      p = 0 ∧ h' = { h with calls := h.calls + 1 } ∨ p = h'.freep ∧ p ≠ 0 ∧
        (∃ free', h'.Shaped set.base free' used ∧ ∃ c ∈ free', nu ≤ h'.size c) ∧
        ∀ c ∈ used, h'.mem c = h.mem c) h := by
  unfold Setting.morecore
  obtain ⟨nu', isMore, more, positive, small'⟩ : ∃ nu', (if nu < 4096 then 4096 else nu) = nu' ∧
      nu ≤ nu' ∧ 0 < nu' ∧ nu' * headerSize < 2 ^ 31 := by
    refine ⟨_, rfl, ?_⟩
    simp only [headerSize] at small ⊢
    split_ifs <;> omega
  have bytes : nu' * headerSize % 2 ^ 32 = headerSize * nu' := by
    rw [Nat.mod_eq_of_lt (by omega), Nat.mul_comm]
  dsimp only
  rw [isMore, bytes]
  apply (sbrk_spec set (Nat.mul_pos (by decide) positive) (by omega)).seq
  rintro p _ (⟨rfl, rfl⟩ | ⟨gap, rfl, below, rfl⟩)
  · rw [if_pos rfl]
    exact .inl ⟨rfl, rfl⟩
  · have notFailed : h.brk + gap ≠ 2 ^ 32 - 1 := by
      simp only [headerSize] at below
      omega
    rw [if_neg notFailed]
    simp only [wp_bind, wp_modify]
    have grown := (shaped.called (h.calls + 1)).grow (h.next (h.brk + gap)) positive below
    have fresh : h.brk + gap ∉ used := by
      have nodup := grown.nodup
      grind
    apply (free_spec grown).imp
    rintro _ h' ⟨⟨free', shaped', c, member, large⟩, kept⟩
    have nonnull : h'.freep ≠ 0 := by
      have basePos := set.base_pos
      rcases List.mem_cons.mp shaped'.roving with isBase | listed
      · omega
      · have above := shaped'.base_lt (List.mem_append_left used listed)
        omega
    refine .inr ⟨rfl, nonnull, ⟨free', shaped', c, member, ?_⟩, fun d inUse => ?_⟩
    · rw [Heap.size_store, update_self] at large
      exact more.trans large
    · rw [kept d inUse]
      exact update_of_ne (ne_of_mem_of_not_mem inUse fresh) _ _

/-! ## `malloc` -/

namespace Heap.Shaped

variable {left right : List Nat} {x y : Nat}

/-- The block behind `y` leaves the list. -/
theorem unlink (shaped : h.Shaped base free used) (split : base :: free = left ++ y :: x :: right) :
    ∃ free', (({ h.store y ⟨h.next x, h.size y⟩ with freep := y } : Heap)).Shaped base free'
      (x :: used) := by
  have extents : ({ h.store y ⟨h.next x, h.size y⟩ with freep := y } : Heap).extent =
      h.extent := by
    change (h.store y ⟨h.next x, h.size y⟩).extent = h.extent
    rw [extent_store]
    exact update_eq_self _ _
  obtain ⟨free', isRest, perm⟩ : ∃ free', base :: free' = left ++ y :: right ∧
      free.Perm (x :: free') := by
    cases left with
    | nil =>
      obtain ⟨rfl, rfl⟩ := List.cons_eq_cons.mp split
      exact ⟨right, rfl, .refl _⟩
    | cons a left =>
      obtain ⟨rfl, rfl⟩ := List.cons_eq_cons.mp split
      exact ⟨left ++ y :: right, rfl, by grind⟩
  have nodup := shaped.nodup
  have cycle := shaped.cycle
  have separated := shaped.separated
  rw [split, List.map_append, List.map_cons, List.map_cons] at separated
  rw [← List.cons_append, split] at nodup
  rw [split, route_append_cons, route_cons] at cycle
  have blocks : (free ++ used).Perm (free' ++ x :: used) :=
    (perm.append_right used).trans List.perm_middle.symm
  refine ⟨free', ?_, ?_, ?_, ?_, ?_, ?_, shaped.above, shaped.below⟩
  · change Route (h.store y ⟨h.next x, h.size y⟩).next _ _ _
    rw [isRest, next_store, route_append_cons, update_self]
    refine ⟨cycle.1.congr fun c member => ?_, cycle.2.2.congr fun c member => ?_⟩
    · exact update_of_ne (by grind) _ _
    · exact update_of_ne (by grind) _ _
  · rw [isRest]
    simp
  · change (h.store y ⟨h.next x, h.size y⟩).size base = 0
    rw [size_store, update_eq_self]
    exact shaped.empty
  · rw [isRest, extents, List.map_append, List.map_cons]
    exact separated.sublist (by simp)
  · rw [extents]
    exact shaped.packed.perm (blocks.map _)
  · rw [extents, ← total_perm (blocks.map _)]
    exact shaped.covers

/-- The end of the block `x` is cut off. -/
theorem cut {m n : Nat} (shaped : h.Shaped base free used) (member : x ∈ free)
    (size : h.size x = m + n) (left : 0 < m) (right : 0 < n) (roving : y ∈ base :: free)
    (link : Nat) :
    ({ (h.store x ⟨h.next x, m⟩).store (x + headerSize * m) ⟨link, n⟩ with
      freep := y } : Heap).Shaped base free ((x + headerSize * m) :: used) ∧
      x ∉ used ∧ x + headerSize * m ∉ used := by
  have xAbove : base < x := shaped.base_lt (List.mem_append_left _ member)
  have nodup := shaped.nodup
  obtain ⟨before, after, isFree⟩ := List.append_of_mem member
  have rest : (free ++ used).Perm (x :: (before ++ after ++ used)) := by
    rw [isFree]
    grind
  have whole : h.extent x = ⟨x, headerSize * m + headerSize * n⟩ := by
    rw [extent, size, Nat.mul_add]
  have packed := shaped.packed.perm (rest.map h.extent)
  have covers := shaped.covers
  rw [total_perm (rest.map _), List.map_cons, whole, total_cons] at covers
  rw [List.map_cons, whole] at packed
  have packed := packed.cut (Nat.mul_pos (by decide) left) (Nat.mul_pos (by decide) right)
  have starts := packed.nodup_start
  simp only [List.map_cons, List.map_map, show Extent.start ∘ h.extent = id from rfl,
    List.map_id] at starts
  generalize isPlace : x + headerSize * m = z at packed starts ⊢
  have fresh : z ∉ base :: (free ++ used) := by
    have notBase : z ≠ base := by omega
    have others := rest.mem_iff (a := z)
    grind
  have zNeX : z ≠ x := by grind
  have xExtent : ((h.store x ⟨h.next x, m⟩).store z ⟨link, n⟩).extent x = ⟨x, headerSize * m⟩ := by
    rw [extent_store, update_of_ne zNeX.symm, extent_store, update_self]
  have zExtent : ((h.store x ⟨h.next x, m⟩).store z ⟨link, n⟩).extent z = ⟨z, headerSize * n⟩ := by
    rw [extent_store, update_self]
  have others : ∀ c, c ≠ x → c ≠ z →
      ((h.store x ⟨h.next x, m⟩).store z ⟨link, n⟩).extent c = h.extent c := by
    intro c notX notZ
    rw [extent_store, update_of_ne notZ, extent_store, update_of_ne notX]
  have blocks : ((free ++ z :: used).map
      ((h.store x ⟨h.next x, m⟩).store z ⟨link, n⟩).extent).Perm
        (⟨x, headerSize * m⟩ :: ⟨z, headerSize * n⟩ ::
          (before ++ after ++ used).map h.extent) := by
    have same : (before ++ after ++ used).map
        ((h.store x ⟨h.next x, m⟩).store z ⟨link, n⟩).extent =
          (before ++ after ++ used).map h.extent := by
      apply List.map_congr_left
      intro c listed
      exact others c (by grind) (by grind)
    rw [← xExtent, ← zExtent, ← same, ← List.map_cons, ← List.map_cons]
    exact (List.perm_middle.trans ((rest.cons z).trans (.swap _ _ _))).map _
  refine ⟨⟨?_, roving, ?_, ?_, packed.perm blocks.symm, ?_, shaped.above, shaped.below⟩, ?_, ?_⟩
  · change Route ((h.store x ⟨h.next x, m⟩).store z ⟨link, n⟩).next _ _ _
    apply shaped.cycle.congr
    intro c listed
    rw [next_store, update_of_ne (by grind), next_store]
    exact congrFun (update_eq_self _ _) _
  · change ((h.store x ⟨h.next x, m⟩).store z ⟨link, n⟩).size base = 0
    rw [size_store, update_of_ne (by grind), size_store,
      update_of_ne xAbove.ne]
    exact shaped.empty
  · have separated := shaped.separated
    rw [Separated, List.pairwise_map] at separated ⊢
    refine separated.imp_of_mem ?_
    intro c d cListed _ apart
    change (((h.store x ⟨h.next x, m⟩).store z ⟨link, n⟩).extent c).stop < d
    by_cases isX : c = x
    · rw [isX, whole] at apart
      rw [isX, xExtent]
      simp only [Extent.stop, extent] at apart ⊢
      omega
    · rw [others c isX (by grind)]
      exact apart
  · apply (total_perm blocks).trans
    simp only [total_cons] at covers ⊢
    change _ = h.obtained
    omega
  · grind
  · grind

end Heap.Shaped

/-- A block of `nunits` units, which was free, is in use. -/
def Taken (base nunits : Nat) (used : List Nat) (h : Heap) (q : Nat) (h' : Heap) : Prop :=
  (∃ z free', q = advance z 1 ∧ h'.Shaped base free' (z :: used) ∧ h'.size z = nunits) ∧
    ∀ c ∈ used, h'.mem c = h.mem c

/-- The block behind `y` is large enough. -/
theorem take_spec {y : Nat} (shaped : h.Shaped base free used) (positive : 0 < nunits)
    (listed : y ∈ base :: free) (fits : nunits ≤ h.size (h.next y)) :
    Wp (take nunits y (h.next y)) (fun _ => False) (Taken base nunits used h) h := by
  obtain ⟨left, right, split⟩ := List.append_of_mem listed
  have cycle := shaped.cycle
  rw [split, route_append_cons] at cycle
  cases right with
  | nil =>
    rw [show h.next y = base from cycle.2, shaped.empty] at fits
    omega
  | cons x right =>
    obtain ⟨rfl, -⟩ := cycle.2
    have nodup := shaped.nodup
    rw [← List.cons_append] at nodup
    unfold take
    simp only [wp_bind, wp_get]
    split_ifs with exact
    · simp only [wp_bind, wp_modify, wp_pure]
      obtain ⟨free', shaped'⟩ := shaped.unlink split
      refine ⟨⟨_, free', rfl, shaped', ?_⟩, fun c inUse => ?_⟩
      · change (h.store y ⟨h.next (h.next y), h.size y⟩).size _ = _
        rw [Heap.size_store, update_eq_self]
        exact exact
      · exact update_of_ne (by grind) _ _
    · obtain ⟨m, isSize⟩ := Nat.exists_eq_add_of_le' fits
      have member : h.next y ∈ free := by
        have inList : h.next y ∈ base :: free := by simp [split]
        rcases List.mem_cons.mp inList with isBase | member
        · rw [isBase, shaped.empty] at fits
          omega
        · exact member
      have inRange := shaped.stop_lt (List.mem_cons_of_mem _ (List.mem_append_left used member))
      have place : advance (h.next y) m = h.next y + headerSize * m := by
        simp only [Heap.extent, Extent.stop, isSize] at inRange
        rw [advance, Nat.mod_eq_of_lt]
        exact lt_of_le_of_lt (by simp [Nat.mul_add]) inRange
      have rest : h.size (h.next y) - nunits = m := by omega
      simp only [wp_bind, wp_modify, wp_pure, rest, place]
      obtain ⟨shaped', xFresh, zFresh⟩ := shaped.cut member isSize (by omega) positive listed
        ((h.store (h.next y) ⟨h.next (h.next y), m⟩).next (h.next y + headerSize * m))
      refine ⟨⟨_, free, rfl, shaped', ?_⟩, fun c inUse => ?_⟩
      · change ((h.store (h.next y) _).store (h.next y + headerSize * m) _).size _ = nunits
        rw [Heap.size_store, update_self]
      · apply (update_of_ne (ne_of_mem_of_not_mem inUse zFresh) _ _).trans
        exact update_of_ne (ne_of_mem_of_not_mem inUse xFresh) _ _

/-- The loop of `malloc` goes once around the list. -/
theorem mallocLoop_scan (set : Setting) {prevp : Nat} {rest : List Nat}
    (route : Route h.next p rest h.freep)
    (others : h.freep ∉ rest) (follows : p = h.next prevp) (listed : ∀ c ∈ prevp :: rest, c ∈ nodes)
    (hit : ∀ y ∈ nodes, nunits ≤ h.size (h.next y) → Wp (take nunits y (h.next y)) stop post h)
    (miss : (∀ c ∈ h.freep :: rest, h.size c < nunits) → Wp (do
      let p ← set.morecore nunits
      if p = 0 then return 0 else set.mallocLoop nunits fuel p ((← get).next p)) stop post h) :
    Wp (set.mallocLoop nunits (fuel + rest.length + 1) prevp p) stop post h := by
  rw [List.forall_mem_cons] at listed
  induction rest generalizing prevp p with
  | nil =>
    obtain rfl : p = h.freep := route
    rw [Setting.mallocLoop]
    simp only [wp_bind, wp_get]
    split_ifs with fits
    · rw [follows] at fits ⊢
      exact hit prevp listed.1 fits
    · exact miss (by simpa using fits)
  | cons c rest ih =>
    obtain ⟨rfl, route⟩ := route
    rw [List.mem_cons, not_or] at others
    rw [Setting.mallocLoop]
    simp only [wp_bind, wp_get]
    split_ifs with fits here
    · rw [follows] at fits ⊢
      exact hit prevp listed.1 fits
    · exact (others.1 here.symm).elim
    · apply ih route others.2 rfl (List.forall_mem_cons.mp listed.2)
      intro small
      apply miss
      simp only [List.forall_mem_cons] at small ⊢
      exact ⟨small.1, Nat.lt_of_not_le fits, small.2⟩

theorem units_bounds {nbytes : Nat} (small : nbytes ≤ 2 ^ 31 - 16) :
    0 < units nbytes ∧ units nbytes * headerSize < 2 ^ 31 ∧
      headerSize + nbytes ≤ headerSize * units nbytes := by
  unfold units headerSize
  omega

/-- From `freep` the loop finds a block, or every block is too small. -/
theorem Heap.Shaped.scan (set : Setting) (shaped : h.Shaped base free used) (enough : 2 ^ 32 ≤ fuel)
    (hit : ∀ y ∈ base :: free, nunits ≤ h.size (h.next y) →
      Wp (take nunits y (h.next y)) stop post h)
    (miss : ∀ fuel', fuel ≤ fuel' + 2 ^ 32 → (∀ c ∈ base :: free, h.size c < nunits) → Wp (do
      let p ← set.morecore nunits
      if p = 0 then return 0 else set.mallocLoop nunits fuel' p ((← get).next p)) stop post h) :
    Wp (set.mallocLoop nunits fuel h.freep (h.next h.freep)) stop post h := by
  obtain ⟨rest, route, perm, length⟩ := shaped.around
  have nodup : (h.freep :: rest).Nodup := perm.nodup_iff.mpr (shaped.nodup.sublist (by simp))
  rw [List.length_cons] at length
  obtain ⟨fuel', rfl⟩ : ∃ fuel', fuel = fuel' + rest.length + 1 :=
    ⟨fuel - rest.length - 1, by omega⟩
  apply mallocLoop_scan set route.2 (List.nodup_cons.mp nodup).1 rfl (fun c => perm.mem_iff.mp)
  · exact hit
  · intro small
    exact miss fuel' (by omega) fun c listed => small c (perm.mem_iff.mpr listed)

/-- The loop of `malloc` on a list that has been set up. -/
theorem mallocLoop_spec (set : Setting) (shaped : h.Shaped set.base free used)
    (positive : 0 < nunits) (small : nunits * headerSize < 2 ^ 31) :
    Wp (set.mallocLoop nunits rounds h.freep (h.next h.freep)) (fun _ => False)
      (fun q h' => Taken set.base nunits used h q h' ∨
        q = 0 ∧ h' = { h with calls := h.calls + 1 }) h := by
  apply shaped.scan set (by unfold rounds; decide)
  · intro y listed fits
    exact (take_spec shaped positive listed fits).imp fun _ _ => .inl
  · intro fuel enough _
    apply (morecore_spec set shaped small).seq
    rintro p h₁ (⟨rfl, rfl⟩ | ⟨rfl, nonnull, ⟨free₁, shaped₁, c, member, large⟩, kept⟩)
    · rw [if_pos rfl]
      exact .inr ⟨rfl, rfl⟩
    · rw [if_neg nonnull]
      simp only [wp_bind, wp_get]
      apply shaped₁.scan set (by unfold rounds at enough; omega)
      · intro y listed fits
        apply (take_spec shaped₁ positive listed fits).imp
        rintro q h' ⟨taken, kept'⟩
        exact .inl ⟨taken, fun d inUse => (kept' d inUse).trans (kept d inUse)⟩
      · intro _ _ tooSmall
        have wrong := tooSmall c (List.mem_cons_of_mem _ member)
        omega

end Xv6.Malloc
