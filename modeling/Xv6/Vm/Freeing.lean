import Xv6.Vm.Translation

/-!
# What is freed

`deallocuvm` frees the pages of a range.  Where there is no page table it goes on with the
page 1024 pages later, so that it can miss pages of the next table when it did not start at
the first page of a table.  `freevm` starts at page 0 and misses nothing.
-/

namespace Xv6.Vm

open Stateful Linked

variable {link : Link} {s s' : Machine} {V V' : View} {d q v w oldsz newsz : Nat}

/-- The frame at a virtual address. -/
def Machine.MapsTo (s : Machine) (d va q : Nat) : Prop :=
  ∃ pa flags, s.translate d va = some (pa, flags) ∧ pa / pgsize = q

/-- The frames have been put on the free list, each of them once. -/
def Machine.Returned (s s' : Machine) (freed : Nat → Prop) : Prop :=
  ∃ old new now, Chain s.next s.freelist old ∧ Chain s'.next s'.freelist now ∧
    now.Perm (new ++ old) ∧ now.Nodup ∧ ∀ q, q ∈ new ↔ freed q

theorem Models.returned {freed : Nat → Prop} (models : Models link s V)
    (models' : Models link s' V') (roles : ∀ q, V'.role q = .free ↔ V.role q = .free ∨ freed q)
    (used : ∀ q, freed q → V.role q ≠ .free) : s.Returned s' freed := by
  have nodup := models.chain.nodup
  have nodup' := models'.chain.nodup
  refine ⟨V.free, V'.free.filter (· ∉ V.free), V'.free, models.chain, models'.chain, ?_, nodup',
    fun q => ?_⟩
  · rw [List.perm_ext_iff_of_nodup nodup']
    · intro q
      rw [List.mem_append, List.mem_filter, decide_eq_true_eq, models.free_iff, models'.free_iff,
        roles]
      tauto
    · refine List.nodup_append.mpr ⟨nodup'.filter _, nodup, fun q new r old => ?_⟩
      rintro rfl
      simp only [List.mem_filter, decide_eq_true_eq] at new
      exact new.2 old
  · rw [List.mem_filter, decide_eq_true_eq, models.free_iff, models'.free_iff, roles]
    have := used q
    tauto

theorem Machine.translate_eq_none_iff {va : Nat} :
    s.translate d va = none ↔ isPresent (s.entry d (va / pgsize)) = false := by
  unfold Machine.translate
  simp

theorem Machine.mapsTo_iff {va : Nat} :
    s.MapsTo d va q ↔
      isPresent (s.entry d (va / pgsize)) = true ∧ target (s.entry d (va / pgsize)) = q := by
  constructor
  · rintro ⟨pa, flags, mapped, rfl⟩
    obtain ⟨present, page⟩ := Machine.translate_eq_some mapped
    exact ⟨present, page.symm⟩
  · rintro ⟨present, rfl⟩
    exact ⟨_, _, if_pos present, Machine.address_div _ _⟩

/-- The frames of the user half are the pages of the directory. -/
theorem Models.mapsTo_iff {va : Nat} (models : Models link s V)
    (isDirectory : V.role d = .directory)
    (low : va < kernbase) : s.MapsTo d va q ↔ V.role q = .user d (va / pgsize) := by
  rw [Machine.mapsTo_iff]
  constructor
  · rintro ⟨present, rfl⟩
    apply models.role_entry isDirectory _ present
    unfold kernbase at low
    unfold pgsize
    omega
  · exact models.entry_user

/-! ## `deallocuvm` -/

/-- The range has been freed, and nothing else. -/
structure FreesRange (d oldsz newsz : Nat) (s : Machine) (r : Nat) (s' : Machine) : Prop where
  result : r = newsz
  gone : ∀ va, pgroundup newsz ≤ va → va < oldsz → s'.translate d va = none
  returned : s.Returned s' fun q => ∃ va, pgroundup newsz ≤ va ∧ va < oldsz ∧ s.MapsTo d va q
  entries : ∀ v < 2 ^ 20, v * pgsize < pgroundup newsz ∨ oldsz ≤ v * pgsize →
    s'.entry d v = s.entry d v
  directory : s'.mem d = s.mem d

/-- The pages of the range, by their addresses. -/
theorem inRange_iff (low : newsz ≤ kernbase) {va : Nat} :
    pgroundup newsz ≤ va ∧ va / pgsize * pgsize < oldsz ↔
      pages newsz ≤ va / pgsize ∧ va / pgsize < pages oldsz := by
  rw [pgroundup_eq low, lt_pages_iff, Nat.le_div_iff_mul_le (by decide)]

theorem Cleared.role_free_iff {list : List Nat} (cleared : Cleared link d list s V s' V') :
    V'.role q = .free ↔ V.role q = .free ∨ ∃ v ∈ list, V.role q = .user d v := by
  constructor
  · intro isFree
    rcases cleared.roles q with same | ⟨user, -⟩
    · exact .inl (same.symm.trans isFree)
    · exact .inr user
  · intro old
    rcases cleared.roles q with same | ⟨-, isFree⟩
    · rcases old with isFree | ⟨v, member, user⟩
      · exact same.trans isFree
      · have present := (cleared.models.entry_user (same.trans user)).1
        rw [cleared.not_present member] at present
        cases present
    · exact isFree

/-- The pages that are skipped stay. -/
theorem FreesRange.not_skipped (models : Models link s V) (isDirectory : V.role d = .directory)
    (shrinks : newsz < oldsz) (low : oldsz ≤ kernbase) {r : Nat}
    (done : (link.deallocuvm d oldsz newsz).run s = .ok (r, s'))
    (frees : FreesRange d oldsz newsz s r s') (after : pages newsz ≤ v) (before : v < pages oldsz)
    (present : isPresent (s.entry d v) = true) : ¬ Skipped (s.tables d) (pages newsz) v := by
  intro skipped
  have top := pages_le low
  obtain ⟨-, V', cleared⟩ := (deallocuvm_clears models isDirectory low).ok done
  have notVisited : v ∉ visits (s.tables d) (pages oldsz) rounds (pages newsz) := by
    rw [mem_visits (by unfold rounds; omega)]
    exact fun visited => visited.2.2.2 skipped
  have page : v * pgsize / pgsize = v := Nat.mul_div_cancel v (by decide)
  have gone := frees.gone (v * pgsize)
    (by rw [pgroundup_eq (by omega)]; exact Nat.mul_le_mul_right _ after) (lt_pages_iff.mp before)
  rw [Machine.translate_eq_none_iff, page, cleared.entry v (by omega) notVisited, present] at gone
  cases gone

/-- Without skipped pages the range is freed. -/
theorem deallocuvm_frees (models : Models link s V) (isDirectory : V.role d = .directory)
    (shrinks : newsz < oldsz) (low : oldsz ≤ kernbase)
    (met : ∀ v, pages newsz ≤ v → v < pages oldsz → isPresent (s.entry d v) = true →
      ¬ Skipped (s.tables d) (pages newsz) v) :
    ∃ r s', (link.deallocuvm d oldsz newsz).run s = .ok (r, s') ∧
      FreesRange d oldsz newsz s r s' := by
  have top := pages_le low
  have low' : newsz ≤ kernbase := by omega
  obtain ⟨r, s', done, result, V', cleared⟩ := (deallocuvm_clears models isDirectory low).returns
  have visited : ∀ v, pages newsz ≤ v → v < pages oldsz → isPresent (s.entry d v) = true →
      v ∈ visits (s.tables d) (pages oldsz) rounds (pages newsz) := by
    intro v after before present
    rw [mem_visits (by unfold rounds; omega)]
    refine ⟨after, before, ?_, met v after before present⟩
    by_contra absent
    rw [Machine.tables] at absent
    rw [Machine.entry, if_neg absent] at present
    cases present
  refine ⟨r, s', done, result.trans (min_eq_right shrinks.le), fun va after before => ?_, ?_,
    fun v high outside => ?_, cleared.root⟩
  · have inside := (inRange_iff low').mp
      ⟨after, (Nat.div_mul_le_self va pgsize).trans_lt before⟩
    rw [Machine.translate_eq_none_iff]
    by_cases member : va / pgsize ∈ visits (s.tables d) (pages oldsz) rounds (pages newsz)
    · exact cleared.not_present member
    · rw [cleared.entry _ (by omega) member]
      by_contra present
      exact member (visited _ inside.1 inside.2 (by simpa using present))
  · apply models.returned cleared.models
    · intro q
      rw [cleared.role_free_iff]
      refine or_congr_right ⟨?_, ?_⟩
      · rintro ⟨v, member, user⟩
        obtain ⟨after, before⟩ := mem_visits_of member
        have page : v * pgsize / pgsize = v := Nat.mul_div_cancel v (by decide)
        refine ⟨v * pgsize, ?_, lt_pages_iff.mp before, ?_⟩
        · rw [pgroundup_eq low']
          exact Nat.mul_le_mul_right _ after
        · rw [models.mapsTo_iff isDirectory ((lt_pages_iff.mp before).trans_le low), page]
          exact user
      · rintro ⟨va, after, before, mapped⟩
        have inside := (inRange_iff low').mp
          ⟨after, (Nat.div_mul_le_self va pgsize).trans_lt before⟩
        have present := (Machine.mapsTo_iff.mp mapped).1
        exact ⟨_, visited _ inside.1 inside.2 present,
          (models.mapsTo_iff isDirectory (by omega)).mp mapped⟩
    · rintro q ⟨va, after, before, mapped⟩ isFree
      rw [models.mapsTo_iff isDirectory (by omega), isFree] at mapped
      cases mapped
  · apply cleared.entry v high
    intro member
    obtain ⟨after, before⟩ := mem_visits_of member
    rw [lt_pages_iff] at before
    rw [pgroundup_eq low'] at outside
    have := Nat.mul_le_mul_right pgsize after
    omega

/-- `deallocuvm` frees its range exactly, and nothing else, just when it skips no page that is
there.  It skips the pages that are less far into their table than the first page of the range
is, if there is no table from the first page up to them. -/
theorem deallocuvm_exact_iff (models : Models link s V) (isDirectory : V.role d = .directory)
    (shrinks : newsz < oldsz) (low : oldsz ≤ kernbase) :
    (∃ r s', (link.deallocuvm d oldsz newsz).run s = .ok (r, s') ∧
      FreesRange d oldsz newsz s r s') ↔
      ∀ v, pages newsz ≤ v → v < pages oldsz → isPresent (s.entry d v) = true →
        ¬ Skipped (s.tables d) (pages newsz) v := by
  constructor
  · rintro ⟨r, s', done, frees⟩ v
    exact frees.not_skipped models isDirectory shrinks low done
  · exact deallocuvm_frees models isDirectory shrinks low

open Frames (sampleLink)

/-- A directory with one page, in its second four megabytes. -/
theorem exists_sparse : ∃ s V d, Models sampleLink s V ∧ V.role d = .directory ∧
    isPresent (s.entry d 1024) = true ∧ s.tables d 0 = false := by
  have demand : (allocDemand (spaceTables 0) (1024 * pgsize) (1025 * pgsize)).length = 2 := by
    decide
  have room : 600 ≤ phystop / pgsize := by decide
  obtain ⟨d, s₁, V₁, s, V, space, grown, -⟩ := Frames.exists_grown (n := 0)
    (by rw [demand]; omega) (show 1025 * pgsize < kernbase by decide)
  have mapped : V.Mapped d 1024 := (grown.mapped_iff space.models (by decide)).mpr
    (.inr ⟨rfl, by decide, by decide⟩)
  obtain ⟨p, user⟩ := mapped
  refine ⟨s, V, d, grown.models, grown.extends.directory space.directory,
    (grown.models.entry_user user).1, ?_⟩
  rw [Bool.eq_false_iff, ne_eq, grown.tables, space.tables]
  rintro (table | ⟨v, after, -, first⟩)
  · exact absurd table (by decide)
  · rw [show pages (1024 * pgsize) = 1024 by decide] at after
    omega

/-- A page is left in the second table when `deallocuvm` starts at page 1, without a table. -/
theorem deallocuvm_misses : ∃ s V d, Models sampleLink s V ∧ V.role d = .directory ∧
    ¬ ∃ r s', (sampleLink.deallocuvm d (1025 * pgsize) pgsize).run s = .ok (r, s') ∧
      FreesRange d (1025 * pgsize) pgsize s r s' := by
  obtain ⟨s, V, d, models, isDirectory, present, missing⟩ := exists_sparse
  refine ⟨s, V, d, models, isDirectory, ?_⟩
  rintro ⟨r, s', done, frees⟩
  refine frees.not_skipped (v := 1024) models isDirectory (by decide) (by decide) done (by decide)
    (by decide) present ⟨by decide, fun i after before => ?_⟩
  obtain rfl : i = 0 := by
    rw [show 1024 / 1024 = 1 by decide] at before
    omega
  exact missing

/-- It frees the page when it starts at page 0. -/
theorem deallocuvm_exact_sparse : ∃ s d r s',
    (sampleLink.deallocuvm d (1025 * pgsize) 0).run s = .ok (r, s') ∧
      isPresent (s.entry d 1024) = true ∧ FreesRange d (1025 * pgsize) 0 s r s' := by
  obtain ⟨s, V, d, models, isDirectory, present, -⟩ := exists_sparse
  obtain ⟨r, s', done, frees⟩ :=
    (deallocuvm_exact_iff models isDirectory (show 0 < 1025 * pgsize by decide) (by decide)).mpr
      fun v _ _ _ skipped => absurd skipped.1 (Nat.not_lt_zero _)
  exact ⟨s, d, r, s', done, present, frees⟩

/-! ## `freevm` -/

/-- The loop of `deallocuvm` over page numbers that do not wrap around. -/
def Link.deallocPages (link : Link) (d stop : Nat) : Nat → Nat → VmM Unit
  | 0, _ => return
  | fuel + 1, v => do
      if v < stop then
        match ← walkpgdir d (v * pgsize) false with
        | none => link.deallocPages d stop fuel (v + 1024)
        | some (t, i) =>
          link.clearPte t i
          link.deallocPages d stop fuel (v + 1)

/-- The addresses of the loop do not wrap around, and it ends by itself. -/
theorem deallocLoop_eq {fuel enough : Nat} (low : oldsz ≤ kernbase)
    (bound : pages oldsz ≤ v + enough) (more : enough ≤ fuel) :
    link.deallocLoop d oldsz fuel (v * pgsize) =
      link.deallocPages d (pages oldsz) enough v := by
  have top := pages_le low
  induction enough generalizing fuel v with
  | zero =>
    have done : ¬ v * pgsize < oldsz := by
      rw [← lt_pages_iff]
      omega
    cases fuel with
    | zero => rfl
    | succ fuel =>
      rw [Link.deallocLoop, if_neg done]
      rfl
  | succ enough ih =>
    obtain ⟨fuel, rfl⟩ : ∃ n, fuel = n + 1 := ⟨fuel - 1, by omega⟩
    rw [Link.deallocLoop, Link.deallocPages]
    by_cases inside : v < pages oldsz
    · have skip : (v * pgsize + 1023 * pgsize + pgsize) % 2 ^ 32 = (v + 1024) * pgsize := by
        unfold pgsize
        omega
      have next : (v * pgsize + pgsize) % 2 ^ 32 = (v + 1) * pgsize := by
        unfold pgsize
        omega
      rw [if_pos (lt_pages_iff.mp inside), if_pos inside, skip, next]
      refine congrArg (bind _) (funext fun entry => ?_)
      rcases entry with _ | ⟨t, i⟩
      · exact ih (by omega) (by omega)
      · exact congrArg (bind _) (funext fun _ => ih (by omega) (by omega))
    · rw [if_neg (mt lt_pages_iff.mpr inside), if_neg inside]

/-- `freevm` puts the directory, its tables and the frames of its user half on the free list,
each of them once, and no other frame.  The loop over the user half ends within 2^19 rounds
and its address does not wrap around. -/
theorem freevm_exact (models : Models link s V) (isDirectory : V.role d = .directory) :
    (∃ s', (link.freevm d).run s = .ok ((), s') ∧ s.Returned s' fun q => q = d ∨
      (∃ i < 1024, isPresent (s.mem d i) = true ∧ target (s.mem d i) = q) ∨
      ∃ va < kernbase, s.MapsTo d va q) ∧
    ∀ fuel, 2 ^ 19 ≤ fuel →
      link.deallocLoop d kernbase fuel 0 = link.deallocPages d (2 ^ 19) (2 ^ 19) 0 := by
  constructor
  · obtain ⟨_, s', done, V', edited, roles⟩ := (freevm_spec models isDirectory).returns
    have owned : ∀ q, (V.role q).owner = some d ↔
        (∃ i < 1024, isPresent (s.mem d i) = true ∧ target (s.mem d i) = q) ∨
          ∃ va < kernbase, s.MapsTo d va q := by
      intro q
      constructor
      · intro isOwner
        cases role : V.role q with
        | table d' i =>
          rw [role] at isOwner
          cases isOwner
          exact .inl ⟨i, (models.of_table q d i role).2⟩
        | user d' v =>
          rw [role] at isOwner
          cases isOwner
          have small := (models.of_user q d v role).1
          have below : v * pgsize < kernbase := by
            unfold pgsize kernbase
            omega
          refine .inr ⟨v * pgsize, below, (models.mapsTo_iff isDirectory below).mpr ?_⟩
          rw [Nat.mul_div_cancel v (by decide)]
          exact role
        | _ => simp [role, Role.owner] at isOwner
      · rintro (⟨i, small, present, rfl⟩ | ⟨va, low, mapped⟩)
        · rw [models.table_of d i isDirectory small present]
          rfl
        · rw [(models.mapsTo_iff isDirectory low).mp mapped]
          rfl
    refine ⟨s', done, models.returned edited.models (fun q => ?_) fun q freed isFree => ?_⟩
    · rw [roles, View.erase, ← owned]
      split
      · simp_all
      · simp_all
    · rw [← owned, isFree] at freed
      rcases freed with rfl | isOwner
      · rw [isFree] at isDirectory
        cases isDirectory
      · cases isOwner
  · intro fuel more
    have stop : pages kernbase = 2 ^ 19 := by decide
    have loop : link.deallocLoop d kernbase fuel (0 * pgsize) = _ :=
      deallocLoop_eq (Nat.le_refl kernbase) (show pages kernbase ≤ 0 + 2 ^ 19 by rw [stop]; omega)
        more
    rw [Nat.zero_mul, stop] at loop
    exact loop

/-- A process with one page. -/
theorem freevm_exact_page : ∃ s d p s', s.MapsTo d 0 p ∧
    (sampleLink.freevm d).run s = .ok ((), s') ∧ s.Returned s' fun q => q = d ∨
      (∃ i < 1024, isPresent (s.mem d i) = true ∧ target (s.mem d i) = q) ∨
      ∃ va < kernbase, s.MapsTo d va q := by
  have room : 600 ≤ phystop / pgsize := by decide
  obtain ⟨s, V, d, p, space, user, -⟩ := Frames.exists_image (n := 0) (by omega)
  obtain ⟨s', done, returned⟩ := (freevm_exact space.models space.directory).1
  exact ⟨s, d, p, s', (space.models.mapsTo_iff space.directory (by decide)).mpr user, done,
    returned⟩

end Xv6.Vm
