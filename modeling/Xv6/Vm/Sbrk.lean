import Xv6.Vm.Copying
import Xv6.Vm.Processes

/-!
# `sbrk`

`growproc` reports an error by the size 0.  A shrink to 0 bytes is one for it, although it has
freed the pages, and a shrink below 0 is none.  `allocuvm` ignores the result of `mappages`, so
that a growth succeeds without its last page if the memory lacks just the page for the page
table of that page.  Otherwise a call is exact, or fails and changes nothing.
-/

namespace Xv6.Vm

open Stateful

variable {link : Link} {s s' : Machine} {V V' : View} {R : Nat → Prop} {d va sz newsz : Nat}
  {proc : Proc} {n : Int}

/-! ## What user code sees -/

/-- The address is mapped as before and the byte there is the same. -/
def Machine.SameAt (s s' : Machine) (d va : Nat) : Prop :=
  s'.translate d va = s.translate d va ∧ s'.load d va = s.load d va

/-- The user half has the addresses below a size, rounded up to whole pages. -/
def Machine.Spans (s : Machine) (d sz : Nat) : Prop :=
  ∀ va < kernbase, s.translate d va ≠ none ↔ va < pgroundup sz

theorem Edited.sameAt (edited : Edited link d R s V s' V') (models : Models link s V)
    (isDirectory : V.role d = .directory) (low : va < kernbase) (outside : ¬ R (va / pgsize)) :
    s.SameAt s' d va := by
  have below := Frames.page_lt_of_low low
  have entry := edited.entry (va / pgsize) (by omega) outside
  refine ⟨by rw [Machine.translate, Machine.translate, entry], ?_⟩
  rw [Machine.load_eq, Machine.load_eq, entry]
  split
  · rename_i present
    have user := models.role_entry isDirectory below present
    rw [(edited.page (.inl isDirectory) user fun _ => outside).2]
  · rfl

theorem Models.translate_ne_none_iff (models : Models link s V)
    (isDirectory : V.role d = .directory) (low : va < kernbase) :
    s.translate d va ≠ none ↔ V.Mapped d (va / pgsize) := by
  have below := Frames.page_lt_of_low low
  have shown : s.translate d va ≠ none ↔ isPresent (s.entry d (va / pgsize)) = true := by
    unfold Machine.translate
    simp
  rw [shown]
  constructor
  · exact fun present => ⟨_, models.role_entry isDirectory below present⟩
  · rintro ⟨p, user⟩
    exact (models.entry_user user).1

/-- The addresses of a page. -/
theorem lt_pgroundup_iff (low : sz ≤ kernbase) : va < pgroundup sz ↔ va / pgsize < pages sz := by
  rw [pgroundup_eq low]
  exact (Nat.div_lt_iff_lt_mul (by decide)).symm

theorem Contiguous.spans (image : Contiguous V d sz) (models : Models link s V) : s.Spans d sz := by
  intro va low
  rw [models.translate_ne_none_iff image.directory low, image.mapped, lt_pgroundup_iff image.low]

/-- A page that has just been entered for the user shows zeros. -/
theorem Backed.load_eq {perm : Nat} (backed : Backed d (va / pgsize) perm (fun _ => 0) V s)
    (small : perm < pgsize) : s.load d va = some 0 := by
  rw [Machine.load_eq, if_pos backed.present, (backed.mem small).2]
  simp [Machine.byte]

/-! ## The property -/

/-- The call is exact if the new size is one for which there is memory; otherwise it fails and
changes nothing. -/
def SbrkExact (proc : Proc) (n : Int) (enough : Prop) (s : Machine) (r : Option Proc)
    (s' : Machine) : Prop :=
  (0 ≤ proc.sz + n ∧ proc.sz + n < kernbase ∧ enough →
    ∃ newsz : Nat, proc.sz + n = newsz ∧ r = some { proc with sz := newsz } ∧
      s'.Spans proc.pgdir newsz ∧
      (∀ va, va < pgroundup proc.sz → va < pgroundup newsz → s.SameAt s' proc.pgdir va) ∧
      ∀ va, pgroundup proc.sz ≤ va → va < pgroundup newsz → s'.load proc.pgdir va = some 0) ∧
  (¬ (0 ≤ proc.sz + n ∧ proc.sz + n < kernbase ∧ enough) →
    r = none ∧ ∀ va < kernbase, s.SameAt s' proc.pgdir va)

/-- When a call of `sbrk` is exact: it does not shrink the process to 0 bytes or below, and the
memory does not lack just a page for the last page table. -/
def SbrkFair (proc : Proc) (n : Int) (demand : List Request) (free : Nat) : Prop :=
  (n < 0 → 0 < proc.sz + n ∨ proc.sz = 0) ∧
    ¬ (free + 1 = demand.length ∧ demand.getLast? = some .userTable)

/-! ## Growing -/

/-- `allocuvm` has failed and left no page. -/
theorem Edited.sameAt_of_vacant
    (edited : Edited link d (fun v => pages sz ≤ v ∧ v < pages newsz) s V s' V')
    (models : Models link s V) (image : Contiguous V d sz) (isDirectory : V'.role d = .directory)
    (vacant : V'.Vacant d sz newsz) (low : va < kernbase) : s.SameAt s' d va := by
  by_cases inside : pages sz ≤ va / pgsize ∧ va / pgsize < pages newsz
  · have before : s.translate d va = none := by
      by_contra mapped
      rw [← ne_eq, models.translate_ne_none_iff image.directory low, image.mapped] at mapped
      omega
    have after : s'.translate d va = none := by
      by_contra mapped
      rw [← ne_eq, edited.models.translate_ne_none_iff isDirectory low] at mapped
      exact vacant _ inside.1 inside.2 mapped
    refine ⟨after.trans before.symm, ?_⟩
    rw [Machine.load, Machine.load, after, before]
    rfl
  · exact edited.sameAt models image.directory low inside

theorem NewTables.vacant (added : NewTables d V V') (vacant : V.Vacant d sz newsz) :
    V'.Vacant d sz newsz := by
  rintro v after before ⟨q, user⟩
  rcases added q with same | ⟨-, i, table⟩
  · exact vacant v after before ⟨q, same.symm.trans user⟩
  · rw [table] at user
    cases user

/-- `allocuvm` has succeeded. -/
theorem Grown.exact (grown : Grown link [.data] d (pages sz) (pages newsz - pages sz) s V s' V')
    (backed : ∀ v, pages sz ≤ v → v < pages newsz → Backed d v (pteW ||| pteU) (fun _ => 0) V s')
    (models : Models link s V) (image : Contiguous V d sz) (larger : sz ≤ newsz)
    (low : newsz < kernbase) :
    s'.Spans d newsz ∧ (∀ va, va < pgroundup sz → va < pgroundup newsz → s.SameAt s' d va) ∧
      ∀ va, pgroundup sz ≤ va → va < pgroundup newsz → s'.load d va = some 0 := by
  refine ⟨(grown.contiguous models image low.le larger).spans grown.models, ?_, ?_⟩
  · intro va before _
    have below : va < kernbase := by
      rw [lt_pgroundup_iff image.low] at before
      have bound := pages_le image.low
      unfold kernbase
      unfold pgsize at before
      omega
    rw [lt_pgroundup_iff image.low] at before
    exact grown.sameAt models image.directory below (by omega)
  · intro va after before
    rw [lt_pgroundup_iff low.le] at before
    rw [← not_lt, lt_pgroundup_iff image.low] at after
    exact (backed _ (by omega) before).load_eq (by decide)

theorem growproc_grows (models : Models link s V) (image : Contiguous V proc.pgdir proc.sz)
    (reliable : s.refuse = fun _ => false) (low : proc.sz < kernbase) (positive : 0 < n)
    (bound : n < 2 ^ 31) :
    Wp (link.growproc proc n) (fun _ => False) (fun r s' =>
      SbrkExact proc n
        ((sbrkDemand (s.tables proc.pgdir) proc.sz n).length ≤ V.free.length) s r s' ↔
      SbrkFair proc n (sbrkDemand (s.tables proc.pgdir) proc.sz n) V.free.length) s := by
  obtain ⟨newsz, isNew⟩ : ∃ newsz : Nat, proc.sz + n = newsz := ⟨(proc.sz + n).toNat, by omega⟩
  have wrapped : ((proc.sz + n) % 2 ^ 32).toNat = newsz := by
    unfold kernbase at low
    omega
  have vacant : V.Vacant proc.pgdir proc.sz newsz := by
    intro v after _ mapped
    rw [image.mapped] at mapped
    omega
  unfold Link.growproc sbrkDemand
  dsimp only
  rw [wrapped, if_pos positive, if_pos positive]
  by_cases high : kernbase ≤ newsz
  · -- too large
    unfold Link.allocuvm allocDemand
    rw [if_pos high, if_pos (.inl high)]
    refine iff_of_true ⟨fun valid => ?_, fun _ => ⟨rfl, fun va _ => ⟨rfl, rfl⟩⟩⟩ ⟨?_, ?_⟩
    · omega
    · omega
    · simp
  · apply (allocuvm_spec models image.directory (by omega) (by omega)).bind
    · rintro _ ⟨-, notVacant⟩
      exact notVacant vacant
    rintro r s' ⟨V', edited, own, ending⟩
    have isDirectory := own.stays image.directory (by simp) (by simp)
    have fate : (s.supply V).firstRefused (allocDemand (s.tables proc.pgdir) proc.sz newsz) =
        (allocDemand (s.tables proc.pgdir) proc.sz newsz)[V.free.length]? :=
      Supply.firstRefused_eq_getElem? reliable
    rw [fate] at ending
    generalize allocDemand (s.tables proc.pgdir) proc.sz newsz = requests at ending ⊢
    have fair_iff : SbrkFair proc n requests V.free.length ↔
        ¬ (V.free.length + 1 = requests.length ∧ requests[V.free.length]? = some .userTable) := by
      unfold SbrkFair
      rw [and_iff_right (by omega), List.getLast?_eq_getElem?]
      refine not_congr (and_congr_right fun last => ?_)
      rw [← last, Nat.add_sub_cancel]
    have failed : V'.Vacant proc.pgdir proc.sz newsz →
        requests[V.free.length]? ≠ none →
        SbrkExact proc n (requests.length ≤ V.free.length) s none s' := by
      intro vacant' short
      rw [ne_eq, List.getElem?_eq_none_iff] at short
      refine ⟨fun valid => absurd valid.2.2 short, fun _ => ⟨rfl, fun va below => ?_⟩⟩
      exact edited.sameAt_of_vacant models image isDirectory vacant' below
    rw [fair_iff]
    generalize isFate : requests[V.free.length]? = request at ending failed ⊢
    cases request with
    | none =>
      obtain ⟨rfl, grown, backed⟩ := ending
      rw [List.getElem?_eq_none_iff] at isFate
      rw [if_neg (by omega)]
      refine iff_of_true ⟨fun _ => ⟨_, isNew, rfl, ?_⟩, fun invalid => ?_⟩ (by simp)
      · exact grown.exact backed models image (by omega) (by omega)
      · exact absurd ⟨by omega, by omega, isFate⟩ invalid
    | some request =>
      cases request with
      | userTable =>
        have overrun := ending.2 reliable
        split at overrun
        · rename_i last
          obtain ⟨rfl, -⟩ := overrun
          rw [if_neg (by omega)]
          refine iff_of_false (fun exactly => ?_) (by simp [last])
          exact absurd (exactly.2 fun valid => absurd valid.2.2 (by omega)).1 (by simp)
        · rename_i notLast
          rw [if_pos overrun.1]
          exact iff_of_true (failed (overrun.2 vacant) (by simp)) (by simp [notLast])
      | _ =>
        rw [if_pos ending.1]
        exact iff_of_true (failed ((ending.2.2 vacant).vacant vacant) (by simp)) (by simp)

/-! ## Shrinking -/

theorem growproc_shrinks {demand : List Request} (models : Models link s V)
    (image : Contiguous V proc.pgdir proc.sz) (low : proc.sz < kernbase) (negative : n < 0)
    (bound : -2 ^ 31 ≤ n) (none : demand = []) :
    Wp (link.growproc proc n) (fun _ => False) (fun r s' =>
      SbrkExact proc n (demand.length ≤ V.free.length) s r s' ↔
      SbrkFair proc n demand V.free.length) s := by
  subst none
  unfold Link.growproc
  dsimp only
  rw [if_neg (by omega), if_pos negative]
  apply (deallocuvm_contiguous models image).seq
  rintro r s' ⟨result, V', edited, image', -⟩
  generalize isNew : ((proc.sz + n) % 2 ^ 32).toNat = newsz at result edited image'
  have fair_iff : SbrkFair proc n [] V.free.length ↔ 0 < proc.sz + n ∨ proc.sz = 0 := by
    simp [SbrkFair, negative]
  rw [fair_iff]
  unfold kernbase at low
  by_cases below : proc.sz + n < 0
  · -- the new size wraps around, and nothing is freed
    have larger : proc.sz ≤ newsz := by omega
    rw [min_eq_left larger] at result
    have same : ∀ va < kernbase, s.SameAt s' proc.pgdir va := by
      intro va under
      have none := pages_mono larger
      exact edited.sameAt models image.directory under (by omega)
    subst result
    split
    · rename_i zero
      exact iff_of_true ⟨fun valid => by omega, fun _ => ⟨rfl, same⟩⟩ (.inr zero)
    · rename_i nonzero
      refine iff_of_false (fun exactly => ?_) (by omega)
      exact absurd (exactly.2 fun valid => by omega).1 (by simp)
  · have isSum : proc.sz + n = newsz := by omega
    have smaller : newsz ≤ proc.sz := by omega
    rw [min_eq_right smaller] at result image'
    subst result
    split
    · rename_i zero
      refine iff_of_false (fun exactly => ?_) (by omega)
      obtain ⟨_, -, wrong, -⟩ := exactly.1 ⟨by omega, by unfold kernbase; omega, by simp⟩
      cases wrong
    · rename_i nonzero
      refine iff_of_true ⟨fun _ => ⟨_, isSum, rfl, image'.spans edited.models, ?_, ?_⟩, ?_⟩
        (.inl (by omega))
      · intro va _ before
        have under : va < kernbase := by
          rw [lt_pgroundup_iff image'.low] at before
          have bound := pages_le image'.low
          unfold kernbase
          unfold pgsize at before
          omega
        rw [lt_pgroundup_iff image'.low] at before
        exact edited.sameAt models image.directory under (by omega)
      · intro va after before
        rw [lt_pgroundup_iff image'.low] at before
        rw [← not_lt, lt_pgroundup_iff image.low] at after
        have fewer := pages_mono smaller
        omega
      · exact fun invalid => absurd ⟨by omega, by unfold kernbase; omega, by simp⟩ invalid

/-- `sbrk` is exact and atomic just when it is fair.  `kalloc` fails only when the free list is
empty; memory suffices when the list has a page for each new page and for each new page table. -/
theorem sbrk_exact_iff (models : Models link s V) (image : Contiguous V proc.pgdir proc.sz)
    (reliable : s.refuse = fun _ => false) (low : proc.sz < kernbase) (least : -2 ^ 31 ≤ n)
    (most : n < 2 ^ 31) :
    (∃ r s', (link.growproc proc n).run s = .ok (r, s') ∧ SbrkExact proc n
      ((sbrkDemand (s.tables proc.pgdir) proc.sz n).length ≤ V.free.length) s r s') ↔
    SbrkFair proc n (sbrkDemand (s.tables proc.pgdir) proc.sz n) V.free.length := by
  have spec : Wp (link.growproc proc n) (fun _ => False) (fun r s' =>
      SbrkExact proc n
        ((sbrkDemand (s.tables proc.pgdir) proc.sz n).length ≤ V.free.length) s r s' ↔
      SbrkFair proc n (sbrkDemand (s.tables proc.pgdir) proc.sz n) V.free.length) s := by
    rcases lt_trichotomy n 0 with negative | rfl | positive
    · exact growproc_shrinks models image low negative least (if_neg (by omega))
    · unfold Link.growproc
      dsimp only
      rw [if_neg (by omega), if_neg (by omega), sbrkDemand, if_neg (by omega)]
      refine iff_of_true ⟨fun _ => ⟨proc.sz, by simp, rfl, image.spans models, ?_, ?_⟩, ?_⟩ ?_
      · exact fun va _ _ => ⟨rfl, rfl⟩
      · exact fun va after before => absurd before (by omega)
      · exact fun invalid => absurd ⟨by omega, by omega, by simp⟩ invalid
      · simp [SbrkFair]
    · exact growproc_grows models image reliable low positive most
  obtain ⟨r, s', done, holds⟩ := spec.returns
  constructor
  · rintro ⟨r', s'', done', exactly⟩
    rw [done] at done'
    cases done'
    exact holds.mp exactly
  · exact fun fair => ⟨r, s', done, holds.mpr fair⟩

/-- A process with one page, and memory for another one. -/
theorem sbrk_exact_page : ∃ s, ∃ V : View, ∃ d r s',
    (Frames.sampleLink.growproc ⟨d, pgsize, 0⟩ pgsize).run s = .ok (r, s') ∧
      SbrkExact ⟨d, pgsize, 0⟩ pgsize
        ((sbrkDemand (s.tables d) pgsize pgsize).length ≤ V.free.length) s r s' := by
  have room : 700 ≤ phystop / pgsize := by decide
  obtain ⟨s, V, d, p, space, -, never, free⟩ := Frames.exists_image (n := 9) (by omega)
  have whole : Contiguous V (Proc.mk d pgsize 0).pgdir (Proc.mk d pgsize 0).sz := space.toContiguous
  refine ⟨s, V, d, (sbrk_exact_iff space.models whole never (show pgsize < kernbase by decide)
    (by decide) (by decide)).mpr
      ⟨fun negative => absurd negative (by decide), fun last => ?_⟩⟩
  have demand : (sbrkDemand (s.tables d) pgsize pgsize).length = 1 := by
    rw [space.tables]
    decide
  rw [demand, free] at last
  exact absurd last.1 (by decide)

/-- `sbrk` of minus the size frees the page and reports an error. -/
theorem sbrk_frees_all : ∃ s V d, Models Frames.sampleLink s V ∧ Contiguous V d pgsize ∧
    s.refuse = (fun _ => false) ∧
    ¬ ∃ r s', (Frames.sampleLink.growproc ⟨d, pgsize, 0⟩ (-pgsize)).run s = .ok (r, s') ∧
      SbrkExact ⟨d, pgsize, 0⟩ (-pgsize)
        ((sbrkDemand (s.tables d) pgsize (-pgsize)).length ≤ V.free.length) s r s' := by
  have room : 700 ≤ phystop / pgsize := by decide
  obtain ⟨s, V, d, p, space, -, never, -⟩ := Frames.exists_image (n := 9) (by omega)
  refine ⟨s, V, d, space.models, space.toContiguous, never, ?_⟩
  rintro ⟨r, s', done, exactly⟩
  have whole : Contiguous V (Proc.mk d pgsize 0).pgdir (Proc.mk d pgsize 0).sz := space.toContiguous
  have fair := ((growproc_shrinks space.models whole (show pgsize < kernbase by decide)
    (by decide) (by decide) (if_neg (by decide))).ok done).mp exactly
  exact absurd (fair.1 (by decide)) (show ¬ (0 < (pgsize : Int) + -pgsize ∨ pgsize = 0) by decide)

end Xv6.Vm
