import Xv6.Vm.Boot

/-!
# Translation of kernel addresses

The two levels of a page directory as the hardware reads them.  In every run of the
functions of `vm.c` all directories translate the addresses from `KERNBASE` on alike,
by `kmap`, and none of them for user code.
-/

namespace Xv6.Vm

open Stateful

variable {link : Link} {s s' : Machine} {V : View} {d va v : Nat} {k : Kmap}

/-- The physical address and the flags of the entry for a virtual address. -/
def Machine.translate (s : Machine) (pgdir va : Nat) : Option (Nat × Nat) :=
  let pte := s.entry pgdir (va / pgsize)
  if isPresent pte then some (pteAddr pte + va % pgsize, pteFlags pte) else none

/-- The page of a physical address. -/
theorem Machine.address_div (pte va : Nat) : (pteAddr pte + va % pgsize) / pgsize = target pte := by
  unfold target pteAddr pgsize
  omega

theorem Machine.translate_eq_some {pa flags : Nat} (mapped : s.translate d va = some (pa, flags)) :
    isPresent (s.entry d (va / pgsize)) = true ∧
      pa / pgsize = target (s.entry d (va / pgsize)) := by
  unfold Machine.translate at mapped
  by_cases present : isPresent (s.entry d (va / pgsize)) = true
  · simp only [present, if_true, Option.some.injEq, Prod.mk.injEq] at mapped
    rw [← mapped.1]
    exact ⟨present, Machine.address_div _ _⟩
  · simp [present] at mapped

/-- The address is in the range. -/
def Kmap.Contains (k : Kmap) (va : Nat) : Prop :=
  k.virt ≤ va ∧ va < k.virt + (k.physEnd + 2 ^ 32 - k.physStart) % 2 ^ 32

instance (k : Kmap) (va : Nat) : Decidable (k.Contains va) :=
  inferInstanceAs (Decidable (_ ∧ _))

/-- What `kmap` says about the addresses from `KERNBASE` on. -/
structure KernelHalf (link : Link) (s : Machine) (d : Nat) : Prop where
  mapped : ∀ k ∈ link.kmap, ∀ va, k.Contains va →
    s.translate d va = some (k.physStart + (va - k.virt), k.perm ||| pteP)
  unmapped : ∀ va, kernbase ≤ va → va < 2 ^ 32 → (∀ k ∈ link.kmap, ¬ k.Contains va) →
    s.translate d va = none
  supervisor : ∀ v, kernbase / pgsize ≤ v → v < 2 ^ 20 → isUser (s.entry d v) = false

theorem Kmap.Fits.contains_iff (fits : k.Fits) : k.Contains va ↔ k.Covers (va / pgsize) := by
  unfold Kmap.Contains Kmap.Covers
  rw [fits.virt, fits.size]
  unfold pgsize
  omega

/-- The permissions of `kmap`. -/
theorem Link.perm_eq (link : Link) : ∀ k ∈ link.kmap, k.perm = 0 ∨ k.perm = pteW := by
  simp [Link.kmap]

/-- The flags are below the address of the page. -/
theorem Kmap.entry_eq (member : k ∈ link.kmap) (v : Nat) :
    ∃ flags, k.perm ||| pteP = flags ∧ flags < 4 ∧ flags % 2 = 1 ∧
      ∃ p, k.physStart + (v - k.first) * pgsize = pgsize * p ∧
        k.entry v = pgsize * p + flags := by
  obtain ⟨fits, -, -⟩ := link.kmap_ranges
  obtain ⟨p, phys⟩ := (fits k member).phys
  have page : k.physStart + (v - k.first) * pgsize = pgsize * (p + (v - k.first)) := by
    rw [phys, ← Nat.add_mul, Nat.mul_comm]
  have entry {flags : Nat} (same : k.perm ||| pteP = flags) (small : flags < 4) :
      k.entry v = pgsize * (p + (v - k.first)) + flags := by
    rw [Kmap.entry, page, same]
    exact (Nat.two_pow_add_eq_or_of_lt (i := 12) (by omega) _).symm
  rcases link.perm_eq k member with read | write
  · have same : k.perm ||| pteP = 1 := by
      rw [read]
      rfl
    exact ⟨1, same, by decide, rfl, _, page, entry same (by decide)⟩
  · have same : k.perm ||| pteP = 3 := by
      rw [write]
      rfl
    exact ⟨3, same, by decide, rfl, _, page, entry same (by decide)⟩

/-- The entries of `kmap` give its translation. -/
theorem HasKernel.kernelHalf (has : HasKernel link s d) : KernelHalf link s d := by
  obtain ⟨fits, covers, -⟩ := link.kmap_ranges
  constructor
  · intro k member va inside
    have inside' := (fits k member).contains_iff.mp inside
    obtain ⟨flags, same, small, odd, p, page, entry⟩ := Kmap.entry_eq member (va / pgsize)
    have present : isPresent (pgsize * p + flags) = true := by
      unfold isPresent pgsize
      rw [decide_eq_true_eq]
      omega
    have address : pteAddr (pgsize * p + flags) + va % pgsize = k.physStart + (va - k.virt) := by
      have virt := (fits k member).virt
      have low := inside'.1
      unfold pteAddr
      unfold pgsize at page low virt ⊢
      omega
    have flag : pteFlags (pgsize * p + flags) = k.perm ||| pteP := by
      rw [same]
      unfold pteFlags pgsize
      omega
    unfold Machine.translate
    rw [has.mapped k member _ inside', entry]
    simp only [present, address, flag, if_true]
  · intro va low high outside
    have absent : s.entry d (va / pgsize) = 0 := by
      apply has.unmapped
      · unfold kernbase at low
        unfold pgsize
        omega
      · unfold pgsize
        omega
      · intro k member inside
        exact outside k member ((fits k member).contains_iff.mpr inside)
    unfold Machine.translate
    rw [absent]
    rfl
  · intro v low high
    have kernel : 2 ^ 19 ≤ v := by
      unfold kernbase pgsize at low
      omega
    by_cases covered : ∃ k ∈ link.kmap, k.Covers v
    · obtain ⟨k, member, inside⟩ := covered
      obtain ⟨flags, -, small, -, p, -, entry⟩ := Kmap.entry_eq member v
      rw [has.mapped k member v inside, entry]
      unfold isUser pgsize
      rw [decide_eq_false_iff_not]
      omega
    · rw [has.unmapped v kernel high fun k member inside => covered ⟨k, member, inside⟩]
      rfl

/-- Two directories with the kernel's half translate its addresses alike. -/
theorem KernelHalf.translate_eq {d' : Nat} (half : KernelHalf link s d)
    (half' : KernelHalf link s d') (low : kernbase ≤ va) (high : va < 2 ^ 32) :
    s.translate d va = s.translate d' va := by
  by_cases inside : ∃ k ∈ link.kmap, k.Contains va
  · obtain ⟨k, member, inside⟩ := inside
    rw [half.mapped k member va inside, half'.mapped k member va inside]
  · have outside : ∀ k ∈ link.kmap, ¬ k.Contains va := fun k member here =>
      inside ⟨k, member, here⟩
    rw [half.unmapped va low high outside, half'.unmapped va low high outside]

/-! ## Runs -/

namespace Frames

variable {f f' : Frames}

/-- A call that returns, `inituvm` included. -/
inductive Call (link : Link) : Frames → Frames → Prop
  | step {f f' : Frames} : Step link f f' → Call link f f'
  | inituvm {f : Frames} {s : Machine} {d : Nat} {init : List UInt8} : d ∈ f.dirs →
      (inituvm d init).run f.machine = .ok ((), s) → Call link f (f.setMachine s)

/-- All directories have the kernel's half. -/
structure Fixed (link : Link) (f : Frames) (V : View) : Prop where
  inv : Inv link f V
  kernel : ∀ d ∈ f.dirs, HasKernel link f.machine d

/-- The kernel's half of every directory is kept or has just been made. -/
theorem Fixed.step (fixed : Fixed link f V) (edge : Step link f f') :
    ∀ d ∈ f'.dirs, HasKernel link f'.machine d := by
  obtain ⟨inv, kernel⟩ := fixed
  have kept {s : Machine} (same : ∀ x v, V.role x = .directory → 2 ^ 19 ≤ v → v < 2 ^ 20 →
      s.entry x v = f.machine.entry x v) : ∀ d ∈ f.dirs, HasKernel link s d :=
    fun d member => (kernel d member).congr (same d · (inv.dirs d member))
  have stored {s : Machine} {p : Nat} (plain : V.Plain p)
      (mem : ∀ q ≠ p, s.mem q = f.machine.mem q) : ∀ d ∈ f.dirs, HasKernel link s d := by
    refine kept fun x v observed _ high => inv.models.entry_congr observed (mem x ?_) ?_ high
    · rintro rfl
      exact plain.not_directory observed
    · rintro t i table
      apply mem
      rintro rfl
      exact plain.not_table _ _ table
  cases edge with
  | kinit1 start done =>
    intro d member
    have isDirectory := inv.dirs d member
    rw [inv.outside d (by omega)] at isDirectory
    cases isDirectory
  | kinit2 start done =>
    have first := firstPage_le_of_kinit2 done
    have outside : ∀ q, 1024 ≤ q → V.role q = .outside :=
      fun q above => inv.outside q (by omega)
    obtain ⟨V', -, -, same⟩ := (freerange_spec inv.models first
      (by unfold phystop pgsize; omega) fun q above _ => outside q above).ok done
    have low : ∀ q, V.role q ≠ .outside → q < 1024 := by
      intro q inside
      by_contra above
      exact inside (outside q (by omega))
    refine kept fun x v observed _ high => inv.models.entry_congr observed ?_ ?_ high
    · exact (same x (.inl (low x (by simp [observed])))).2
    · exact fun t i table => (same t (.inl (low t (by simp [table])))).2
  | kalloc done =>
    have mem := ((kalloc_spec inv.models).ok done).1
    exact kept fun x v observed _ high => inv.models.entry_congr observed (congrFun mem x)
      (fun t _ _ => congrFun mem t) high
  | kallocFails done =>
    have mem := ((kalloc_spec inv.models).ok done).2.mem
    exact kept fun x v observed _ high => inv.models.entry_congr observed (congrFun mem x)
      (fun t _ _ => congrFun mem t) high
  | kfree member done =>
    have isHeld := inv.held _ member
    obtain ⟨inside, top⟩ := inv.models.managed _ (by rw [isHeld]; simp)
    exact stored (View.Plain.of_held isHeld)
      ((kfree_spec inv.models (.inl isHeld) inside top).ok done).2.2
  | store words member =>
    exact stored (View.Plain.of_held (inv.held _ member)) fun q other =>
      Function.update_of_ne other _ _
  | storeUser words occupies =>
    exact stored (View.Plain.of_user (inv.role_eq occupies)) fun q other =>
      Function.update_of_ne other _ _
  | setupkvm done =>
    obtain ⟨-, V', space⟩ := (setupkvm_spec inv.models).ok done
    refine List.forall_mem_cons.mpr ⟨space.kernel, kept fun x v observed _ high => ?_⟩
    exact space.entry inv.models observed high
  | setupkvmFails done =>
    obtain ⟨V', preserved, -⟩ := (setupkvm_spec inv.models).ok done
    exact kept fun x v observed _ high => preserved.entry inv.models observed high
  | @allocuvm _ _ _ newsz _ member done =>
    have isDirectory := inv.dirs _ member
    by_cases low : newsz ≤ kernbase
    · have top := pages_le low
      obtain ⟨V', edited, -⟩ := (allocuvm_own inv.models isDirectory).ok done
      exact kept fun x v observed => edited.entry_kernel inv.models isDirectory (by omega) observed
    · rw [Link.allocuvm, if_pos (by omega)] at done
      cases done
      exact kernel
  | deallocuvm member low done =>
    have isDirectory := inv.dirs _ member
    have top := pages_le low
    obtain ⟨-, V', edited, -⟩ := (deallocuvm_spec inv.models isDirectory low).ok done
    exact kept fun x v observed => edited.entry_kernel inv.models isDirectory (by omega) observed
  | @clearpteu _ d uva member high done =>
    have isDirectory := inv.dirs _ member
    have cut := (clearpteu_spec inv.models isDirectory high).ok done
    refine kept fun x v observed low high => ?_
    by_cases same : x = d
    · subst same
      by_cases here : v = uva / pgsize
      · subst here
        refine cut.word.trans ?_
        rw [(kernel x member).kernelHalf.supervisor _ low high]
        rfl
      · exact cut.entry v high here
    · exact cut.entry_other inv.models (.inl isDirectory) observed same high
  | copyuvm member done =>
    obtain ⟨V', preserved, -, built⟩ := (copyuvm_spec inv.models (inv.dirs _ member)).ok done
    refine List.forall_mem_cons.mpr ⟨built.kernel, kept fun x v observed _ high => ?_⟩
    exact preserved.entry inv.models observed high
  | copyuvmFails member done =>
    obtain ⟨V', preserved, -⟩ := (copyuvm_spec inv.models (inv.dirs _ member)).ok done
    exact kept fun x v observed _ high => preserved.entry inv.models observed high
  | freevm member done =>
    intro d' member'
    obtain ⟨other, old⟩ := inv.dirs_nodup.mem_erase_iff.mp member'
    obtain ⟨V', edited, -⟩ := (freevm_spec inv.models (inv.dirs _ member)).ok done
    exact (kernel d' old).congr fun v _ high =>
      edited.entry_other inv.models (.inl (inv.dirs _ member)) (inv.dirs d' old) other high

/-- `inituvm`, also when the page cannot be entered. -/
theorem inituvm_own {init : List UInt8} (models : Models link s V)
    (isDirectory : V.role d = .directory) :
    Wp (inituvm d init) (fun _ => True)
      (fun _ s' => ∃ V', Edited link d (· = 0) s V s' V' ∧ Own d V V') s := by
  unfold inituvm
  split
  · trivial
  · apply (kalloc_spec models).always
    rintro (_ | p) s₁ answer
    · trivial
    · obtain ⟨-, list, taken⟩ := answer
      have cleared := taken.setPage fun _ => 0
      have entering := cleared.mappages_spec (v := 0) models isDirectory (by decide)
        (show pteW ||| pteU < pgsize by decide)
      rw [Nat.zero_mul] at entering
      simp only [wp_bind, wp_modify]
      apply entering.mono (fun _ _ => trivial)
      rintro _ s₂ (⟨-, -, refused⟩ | ⟨-, -, V₂, grown, user, -⟩)
      · exact ⟨_, (cleared.abandoned models isDirectory refused).trans (.setPage refused.models
          (taken.isDirectory isDirectory) (.inl View.use_role_self) _), taken.lost.own⟩
      · exact ⟨V₂, (grown.toEdited.mono (by omega)).trans (.setPage grown.models
          (grown.extends.directory isDirectory) (.inr ⟨0, by rfl, user⟩) _), grown.extends.own⟩

theorem Fixed.call (fixed : Fixed link f V) (edge : Call link f f') : ∃ V', Fixed link f' V' := by
  cases edge with
  | step edge =>
    obtain ⟨V', inv⟩ := fixed.inv.step edge
    exact ⟨V', inv, fixed.step edge⟩
  | inituvm member done =>
    have isDirectory := fixed.inv.dirs _ member
    obtain ⟨V', edited, own⟩ := (inituvm_own fixed.inv.models isDirectory).ok done
    refine ⟨V', fixed.inv.keep edited.models own.keeps, fun d here => ?_⟩
    exact (fixed.kernel d here).congr fun v => edited.entry_kernel fixed.inv.models isDirectory
      (by omega) (fixed.inv.dirs d here)

theorem Fixed.initial (mem : Nat → Nat → Nat) (refuse : Nat → Bool) :
    Fixed link (Frames.initial mem refuse) ⟨fun _ => .outside, []⟩ :=
  ⟨Inv.initial mem refuse, fun d member => by cases member⟩

theorem Fixed.calls (fixed : Fixed link f V) (run : Relation.ReflTransGen (Call link) f f') :
    ∃ V', Fixed link f' V' := by
  induction run with
  | refl => exact ⟨V, fixed⟩
  | tail _ edge ih =>
    obtain ⟨V', fixed'⟩ := ih
    exact fixed'.call edge

/-- The kernel's half of every address space is fixed.  After any calls every directory
translates the addresses from `KERNBASE` on as `kmap` says, without access for user code,
and all directories translate them alike. -/
theorem kernel_half_fixed {mem : Nat → Nat → Nat} {refuse : Nat → Bool}
    (run : Relation.ReflTransGen (Call link) (Frames.initial mem refuse) f) :
    (∀ d ∈ f.dirs, KernelHalf link f.machine d) ∧
      ∀ d ∈ f.dirs, ∀ d' ∈ f.dirs, ∀ va, kernbase ≤ va → va < 2 ^ 32 →
        f.machine.translate d va = f.machine.translate d' va := by
  obtain ⟨V, -, kernel⟩ := (Fixed.initial mem refuse).calls run
  refine ⟨fun d member => (kernel d member).kernelHalf, fun d member d' member' va low high => ?_⟩
  exact (kernel d member).kernelHalf.translate_eq (kernel d' member').kernelHalf low high

/-- After the first `setupkvm` the kernel's text is where it has been linked. -/
theorem kernel_half_text : ∃ f d,
    Relation.ReflTransGen (Call sampleLink) (Frames.initial (fun _ _ => 0) fun _ => false) f ∧
      d ∈ f.dirs ∧ f.machine.translate d 0x80100123 = some (0x100123, pteP) := by
  obtain ⟨f, d, V, run, member, -⟩ :=
    exists_directory sampleLink (by decide) length_setupDemand_le
  have calls : Relation.ReflTransGen (Call sampleLink) _ f :=
    run.lift id fun _ _ => Call.step
  refine ⟨f, d, calls, member, ?_⟩
  exact ((kernel_half_fixed calls).1 d member).mapped
    ⟨kernlink, extmem, sampleLink.data, 0⟩ (by simp [Link.kmap]) 0x80100123 (by decide)

end Frames

end Xv6.Vm
