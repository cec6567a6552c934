import Xv6.Vm.Frames
import Xv6.Vm.Image

/-!
# A machine after boot

The pages that the kernel's half of a directory takes are few, so that after `kinit1` there is
memory for a directory and for a small program.
-/

namespace Xv6.Vm

open Stateful Linked

variable {link : Link} {s s' : Machine} {V V' : View} {d : Nat}

theorem Space.of_new (space : NewSpace link d s V s' V') (models : Models link s V) :
    Space link d 0 s' V' := by
  have empty : pages 0 = 0 := by decide
  refine ⟨⟨space.directory, Nat.zero_le _, ?_⟩, space.models, ?_, space.kernel⟩
  · intro v
    rw [empty]
    simp [space.not_mapped models]
  · rw [space.tables_eq]
    funext i
    simp [spaceTables, empty]

/-- `setupkvm` if nothing that it asks for is refused. -/
theorem setupkvm_grants (models : Models link s V)
    (granted : (s.supply V).firstRefused link.setupDemand = none) :
    Wp link.setupkvm (fun _ => False)
      (fun r s' => ∃ d V', r = some d ∧ NewSpace link d s V s' V') s := by
  apply (setupkvm_spec models).imp
  rintro (_ | d) s₁ result
  · obtain ⟨V', -, -, ⟨refused, -⟩ | ⟨refused, -⟩⟩ := result
    · cases granted.symm.trans refused
    · cases granted.symm.trans refused
  · obtain ⟨-, V', new⟩ := result
    exact ⟨d, V', rfl, new⟩

namespace Frames

variable {f : Frames} {k : Supply}

/-- The requests for `n` pages ask for every table at most once. -/
theorem length_demand_le (data : List Request) (has : Nat → Bool) (v n : Nat) :
    (Vm.demand data has v n).length ≤
      n * data.length + ((v + n) / 1024 - v / 1024) + if has (v / 1024) then 0 else 1 := by
  induction n generalizing has v with
  | zero => simp [Vm.demand]
  | succ n ih =>
    have rest := ih (fun i => has i || i == v / 1024) (v + 1)
    have table : (pageDemand has v).length = if has (v / 1024) then 0 else 1 := by
      unfold pageDemand
      split <;> rfl
    rw [Vm.demand, List.length_append, List.length_append, table, Nat.succ_mul]
    rw [show v + 1 + n = v + (n + 1) by omega] at rest
    by_cases same : (v + 1) / 1024 = v / 1024
    · simp only [same, beq_self_eq_true, Bool.or_true, if_true] at rest
      omega
    · have bound : (if (has ((v + 1) / 1024) || (v + 1) / 1024 == v / 1024) = true
          then 0 else 1) ≤ 1 := by split <;> omega
      omega

theorem length_kernelDemand_le (ranges : List Kmap) (has : Nat → Bool) :
    (kernelDemand has ranges).length ≤ (ranges.map fun k => k.count / 1024 + 2).sum := by
  induction ranges generalizing has with
  | nil => exact Nat.le_refl _
  | cons k rest ih =>
    have first := length_demand_le [] has k.first k.count
    have bound : (if has (k.first / 1024) = true then 0 else 1) ≤ 1 := by split <;> omega
    rw [kernelDemand, List.length_append, List.map_cons, List.sum_cons]
    apply Nat.add_le_add _ (ih _)
    rw [List.length_nil, Nat.mul_zero] at first
    omega

theorem length_setupDemand_le : sampleLink.setupDemand.length ≤ 72 := by
  rw [Link.setupDemand, List.length_cons]
  have tables := length_kernelDemand_le sampleLink.kmap fun _ => false
  have count : (sampleLink.kmap.map fun k => k.count / 1024 + 2).sum = 71 := by decide
  omega

/-- `freerange` does not call `kalloc`. -/
theorem freerange_calls (p n : Nat) :
    Advances (fun s s' => s'.refuse = s.refuse ∧ s'.calls = s.calls) (link.freerange p n) := by
  have trans : ∀ {a b c : Machine}, b.refuse = a.refuse ∧ b.calls = a.calls →
      c.refuse = b.refuse ∧ c.calls = b.calls → c.refuse = a.refuse ∧ c.calls = a.calls :=
    fun first second => ⟨second.1.trans first.1, second.2.trans first.2⟩
  induction n generalizing p with
  | zero => exact fun _ => ⟨rfl, rfl⟩
  | succ n ih =>
    have freed : Advances (fun s s' => s'.refuse = s.refuse ∧ s'.calls = s.calls)
        (link.kfree p) := by
      unfold Link.kfree
      split
      · exact Advances.bind trans (Advances.throw _) fun _ => Advances.modify fun _ => ⟨rfl, rfl⟩
      · exact Advances.modify fun _ => ⟨rfl, rfl⟩
    exact Advances.bind trans freed fun _ => ih _

/-- If the memory is empty, `freerange` makes just its pages free. -/
theorem exists_pool (link : Link) {n : Nat} (few : link.firstPage + n ≤ phystop / pgsize)
    (refuse : Nat → Bool) : ∃ s V,
    (link.freerange link.firstPage n).run (Frames.initial (fun _ _ => 0) refuse).machine =
        .ok ((), s) ∧
      Models link s V ∧ s.refuse = refuse ∧ s.calls = 0 ∧ V.free.length = n := by
  have start : Inv link (Frames.initial (fun _ _ => 0) refuse) ⟨fun _ => .outside, []⟩ :=
    Inv.initial _ _
  obtain ⟨_, s, done, V, models, free, same⟩ := (freerange_spec start.models
    (Nat.le_refl link.firstPage) few fun _ _ _ => rfl).returns
  obtain ⟨sameRefuse, sameCalls⟩ := (freerange_calls _ _ _).ok done
  refine ⟨s, V, done, models, sameRefuse, sameCalls, ?_⟩
  have perm : V.free.Perm (List.range' link.firstPage n) := by
    refine (List.perm_ext_iff_of_nodup models.chain.nodup List.nodup_range').mpr fun q => ?_
    rw [models.free_iff, List.mem_range'_1]
    refine ⟨fun isFree => ?_, fun inside => free q inside.1 inside.2⟩
    by_contra elsewhere
    cases isFree.symm.trans (same q (by omega)).1
  rw [perm.length_eq, List.length_range']

/-- After `kinit1` most of the first four megabytes are free. -/
theorem exists_memory (link : Link) (room : link.firstPage ≤ 332) (refuse : Nat → Bool) : ∃ f V,
    Relation.ReflTransGen (Step link) (Frames.initial (fun _ _ => 0) refuse) f ∧
      Inv link f V ∧ f.machine.refuse = refuse ∧ f.machine.calls = 0 ∧ 692 ≤ V.free.length := by
  obtain ⟨s, V, done, models, isRefuse, isCalls, free⟩ :=
    exists_pool link (n := 1024 - link.firstPage) (by unfold phystop pgsize; omega) refuse
  have run := Relation.ReflTransGen.refl.tail (Step.kinit1 rfl done)
  obtain ⟨V', inv⟩ := Inv.of_run run
  refine ⟨_, V', run, inv, isRefuse, isCalls, ?_⟩
  rw [inv.models.chain.unique models.chain, free]
  omega

/-- A new directory with the pages from `oldsz` to `newsz`, if there is memory for it. -/
theorem setup_grows {oldsz newsz : Nat} (models : Models link s V)
    (granted : (s.supply V).firstRefused
      (link.setupDemand ++ allocDemand (spaceTables 0) oldsz newsz) = none)
    (low : newsz < kernbase) : ∃ d r s₁ V₁ s₂ V₂, link.setupkvm.run s = .ok (some d, s₁) ∧
      NewSpace link d s V s₁ V₁ ∧ (link.allocuvm d oldsz newsz).run s₁ = .ok (r, s₂) ∧
      Grown link [.data] d (pages oldsz) (pages newsz - pages oldsz) s₁ V₁ s₂ V₂ ∧
      s₂.supply V₂ = (s.supply V).after
        (link.setupDemand ++ allocDemand (spaceTables 0) oldsz newsz).length := by
  rw [Supply.firstRefused_append, Option.or_eq_none_iff] at granted
  obtain ⟨_, s₁, done₁, d, V₁, rfl, new⟩ := (setupkvm_grants models granted.1).returns
  have tables := (Space.of_new new models).tables
  have granted₁ : (s₁.supply V₁).firstRefused (allocDemand (s₁.tables d) oldsz newsz) = none := by
    rw [new.supply, tables]
    exact granted.2
  obtain ⟨r, s₂, done₂, V₂, -, ⟨-, -, -, grown, -, supply⟩ | ⟨high | refused, -⟩⟩ :=
    (allocuvm_grows new.models new.directory (fun v _ _ => new.not_mapped models)
      (by rw [granted₁]; exact nofun)).returns
  · refine ⟨d, r, s₁, V₁, s₂, V₂, done₁, new, done₂, grown, ?_⟩
    rw [supply, new.supply, tables, Supply.after_after, List.length_append]
  · omega
  · exact absurd granted₁ refused

/-- A machine with such a directory and `n` free pages. -/
theorem exists_grown {n oldsz newsz : Nat}
    (few : 500 + (allocDemand (spaceTables 0) oldsz newsz).length + n ≤ phystop / pgsize)
    (low : newsz < kernbase) : ∃ d s₁ V₁ s V, Space sampleLink d 0 s₁ V₁ ∧
      Grown sampleLink [.data] d (pages oldsz) (pages newsz - pages oldsz) s₁ V₁ s V ∧
      s.refuse = (fun _ => false) ∧ V.free.length = n := by
  have setup := length_setupDemand_le
  have first : sampleLink.firstPage ≤ 332 := by decide
  have total : (sampleLink.setupDemand ++ allocDemand (spaceTables 0) oldsz newsz).length = _ :=
    List.length_append
  obtain ⟨s, V, -, models, never, -, free⟩ := exists_pool sampleLink (n := n +
    (sampleLink.setupDemand ++ allocDemand (spaceTables 0) oldsz newsz).length) (by omega)
    fun _ => false
  have granted : (s.supply V).firstRefused
      (sampleLink.setupDemand ++ allocDemand (spaceTables 0) oldsz newsz) = none := by
    rw [Supply.firstRefused_eq_none_iff never]
    change _ ≤ V.free.length
    omega
  obtain ⟨d, _, s₁, V₁, s₂, V₂, -, new, -, grown, supply⟩ := setup_grows models granted low
  refine ⟨d, s₁, V₁, s₂, V₂, Space.of_new new models, grown,
    (congrArg Supply.refuse supply).trans never, ?_⟩
  have left := congrArg Supply.free supply
  change V₂.free.length = V.free.length - _ at left
  omega

/-- A machine with a process of one page, and `n` free pages. -/
theorem exists_image {n : Nat} (few : 600 + n ≤ phystop / pgsize) : ∃ s V d p,
    Space sampleLink d pgsize s V ∧ V.role p = .user d 0 ∧ s.refuse = (fun _ => false) ∧
      V.free.length = n := by
  have demand : (allocDemand (spaceTables 0) 0 pgsize).length = 2 := by decide
  obtain ⟨d, s₁, V₁, s, V, space₁, grown, never, free⟩ :=
    exists_grown (n := n) (by rw [demand]; omega) (show pgsize < kernbase by decide)
  have space := grown.space space₁ (by decide) (Nat.zero_le _)
  obtain ⟨p, user⟩ := (space.mapped 0).mpr (by decide)
  exact ⟨s, V, d, p, space, user, never, free⟩

/-- A directory has been made and most of the first four megabytes are free. -/
theorem exists_directory (link : Link) (room : link.firstPage ≤ 332)
    (small : link.setupDemand.length ≤ 72) : ∃ f d V,
    Relation.ReflTransGen (Step link) (Frames.initial (fun _ _ => 0) fun _ => false) f ∧
      d ∈ f.dirs ∧ Inv link f V ∧ f.machine.refuse = (fun _ => false) ∧ 600 ≤ V.free.length := by
  obtain ⟨f, V, run, inv, never, -, enough⟩ := exists_memory link room fun _ => false
  have granted : (f.machine.supply V).firstRefused link.setupDemand = none := by
    rw [Supply.firstRefused_eq_none_iff never]
    change _ ≤ V.free.length
    omega
  obtain ⟨_, s, done, d, V', rfl, new⟩ := (setupkvm_grants inv.models granted).returns
  have run' := run.tail (Step.setupkvm done)
  obtain ⟨V'', inv'⟩ := Inv.of_run run'
  refine ⟨_, d, V'', run', List.mem_cons_self, inv', ?_, ?_⟩
  · exact (congrArg Supply.refuse new.supply).trans never
  · rw [inv'.models.chain.unique new.models.chain]
    have left := congrArg Supply.free new.supply
    change V'.free.length = V.free.length - _ at left
    omega

/-! ## Exclusive use -/

/-- Exclusive use of page frames.  After any calls the free list is finite and has no
page twice, no directory or held page is listed twice, and no page has two roles. -/
theorem frames_exclusive {mem : Nat → Nat → Nat} {refuse : Nat → Bool}
    (run : Relation.ReflTransGen (Step link) (Frames.initial mem refuse) f) :
    (∃ nodes, Chain f.machine.next f.machine.freelist nodes ∧ nodes.Nodup) ∧
    f.dirs.Nodup ∧ f.held.Nodup ∧
    ∀ p r r', f.Occupies p r → f.Occupies p r' → r = r' := by
  obtain ⟨V, inv⟩ := Inv.of_run run
  refine ⟨⟨V.free, inv.models.chain, inv.models.chain.nodup⟩, inv.dirs_nodup,
    inv.held_nodup, ?_⟩
  intro p r r' first second
  rw [← inv.role_eq first, ← inv.role_eq second]

theorem frames_exclusive_directory : ∃ f d,
    Relation.ReflTransGen (Step sampleLink) (Frames.initial (fun _ _ => 0) fun _ => false) f ∧
      f.Occupies d .directory ∧ ∀ r, f.Occupies d r → r = .directory := by
  obtain ⟨f, d, V, run, member, -⟩ :=
    exists_directory sampleLink (by decide) length_setupDemand_le
  exact ⟨f, d, run, member, fun r occupies =>
    (frames_exclusive run).2.2.2 d r .directory occupies member⟩

end Frames

end Xv6.Vm
