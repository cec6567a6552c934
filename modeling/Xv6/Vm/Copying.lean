import Xv6.Vm.Translation

/-!
# `fork` copies memory and isolates it

`copyuvm` writes only to pages that were free.  The copy has a page for each page of the
source, taken from the free list, with the same flags and the same contents.  Since a
page has one role, a store through one directory does not reach the pages of the other.
-/

namespace Xv6.Vm

open Stateful Linked

variable {link : Link} {s : Machine} {V V' : View} {a d x p : Nat}

/-! ## Loads and stores -/

namespace Machine

/-- The byte at a virtual address. -/
def load (s : Machine) (pgdir va : Nat) : Option Nat :=
  (s.translate pgdir va).map fun entry => byte (s.mem (entry.1 / pgsize)) (entry.1 % pgsize)

/-- A store to a virtual address. -/
def store (s : Machine) (pgdir va : Nat) (value : UInt8) : Machine :=
  match s.translate pgdir va with
  | some (pa, _) => s.setPage (pa / pgsize) (storeBytes (s.mem (pa / pgsize)) (pa % pgsize) [value])
  | none => s

/-- The byte that a present entry gives. -/
theorem load_eq (s : Machine) (d va : Nat) :
    s.load d va = if isPresent (s.entry d (va / pgsize)) then
      some (byte (s.mem (target (s.entry d (va / pgsize)))) (va % pgsize)) else none := by
  have offset (pte : Nat) : (pteAddr pte + va % pgsize) % pgsize = va % pgsize := by
    unfold pteAddr pgsize
    omega
  unfold load translate
  by_cases present : isPresent (s.entry d (va / pgsize)) = true
  · simp only [present, if_true, Option.map_some, address_div, offset]
  · simp [present]

/-- A store writes to the page that the entry refers to. -/
theorem store_mem (s : Machine) (d va q : Nat) (value : UInt8)
    (other : isPresent (s.entry d (va / pgsize)) = true → q ≠ target (s.entry d (va / pgsize))) :
    (s.store d va value).mem q = s.mem q := by
  unfold store translate
  by_cases present : isPresent (s.entry d (va / pgsize)) = true
  · simp only [present, if_true, address_div]
    exact Function.update_of_ne (other present) _ _
  · simp [present]

end Machine

/-- Stores to the user half of `x` do not change the user half of `y`. -/
def Machine.Isolated (s : Machine) (x y : Nat) : Prop :=
  ∀ va < kernbase, ∀ value, ∀ va' < kernbase,
    (s.store x va value).translate y va' = s.translate y va' ∧
      (s.store x va value).load y va' = s.load y va'

variable {va y : Nat}

/-- A store to the user half of a directory changes nothing but its user pages. -/
theorem Models.store_mem (models : Models link s V) (isDirectory : V.role x = .directory)
    (low : va < kernbase) (value : UInt8) {q : Nat} (notUser : ∀ w, V.role q ≠ .user x w) :
    (s.store x va value).mem q = s.mem q := by
  have below : va / pgsize < 2 ^ 19 := by
    unfold kernbase at low
    unfold pgsize
    omega
  apply Machine.store_mem
  rintro present rfl
  exact notUser _ (models.role_entry isDirectory below present)

theorem Models.store_entry {v : Nat} (models : Models link s V)
    (isDirectory : V.role x = .directory) (isDirectory' : V.role y = .directory)
    (low : va < kernbase) (value : UInt8) (high : v < 2 ^ 20) :
    (s.store x va value).entry y v = s.entry y v :=
  models.entry_congr isDirectory' (models.store_mem isDirectory low value (by simp [isDirectory']))
    (fun t i table => models.store_mem isDirectory low value (by simp [table])) high

theorem Models.isolated (models : Models link s V) (isDirectory : V.role x = .directory)
    (isDirectory' : V.role y = .directory) (different : x ≠ y) : s.Isolated x y := by
  intro va low value va' low'
  have below' : va' / pgsize < 2 ^ 19 := by
    unfold kernbase at low'
    unfold pgsize
    omega
  have entry := models.store_entry isDirectory isDirectory' low value
    (show va' / pgsize < 2 ^ 20 by omega)
  constructor
  · unfold Machine.translate
    rw [entry]
  · rw [Machine.load_eq, Machine.load_eq, entry]
    split
    · rename_i present
      have user := models.role_entry isDirectory' below' present
      rw [models.store_mem isDirectory low value (by simp [user, different.symm])]
    · rfl

/-! ## Runs -/

namespace Frames

variable {f g : Frames} {sz : Nat}

/-- `d` is a copy of the first `sz` bytes of `a`, made from free pages. -/
structure CopyOf (f : Frames) (a d sz : Nat) (s : Machine) : Prop where
  same : ∀ va < pgroundup sz, ∃ pa pa' flags, f.machine.translate a va = some (pa, flags) ∧
    s.translate d va = some (pa', flags) ∧ s.mem (pa' / pgsize) = f.machine.mem (pa / pgsize) ∧
    s.load d va = f.machine.load a va
  above : ∀ va, pgroundup sz ≤ va → va < kernbase → s.translate d va = none
  fresh : ∀ va < kernbase, ∀ pa flags, s.translate d va = some (pa, flags) →
    f.Occupies (pa / pgsize) .free ∧ ∀ va' < kernbase, ∀ pa' flags',
      f.machine.translate a va' = some (pa', flags') → pa' / pgsize ≠ pa / pgsize
  parent : s.mem a = f.machine.mem a ∧
    ∀ va < 2 ^ 32, s.translate a va = f.machine.translate a va
  memory : ∀ va < kernbase, s.load a va = f.machine.load a va

theorem page_lt_of_low (low : va < kernbase) : va / pgsize < 2 ^ 19 := by
  unfold kernbase at low
  unfold pgsize
  omega

/-- The flags of the entry that `mappages` writes for a copy. -/
theorem pteFlags_copy {pte : Nat} (present : isPresent pte = true) :
    pteFlags (p * pgsize ||| (pteFlags pte ||| pteP)) = pteFlags pte := by
  have odd : pte % 2 = 1 := by simpa [isPresent] using present
  have flagged : pteFlags pte ||| pteP = pteFlags pte := by
    unfold pteFlags pteP pgsize
    have half : pte % 4096 = 2 ^ 1 * (pte % 4096 / 2) + 1 := by omega
    rw [half, Nat.two_pow_add_eq_or_of_lt (by decide), Nat.or_assoc, Nat.or_self]
  have small : pteFlags pte < 2 ^ 12 := Nat.mod_lt _ (by decide)
  rw [flagged, Nat.mul_comm, show pgsize = 2 ^ 12 by rfl, ← Nat.two_pow_add_eq_or_of_lt small]
  unfold pteFlags pgsize
  omega

theorem Inv.copyOf (inv : Inv link f V) (member : a ∈ f.dirs) (low : sz < kernbase)
    (preserved : Preserves link f.machine V s V') (copy : Built link a d sz f.machine V s V') :
    CopyOf f a d sz s := by
  have isSource := inv.dirs a member
  have entry : ∀ v < 2 ^ 20, s.entry a v = f.machine.entry a v := fun v high =>
    preserved.entry inv.models isSource high
  have inside {va : Nat} : va < pgroundup sz ↔ va / pgsize < pages sz := by
    rw [pgroundup_eq low.le]
    exact (Nat.div_lt_iff_lt_mul (by decide)).symm
  constructor
  · intro va below
    obtain ⟨present, backed⟩ := copy.page _ (inside.mp below)
    have present' := backed.present
    obtain ⟨p, -, isEntry, page⟩ := backed
    have isTarget : target (s.entry d (va / pgsize)) = p := by
      rw [isEntry]
      exact target_entry (Nat.mod_lt _ (by decide))
    have flags : pteFlags (s.entry d (va / pgsize)) =
        pteFlags (f.machine.entry a (va / pgsize)) := by
      rw [isEntry, pteFlags_copy present]
    refine ⟨_, pteAddr (s.entry d (va / pgsize)) + va % pgsize, _, if_pos present, ?_, ?_, ?_⟩
    · rw [← flags]
      exact if_pos present'
    · rw [Machine.address_div, Machine.address_div, isTarget, page]
    · rw [Machine.load_eq, Machine.load_eq, if_pos present, if_pos present', isTarget, page]
  · intro va after below
    have absent := copy.above _ (page_lt_of_low below) (by rw [← not_lt, ← inside]; omega)
    rw [Machine.translate, absent]
    rfl
  · intro va below pa flags mapped
    obtain ⟨present, isPage⟩ := Machine.translate_eq_some mapped
    have before : va / pgsize < pages sz := by
      by_contra after
      rw [copy.above _ (page_lt_of_low below) (by omega)] at present
      cases present
    obtain ⟨-, p, isFree, isEntry, -⟩ := copy.page _ before
    have isFrame : pa / pgsize = p := by
      rw [isPage, isEntry]
      exact target_entry (Nat.mod_lt _ (by decide))
    rw [isFrame]
    refine ⟨⟨V.free, inv.models.chain, (inv.models.free_iff p).mpr isFree⟩, ?_⟩
    intro va' below' pa' flags' mapped' same
    obtain ⟨present', isPage'⟩ := Machine.translate_eq_some mapped'
    have user := inv.models.role_entry isSource (page_lt_of_low below') present'
    rw [← isPage', same, isFree] at user
    cases user
  · refine ⟨(preserved.spared a (by simp [isSource]) (by simp [isSource])).2, fun va high => ?_⟩
    rw [Machine.translate, Machine.translate, entry _ (by unfold pgsize; omega)]
  · intro va below
    have small := page_lt_of_low below
    rw [Machine.load_eq, Machine.load_eq, entry _ (by omega)]
    split
    · rename_i present
      have user := inv.models.role_entry isSource small present
      rw [(preserved.spared _ (by simp [user]) (by simp [user])).2]
    · rfl

/-- `fork` copies memory and isolates it.  What `copyuvm` returns has the pages of the
source, with the same flags and bytes, in frames that were free, and leaves the source
alone.  As long as both directories are in use, a store through one of them does not
change what the other one shows. -/
theorem copyuvm_isolates {mem : Nat → Nat → Nat} {refuse : Nat → Bool}
    (run : Relation.ReflTransGen (Call link) (Frames.initial mem refuse) f) (member : a ∈ f.dirs)
    (low : sz < kernbase) (done : (link.copyuvm a sz).run f.machine = .ok (some d, s)) :
    CopyOf f a d sz s ∧
      ∀ g, Relation.ReflTransGen (Call link) { f with machine := s, dirs := d :: f.dirs } g →
        a ∈ g.dirs → d ∈ g.dirs → g.machine.Isolated a d ∧ g.machine.Isolated d a := by
  obtain ⟨V, fixed⟩ := (Fixed.initial mem refuse).calls run
  have isSource := fixed.inv.dirs a member
  obtain ⟨V', preserved, -, built⟩ := (copyuvm_spec fixed.inv.models isSource).ok done
  refine ⟨fixed.inv.copyOf member low preserved built, fun g later inUse inUse' => ?_⟩
  have different : a ≠ d := by
    rintro rfl
    rw [built.wasFree] at isSource
    cases isSource
  obtain ⟨V₁, fixed₁⟩ := fixed.call (.step (.copyuvm member done))
  obtain ⟨V₂, fixed₂⟩ := fixed₁.calls later
  have isDirectory := fixed₂.inv.dirs a inUse
  have isDirectory' := fixed₂.inv.dirs d inUse'
  exact ⟨fixed₂.inv.models.isolated isDirectory isDirectory' different,
    fixed₂.inv.models.isolated isDirectory' isDirectory different.symm⟩

/-- A directory with one page, and memory for a copy. -/
theorem exists_copy (link : Link) (room : link.firstPage ≤ 332)
    (small : link.setupDemand.length ≤ 72) : ∃ f a d s,
    Relation.ReflTransGen (Call link) (Frames.initial (fun _ _ => 0) fun _ => false) f ∧
      a ∈ f.dirs ∧ (link.copyuvm a 1).run f.machine = .ok (some d, s) := by
  obtain ⟨f, V, run, inv, never, -, enough⟩ := exists_memory link room fun _ => false
  have two : (allocDemand (spaceTables 0) 0 1).length = 2 := by decide
  have two' : (demand [.data] kernelTables 0 (pages 1)).length = 2 := by decide
  have granted : (f.machine.supply V).firstRefused
      (link.setupDemand ++ allocDemand (spaceTables 0) 0 1) = none := by
    rw [Supply.firstRefused_eq_none_iff never, List.length_append, two]
    change _ ≤ V.free.length
    omega
  obtain ⟨a, r, s₁, V₁, s₂, V₂, done₁, space, done₂, grown, supply₂⟩ :=
    setup_grows inv.models granted (by decide)
  -- the copy
  have granted₂ : (s₂.supply V₂).firstRefused (link.copyDemand 1) = none := by
    rw [supply₂, Supply.firstRefused_eq_none_iff never, Link.copyDemand, List.length_append,
      List.length_append, two, two']
    change _ ≤ V.free.length - _
    omega
  have mapped : ∀ v < pages 1, V₂.Mapped a v := by
    intro v before
    rw [grown.mapped_iff space.models (by decide)]
    exact .inr ⟨rfl, Nat.zero_le v, before⟩
  obtain ⟨r, s, done, V₃, -, result⟩ := (copyuvm_spec grown.models
    (grown.extends.directory space.directory)).returns_of fun _ wrong => wrong ⟨by decide, mapped⟩
  cases r with
  | none =>
    rw [granted₂] at result
    exact result.elim
  | some d =>
    have calls : Relation.ReflTransGen (Call link) _ f := run.lift id fun _ _ => Call.step
    have member : a ∈ a :: f.dirs := List.mem_cons_self
    exact ⟨_, a, d, s, (calls.tail (.step (.setupkvm done₁))).tail
      (.step (.allocuvm member done₂)), member, done⟩

/-- A process with one page is copied. -/
theorem copyuvm_isolates_page : ∃ f a d s,
    Relation.ReflTransGen (Call sampleLink) (Frames.initial (fun _ _ => 0) fun _ => false) f ∧
      a ∈ f.dirs ∧ (sampleLink.copyuvm a 1).run f.machine = .ok (some d, s) ∧
      CopyOf f a d 1 s ∧ s.Isolated a d := by
  obtain ⟨f, a, d, s, run, member, done⟩ :=
    exists_copy sampleLink (by decide) length_setupDemand_le
  obtain ⟨copy, isolated⟩ := copyuvm_isolates run member (by decide) done
  refine ⟨f, a, d, s, run, member, done, copy, ?_⟩
  exact (isolated _ .refl (List.mem_cons_of_mem d member) List.mem_cons_self).1

end Frames

end Xv6.Vm
