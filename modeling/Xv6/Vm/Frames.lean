import Xv6.Vm.Spaces

/-!
# Exclusive use of page frames

Any sequence of calls of the memory functions, over any number of directories, with
the pages that other callers of `kalloc` hold.  The roles of a page are read off the
memory here, and a page never has two.
-/

namespace Xv6.Vm

open Stateful Linked

/-- The machine with the directories in use and the pages that other callers hold. -/
structure Frames where
  machine : Machine
  dirs : List Nat
  held : List Nat
  /-- The pages from here on have not been given to the allocator. -/
  limit : Nat

namespace Frames

/-- The start: nothing is on the free list. -/
def initial (mem : Nat → Nat → Nat) (refuse : Nat → Bool) : Frames where
  machine := ⟨mem, none, refuse, 0, []⟩
  dirs := []
  held := []
  limit := 0

def setMachine (f : Frames) (s : Machine) : Frames :=
  { f with machine := s }

/-- A page has a role, as the memory shows it. -/
def Occupies (f : Frames) (p : Nat) : Role → Prop
  | .outside => False
  | .free => ∃ nodes, Chain f.machine.next f.machine.freelist nodes ∧ p ∈ nodes
  | .directory => p ∈ f.dirs
  | .table d i => d ∈ f.dirs ∧ i < 1024 ∧ isPresent (f.machine.mem d i) = true ∧
      target (f.machine.mem d i) = p
  | .user d v => d ∈ f.dirs ∧ v < 2 ^ 19 ∧ isPresent (f.machine.mem d (v / 1024)) = true ∧
      isPresent (f.machine.mem (target (f.machine.mem d (v / 1024))) (v % 1024)) = true ∧
      target (f.machine.mem (target (f.machine.mem d (v / 1024))) (v % 1024)) = p
  | .held => p ∈ f.held

variable (link : Link)

/-- A call that returns. -/
inductive Step : Frames → Frames → Prop
  | kinit1 {f : Frames} {s : Machine} : f.limit = 0 →
      link.kinit1.run f.machine = .ok ((), s) → Step f { f with machine := s, limit := 1024 }
  | kinit2 {f : Frames} {s : Machine} : f.limit = 1024 →
      link.kinit2.run f.machine = .ok ((), s) →
      Step f { f with machine := s, limit := phystop / pgsize }
  | kalloc {f : Frames} {s : Machine} {p : Nat} : kalloc.run f.machine = .ok (some p, s) →
      Step f { f with machine := s, held := p :: f.held }
  | kallocFails {f : Frames} {s : Machine} : kalloc.run f.machine = .ok (none, s) →
      Step f (f.setMachine s)
  | kfree {f : Frames} {s : Machine} {p : Nat} : p ∈ f.held →
      (link.kfree p).run f.machine = .ok ((), s) →
      Step f { f with machine := s, held := f.held.erase p }
  /-- A caller writes to a page that it holds. -/
  | store {f : Frames} {p : Nat} (words : Nat → Nat) : p ∈ f.held →
      Step f (f.setMachine (f.machine.setPage p words))
  /-- A process writes to its memory. -/
  | storeUser {f : Frames} {p d v : Nat} (words : Nat → Nat) : f.Occupies p (.user d v) →
      Step f (f.setMachine (f.machine.setPage p words))
  | setupkvm {f : Frames} {s : Machine} {d : Nat} :
      link.setupkvm.run f.machine = .ok (some d, s) →
      Step f { f with machine := s, dirs := d :: f.dirs }
  | setupkvmFails {f : Frames} {s : Machine} : link.setupkvm.run f.machine = .ok (none, s) →
      Step f (f.setMachine s)
  | allocuvm {f : Frames} {s : Machine} {d oldsz newsz r : Nat} : d ∈ f.dirs →
      (link.allocuvm d oldsz newsz).run f.machine = .ok (r, s) → Step f (f.setMachine s)
  | deallocuvm {f : Frames} {s : Machine} {d oldsz newsz r : Nat} : d ∈ f.dirs →
      oldsz ≤ kernbase → (link.deallocuvm d oldsz newsz).run f.machine = .ok (r, s) →
      Step f (f.setMachine s)
  | clearpteu {f : Frames} {s : Machine} {d uva : Nat} : d ∈ f.dirs → uva < 2 ^ 32 →
      (clearpteu d uva).run f.machine = .ok ((), s) → Step f (f.setMachine s)
  | copyuvm {f : Frames} {s : Machine} {a d sz : Nat} : a ∈ f.dirs →
      (link.copyuvm a sz).run f.machine = .ok (some d, s) →
      Step f { f with machine := s, dirs := d :: f.dirs }
  | copyuvmFails {f : Frames} {s : Machine} {a sz : Nat} : a ∈ f.dirs →
      (link.copyuvm a sz).run f.machine = .ok (none, s) → Step f (f.setMachine s)
  | freevm {f : Frames} {s : Machine} {d : Nat} : d ∈ f.dirs →
      (link.freevm d).run f.machine = .ok ((), s) →
      Step f { f with machine := s, dirs := f.dirs.erase d }

/-- The invariant: the memory agrees with a view of the roles. -/
structure Inv (f : Frames) (V : View) : Prop where
  models : Models link f.machine V
  dirs_nodup : f.dirs.Nodup
  held_nodup : f.held.Nodup
  dirs : ∀ d ∈ f.dirs, V.role d = .directory
  held : ∀ p ∈ f.held, V.role p = .held
  outside : ∀ p, f.limit ≤ p → V.role p = .outside

/-- Directories, held pages and pages outside keep their roles. -/
def Keeps (V V' : View) : Prop :=
  ∀ q r, r = .directory ∨ r = .held ∨ r = .outside → V.role q = r → V'.role q = r

end Frames

variable {link : Link} {V V' : View} {s s' : Machine} {d p q : Nat}

theorem Own.keeps (own : Own d V V') : Frames.Keeps V V' := by
  rintro q r kind old
  apply own.stays old <;> rcases kind with rfl | rfl | rfl <;> simp

theorem Lost.keeps (lost : Lost V V') : Frames.Keeps V V' :=
  lost.own (d := 0) |>.keeps

theorem Owned.keepsRoles (owned : Owned d V V') : Frames.Keeps V V' := by
  rintro q r kind rfl
  apply owned.keeps
  rcases kind with kind | kind | kind <;> simp [kind]

theorem Failed.keeps {fate : Option Request} (failed : Failed V V' fate) : Frames.Keeps V V' := by
  unfold Failed at failed
  split at failed
  · exact failed.elim
  · exact failed.1.keeps
  · exact failed.1.keeps
  · rintro q r - rfl
    exact failed q

namespace Frames

variable {f : Frames}

namespace Inv

theorem initial (mem : Nat → Nat → Nat) (refuse : Nat → Bool) :
    Inv link (Frames.initial mem refuse) ⟨fun _ => .outside, []⟩ := by
  constructor
  · constructor <;> simp [Frames.initial]
  · exact List.nodup_nil
  · exact List.nodup_nil
  · simp [Frames.initial]
  · simp [Frames.initial]
  · simp

variable (inv : Inv link f V)
include inv

/-- A call that keeps the roles. -/
theorem keep (models : Models link s V') (keeps : Keeps V V') : Inv link (f.setMachine s) V' := by
  constructor
  · exact models
  · exact inv.dirs_nodup
  · exact inv.held_nodup
  · exact fun d member => keeps d _ (by simp) (inv.dirs d member)
  · exact fun p member => keeps p _ (by simp) (inv.held p member)
  · exact fun p above => keeps p _ (by simp) (inv.outside p above)

/-- A new directory. -/
theorem addDir (models : Models link s V') (keeps : Keeps V V') (wasFree : V.role d = .free)
    (directory : V'.role d = .directory) :
    Inv link { f with machine := s, dirs := d :: f.dirs } V' := by
  have fresh : d ∉ f.dirs := by
    intro member
    rw [inv.dirs d member] at wasFree
    cases wasFree
  constructor
  · exact models
  · exact List.nodup_cons.mpr ⟨fresh, inv.dirs_nodup⟩
  · exact inv.held_nodup
  · intro d' member
    rcases List.mem_cons.mp member with rfl | old
    · exact directory
    · exact keeps d' _ (by simp) (inv.dirs d' old)
  · exact fun p member => keeps p _ (by simp) (inv.held p member)
  · exact fun p above => keeps p _ (by simp) (inv.outside p above)

/-- A caller gets a page. -/
theorem hold {rest : List Nat} (models : Models link s (V.use p rest .held))
    (wasFree : V.role p = .free) :
    Inv link { f with machine := s, held := p :: f.held } (V.use p rest .held) := by
  have keeps : Keeps V (V.use p rest .held) := by
    rintro q r kind rfl
    apply View.use_role_of_ne
    rintro rfl
    rw [wasFree] at kind
    simp at kind
  have fresh : p ∉ f.held := by
    intro member
    rw [inv.held p member] at wasFree
    cases wasFree
  constructor
  · exact models
  · exact inv.dirs_nodup
  · exact List.nodup_cons.mpr ⟨fresh, inv.held_nodup⟩
  · exact fun d member => keeps d _ (by simp) (inv.dirs d member)
  · intro q member
    rcases List.mem_cons.mp member with rfl | old
    · exact View.use_role_self
    · exact keeps q _ (by simp) (inv.held q old)
  · exact fun q above => keeps q _ (by simp) (inv.outside q above)

/-- A caller gives a page back. -/
theorem release (models : Models link s (V.give p)) (isHeld : V.role p = .held) :
    Inv link { f with machine := s, held := f.held.erase p } (V.give p) := by
  have other : ∀ {q r}, V.role q = r → r ≠ .held → (V.give p).role q = r := by
    rintro q r rfl notHeld
    apply View.give_role_of_ne
    rintro rfl
    exact notHeld isHeld
  constructor
  · exact models
  · exact inv.dirs_nodup
  · exact inv.held_nodup.erase p
  · exact fun d member => other (inv.dirs d member) (by simp)
  · intro q member
    rw [inv.held_nodup.mem_erase_iff] at member
    rw [View.give_role_of_ne member.1]
    exact inv.held q member.2
  · exact fun q above => other (inv.outside q above) (by simp)

/-- A directory is freed. -/
theorem removeDir (models : Models link s V') (member : d ∈ f.dirs)
    (roles : ∀ q, V'.role q = V.erase d q) :
    Inv link { f with machine := s, dirs := f.dirs.erase d } V' := by
  have isDirectory := inv.dirs d member
  have same : ∀ {q r}, V.role q = r → r.owner = none → q ≠ d → V'.role q = r := by
    rintro q r rfl unowned different
    rw [roles, View.erase, if_neg]
    rintro (same | owned)
    · exact different same
    · rw [unowned] at owned
      cases owned
  constructor
  · exact models
  · exact inv.dirs_nodup.erase d
  · exact inv.held_nodup
  · intro d' member'
    rw [inv.dirs_nodup.mem_erase_iff] at member'
    exact same (inv.dirs d' member'.2) rfl member'.1
  · intro q member'
    have isHeld := inv.held q member'
    apply same isHeld rfl
    rintro rfl
    rw [isHeld] at isDirectory
    cases isDirectory
  · intro q above
    have isOutside := inv.outside q above
    apply same isOutside rfl
    rintro rfl
    rw [isOutside] at isDirectory
    cases isDirectory

end Inv

end Frames

/-- `freerange` gives pages to the allocator. -/
theorem freerange_spec {n : Nat} (models : Models link s V) (low : link.firstPage ≤ p)
    (high : p + n ≤ phystop / pgsize) (outside : ∀ q, p ≤ q → q < p + n → V.role q = .outside) :
    Wp (link.freerange p n) (fun _ => False) (fun _ s' => ∃ V', Models link s' V' ∧
      (∀ q, p ≤ q → q < p + n → V'.role q = .free) ∧
      ∀ q, q < p ∨ p + n ≤ q → V'.role q = V.role q ∧ s'.mem q = s.mem q) s := by
  induction n generalizing p s V with
  | zero => exact ⟨V, models, fun q after before => absurd after (by omega), fun _ _ => ⟨rfl, rfl⟩⟩
  | succ n ih =>
    rw [Link.freerange]
    have idle := outside p (Nat.le_refl p) (by omega)
    apply (kfree_spec models (.inr idle) low (by omega)).seq
    rintro _ s₁ ⟨models₁, -, mem₁⟩
    have outside₁ : ∀ q, p + 1 ≤ q → q < p + 1 + n → (V.give p).role q = .outside := by
      intro q after before
      rw [View.give_role_of_ne (by omega)]
      exact outside q (by omega) (by omega)
    apply (ih models₁ (by omega) (by omega) outside₁).imp
    rintro _ s' ⟨V', models', free, same⟩
    refine ⟨V', models', ?_, ?_⟩
    · intro q after before
      by_cases first : q = p
      · rw [first, (same p (by omega)).1, View.give_role_self]
      · exact free q (by omega) (by omega)
    · intro q elsewhere
      obtain ⟨role, mem⟩ := same q (by omega)
      rw [role, mem, View.give_role_of_ne (by omega), mem₁ q (by omega)]
      exact ⟨rfl, rfl⟩

/-- `kinit1` frees nothing if the kernel ends above the first four megabytes. -/
theorem kinit1_eq (large : 1024 ≤ link.firstPage) : link.kinit1 = pure () := by
  unfold Link.kinit1
  rw [Nat.sub_eq_zero_of_le large]
  rfl

/-- `kinit2` panics if the kernel ends above the first four megabytes. -/
theorem firstPage_le_of_kinit2 (done : link.kinit2.run s = .ok ((), s')) :
    link.firstPage ≤ 1024 := by
  by_contra large
  have inKernel : 1024 < link.firstPage ∨ phystop / pgsize ≤ 1024 := by omega
  unfold Link.kinit2 at done
  rw [show phystop / pgsize - 1024 = phystop / pgsize - 1025 + 1 by decide, Link.freerange,
    Link.kfree, if_pos inKernel] at done
  cases done

namespace Frames

variable {f f' : Frames}

/-- More pages are given to the allocator. -/
theorem Inv.extend {limit : Nat} (inv : Inv link f V) (models : Models link s V')
    (same : ∀ q, V.role q ≠ .outside → V'.role q = V.role q)
    (outside : ∀ q, limit ≤ q → V'.role q = .outside) :
    Inv link { f with machine := s, limit := limit } V' := by
  constructor
  · exact models
  · exact inv.dirs_nodup
  · exact inv.held_nodup
  · intro d member
    have old := inv.dirs d member
    rw [same d (by simp [old]), old]
  · intro p member
    have old := inv.held p member
    rw [same p (by simp [old]), old]
  · exact outside

/-- What the memory shows is the role in the view. -/
theorem Inv.role_eq {r : Role} (inv : Inv link f V) (occupies : f.Occupies p r) : V.role p = r := by
  cases r with
  | outside => exact occupies.elim
  | free =>
    obtain ⟨nodes, chain, member⟩ := occupies
    rw [chain.unique inv.models.chain] at member
    exact (inv.models.free_iff p).mp member
  | directory => exact inv.dirs p occupies
  | table d i =>
    obtain ⟨member, small, present, rfl⟩ := occupies
    exact inv.models.table_of d i (inv.dirs d member) small present
  | user d v =>
    obtain ⟨member, low, has, present, rfl⟩ := occupies
    have table := inv.models.table_of d (v / 1024) (inv.dirs d member) (by omega) has
    have user := inv.models.user_of _ d (v / 1024) (v % 1024) table (by omega)
      (Nat.mod_lt v (by decide)) present
    rw [Nat.div_add_mod] at user
    exact user
  | held => exact inv.held p occupies

theorem Inv.step (inv : Inv link f V) (edge : Step link f f') : ∃ V', Inv link f' V' := by
  cases edge with
  | kinit1 start done =>
    have outside : ∀ q, V.role q = .outside := fun q => inv.outside q (by omega)
    by_cases large : 1024 ≤ link.firstPage
    · rw [kinit1_eq large] at done
      cases done
      exact ⟨V, inv.extend inv.models (fun _ _ => rfl) fun q _ => outside q⟩
    obtain ⟨V', models, free, same⟩ := (freerange_spec inv.models (Nat.le_refl _)
      (by unfold phystop pgsize; omega) fun q _ _ => outside q).ok done
    refine ⟨V', inv.extend models ?_ ?_⟩
    · intro q inside
      exact absurd (outside q) inside
    · intro q above
      rw [(same q (by omega)).1, outside]
  | kinit2 start done =>
    have first := firstPage_le_of_kinit2 done
    have outside : ∀ q, 1024 ≤ q → V.role q = .outside :=
      fun q above => inv.outside q (by omega)
    obtain ⟨V', models, free, same⟩ := (freerange_spec inv.models first
      (by unfold phystop pgsize; omega) fun q above _ => outside q above).ok done
    refine ⟨V', inv.extend models ?_ ?_⟩
    · intro q inside
      refine (same q ?_).1
      by_contra above
      exact inside (outside q (by omega))
    · intro q above
      unfold phystop pgsize at above
      rw [(same q (by unfold phystop pgsize; omega)).1, outside q (by omega)]
  | kalloc done =>
    obtain ⟨-, rest, taken⟩ := (kalloc_spec inv.models).ok done
    exact ⟨_, inv.hold taken.models taken.wasFree⟩
  | kallocFails done =>
    obtain ⟨-, refused⟩ := (kalloc_spec inv.models).ok done
    exact ⟨V, inv.keep refused.models fun _ _ _ => id⟩
  | kfree member done =>
    have isHeld := inv.held _ member
    obtain ⟨inside, top⟩ := inv.models.managed _ (by rw [isHeld]; simp)
    obtain ⟨models, -, -⟩ := (kfree_spec inv.models (.inl isHeld) inside top).ok done
    exact ⟨_, inv.release models isHeld⟩
  | store words member =>
    exact ⟨V, inv.keep (inv.models.setPage (View.Plain.of_held (inv.held _ member)) words)
      fun _ _ _ => id⟩
  | storeUser words occupies =>
    exact ⟨V, inv.keep (inv.models.setPage (View.Plain.of_user (inv.role_eq occupies)) words)
      fun _ _ _ => id⟩
  | setupkvm done =>
    obtain ⟨-, V', space⟩ := (setupkvm_spec inv.models).ok done
    exact ⟨V', inv.addDir space.models space.owned.keepsRoles space.wasFree space.directory⟩
  | setupkvmFails done =>
    obtain ⟨V', preserved, lost, -⟩ := (setupkvm_spec inv.models).ok done
    exact ⟨V', inv.keep preserved.models lost.keeps⟩
  | allocuvm member done =>
    obtain ⟨V', edited, own⟩ := (allocuvm_own inv.models (inv.dirs _ member)).ok done
    exact ⟨V', inv.keep edited.models own.keeps⟩
  | deallocuvm member low done =>
    obtain ⟨-, V', edited, freed, -⟩ :=
      (deallocuvm_spec inv.models (inv.dirs _ member) low).ok done
    exact ⟨V', inv.keep edited.models freed.own.keeps⟩
  | clearpteu member high done =>
    have cut := (clearpteu_spec inv.models (inv.dirs _ member) high).ok done
    exact ⟨V, inv.keep cut.models fun _ _ _ => id⟩
  | copyuvm member done =>
    obtain ⟨V', preserved, -, built⟩ := (copyuvm_spec inv.models (inv.dirs _ member)).ok done
    exact ⟨V', inv.addDir preserved.models built.owned.keepsRoles built.wasFree built.directory⟩
  | copyuvmFails member done =>
    obtain ⟨V', preserved, failed⟩ := (copyuvm_spec inv.models (inv.dirs _ member)).ok done
    exact ⟨V', inv.keep preserved.models failed.keeps⟩
  | freevm member done =>
    obtain ⟨V', edited, roles⟩ := (freevm_spec inv.models (inv.dirs _ member)).ok done
    exact ⟨V', inv.removeDir edited.models member roles⟩

variable {mem : Nat → Nat → Nat} {refuse : Nat → Bool}

theorem Inv.of_run (run : Relation.ReflTransGen (Step link) (Frames.initial mem refuse) f) :
    ∃ V, Inv link f V := by
  induction run with
  | refl => exact ⟨_, Inv.initial mem refuse⟩
  | tail _ edge ih =>
    obtain ⟨V, inv⟩ := ih
    exact inv.step edge

/-- A kernel of 76 pages after the first megabyte. -/
def sampleLink : Link where
  data := 0x108000
  kend := 0x14C000
  aligned := by decide
  text := by decide
  data_le := by decide
  below := by decide

end Frames

end Xv6.Vm
