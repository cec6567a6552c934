import Xv6.Vm.Release

/-!
# Building address spaces

The specifications of `setupkvm`, `allocuvm`, `copyuvm` and `clearpteu`.  A page that a
call has taken and lost track of is `held` by nobody in the view that the call leaves.
-/

namespace Xv6.Vm

open Stateful

variable {link : Link} {s s' : Machine} {V V' : View} {d i j t p q v w n : Nat}

/-! ## `setupkvm` -/

/-- Pages have been taken from the free list and not been given a use. -/
def Lost (V V' : View) : Prop :=
  ∀ q, V'.role q = V.role q ∨ V.role q = .free ∧ V'.role q = .held

/-- What `setupkvm` asks for. -/
def Link.setupDemand (link : Link) : List Request :=
  .directory :: kernelDemand (fun _ => false) link.kmap

/-- The entries from `KERNBASE` on are those of `kmap`. -/
structure HasKernel (link : Link) (s : Machine) (d : Nat) : Prop where
  mapped : ∀ k ∈ link.kmap, ∀ v, k.Covers v → s.entry d v = k.entry v
  unmapped : ∀ v, 2 ^ 19 ≤ v → v < 2 ^ 20 → (∀ k ∈ link.kmap, ¬ k.Covers v) → s.entry d v = 0

theorem HasKernel.congr (has : HasKernel link s d)
    (same : ∀ v, 2 ^ 19 ≤ v → v < 2 ^ 20 → s'.entry d v = s.entry d v) : HasKernel link s' d := by
  constructor
  · intro k member v covers
    have fits := link.kmap_ranges.1 k member
    have high := fits.high
    have kernel := fits.kernel
    rw [same v (by have := covers.1; omega) (by have := covers.2; omega)]
    exact has.mapped k member v covers
  · intro v kernel high uncovered
    rw [same v kernel high, has.unmapped v kernel high uncovered]

/-- A directory with the kernel's half has been added. -/
structure NewSpace (link : Link) (d : Nat) (s : Machine) (V : View) (s' : Machine) (V' : View) :
    Prop extends Preserves link s V s' V' where
  kernel : HasKernel link s' d
  user : ∀ v < 2 ^ 19, s'.entry d v = 0
  supply : s'.supply V' = (s.supply V).after link.setupDemand.length
  wasFree : V.role d = .free
  directory : V'.role d = .directory
  tables : ∀ i, s'.tables d i = true ↔ ∃ v, KernelPage v ∧ v / 1024 = i
  present : ∀ d' v, V'.Present s' d' v ↔ V.Present s d' v ∨ d' = d ∧ KernelPage v
  roles : ∀ q ≠ d, V'.role q = V.role q ∨ V.role q = .free ∧ ∃ i, V'.role q = .table d i

theorem Models.not_present_of_free (models : Models link s V) (isFree : V.role d ≠ .directory) :
    ¬ V.Present s d v := by
  rintro ⟨t, table, -⟩
  exact isFree (models.of_table t d _ table).1

/-- Giving up a directory that has only tables loses the directory and the tables. -/
theorem NewTables.lost (wasFree : V.role d = .free)
    (added : ∀ q ≠ d, V'.role q = V.role q ∨ V.role q = .free ∧ ∃ i, V'.role q = .table d i)
    (unnamed : ∀ q, V.role q ≠ .free → (V.role q).without d = V.role q) : Lost V (V'.retire d) := by
  intro q
  by_cases same : q = d
  · subst same
    exact .inr ⟨wasFree, View.retire_role_self⟩
  · rw [View.retire_role_of_ne same]
    rcases added q same with old | ⟨isFree, i, table⟩
    · rw [old]
      by_cases isFree : V.role q = .free
      · rw [isFree]
        exact .inl rfl
      · exact .inl (unnamed q isFree)
    · rw [table]
      exact .inr ⟨isFree, if_pos rfl⟩

theorem setupkvm_spec (models : Models link s V) :
    Wp link.setupkvm (fun _ => False) (fun r s' =>
      match r with
      | some d => (s.supply V).firstRefused link.setupDemand = none ∧
          ∃ V', NewSpace link d s V s' V'
      | none => ∃ V', Preserves link s V s' V' ∧ Lost V V' ∧
          ((s.supply V).firstRefused link.setupDemand = some .directory ∧ V' = V ∨
            (s.supply V).firstRefused link.setupDemand = some .kernelTable ∧
              ∃ q, V.role q = .free ∧ V'.role q = .held)) s := by
  obtain ⟨fits, covers, apart⟩ := link.kmap_ranges
  unfold Link.setupkvm
  apply (kalloc_spec models).seq
  rintro (_ | d) s₁ answer
  · refine ⟨V, .of_mem answer.2.models answer.2.mem answer.2.loads, fun _ => .inl rfl,
      .inl ⟨?_, rfl⟩⟩
    simp [Link.setupDemand, Supply.firstRefused, answer.1]
  · obtain ⟨-, rest, taken⟩ := answer
    have wasFree := taken.wasFree
    have cleared := taken.setPage fun _ => 0
    have empty : ∀ i, isPresent ((s₁.setPage d fun _ => 0).mem d i) = false := by
      simp [Machine.setPage, isPresent]
    have created := cleared.models.addDirectory View.use_role_self empty
    rw [View.use_set] at created
    have preserved : Preserves link s V (s₁.setPage d fun _ => 0) (V.use d rest .directory) := by
      refine ⟨created, cleared.loads, fun q notFree _ => ?_⟩
      exact ⟨View.use_role_of_ne (taken.ne notFree), cleared.mem q (taken.ne notFree)⟩
    have noTables : (s₁.setPage d fun _ => 0).tables d = fun _ => false := by
      funext i
      exact empty i
    have vacant : ∀ v, ¬ (V.use d rest .directory).Present (s₁.setPage d fun _ => 0) d v := by
      intro v
      exact created.not_present_of_absent (empty _)
    simp only [wp_bind, wp_modify]
    apply (mapKernel_spec created View.use_role_self fits apart fun _ _ v _ => vacant v).imp
    have demands : (s.supply V).firstRefused link.setupDemand =
        ((s₁.setPage d fun _ => 0).supply (V.use d rest .directory)).firstRefused
          (kernelDemand ((s₁.setPage d fun _ => 0).tables d) link.kmap) := by
      rw [Link.setupDemand, Supply.firstRefused, taken.granted, noTables]
      simp only [Bool.false_eq_true, if_false]
      rw [← cleared.supply]
      rfl
    rw [demands]
    have other : ∀ q ≠ d, (V.use d rest .directory).role q = V.role q :=
      fun q different => View.use_role_of_ne different
    have unmapped : ∀ v, (s₁.setPage d fun _ => 0).entry d v = 0 := by
      intro v
      rw [Machine.entry, empty, if_neg (by decide)]
    rintro _ s' (⟨granted', rfl, V', mapped⟩ | ⟨refused, rfl, V', edited, added⟩)
    · refine ⟨granted', V', preserved.edited models wasFree mapped.toEdited,
        ⟨mapped.words, ?_⟩, ?_, ?_, wasFree, ?_, ?_, ?_, ?_⟩
      · intro v _ high uncovered
        rw [mapped.entry v high (by simpa using uncovered), unmapped]
      · intro v low
        rw [mapped.entry v (by omega), unmapped]
        rw [covers]
        exact fun kernel => absurd kernel.1 (by omega)
      · rw [mapped.supply, noTables, Link.setupDemand, List.length_cons, Nat.add_comm,
          ← Supply.after_after, ← cleared.supply]
        rfl
      · exact mapped.added.extends.directory View.use_role_self
      · intro i
        rw [mapped.tables, noTables]
        simp only [Bool.false_eq_true, false_or, ← covers]
        grind
      · intro d' v
        rw [mapped.present, covers]
        apply or_congr_left
        apply View.present_congr
        · intro t d'' i
          by_cases same : t = d
          · rw [same, View.use_role_self, wasFree]
            simp
          · rw [other t same]
        · intro t d'' i table
          exact cleared.mem t (taken.ne (by simp [table]))
      · intro q different
        rw [← other q different]
        exact mapped.added q
    · have directory := added.extends.directory View.use_role_self
      have kept := preserved.edited models wasFree edited
      refine ⟨V'.retire d, ⟨edited.models.retire directory, kept.loads,
        fun q notFree notHeld => ?_⟩,
        ?_, .inr ⟨refused, d, wasFree, View.retire_role_self⟩⟩
      · obtain ⟨role, mem⟩ := kept.spared q notFree notHeld
        rw [View.retire_role_of_ne (taken.ne notFree), role, models.without_eq (by simp [wasFree])]
        exact ⟨rfl, mem⟩
      apply NewTables.lost wasFree
      · intro q different
        rw [← other q different]
        exact added q
      · intro q _
        exact models.without_eq (by simp [wasFree]) q

/-! ## `allocuvm` -/

theorem mappages_page_spec {perm : Nat} (models : Models link s V)
    (isDirectory : V.role d = .directory) (high : v < 2 ^ 20) (held : v < 2 ^ 19 → V.role p = .held)
    (small : perm < pgsize) :
    Wp (mappages d (v * pgsize) pgsize (p * pgsize) perm)
      (fun reason => reason = .remap ∧ V.Present s d v) (fun r s' =>
      ((s.supply V).firstRefused (pageDemand (s.tables d) v) = some (tableRequest v) ∧
        r = false ∧ Refused link s V s') ∨
      ((s.supply V).firstRefused (pageDemand (s.tables d) v) = none ∧
        r = true ∧ ∃ V', Entered link d v p perm s V s' V')) s := by
  have last : pgrounddown ((v * pgsize + pgsize - 1) % 2 ^ 32) = v * pgsize := by
    unfold pgrounddown pgsize
    omega
  have first : pgrounddown (v * pgsize) = v * pgsize := by
    unfold pgrounddown pgsize
    omega
  unfold mappages
  rw [last, first, show rounds = 2 ^ 20 - 1 + 1 by rfl, mapLoop]
  apply (mapPage_spec models isDirectory high held small).seq
  rintro _ s' (⟨refused, rfl, rest⟩ | ⟨granted, rfl, rest⟩)
  · exact .inl ⟨refused, rfl, rest⟩
  · rw [if_pos rfl, if_pos rfl]
    exact .inr ⟨granted, rfl, rest⟩

/-- Only free pages and user pages of the directory change their roles, and no page
leaves it for another directory. -/
def Own (d : Nat) (V V' : View) : Prop :=
  ∀ q, V'.role q = V.role q ∨ (V.role q = .free ∨ ∃ v, V.role q = .user d v) ∧
    (V'.role q = .free ∨ V'.role q = .held ∨ (V'.role q).owner = some d)

namespace Own

variable {V'' : View}

theorem refl : Own d V V :=
  fun _ => .inl rfl

theorem trans (first : Own d V V') (second : Own d V' V'') : Own d V V'' := by
  intro q
  rcases second q with same | ⟨old, new⟩
  · rw [same]
    exact first q
  · rcases first q with same | ⟨old', -⟩
    · rw [same] at old
      exact .inr ⟨old, new⟩
    · exact .inr ⟨old', new⟩

theorem stays {r : Role} (own : Own d V V') (old : V.role q = r) (notFree : r ≠ .free)
    (notUser : ∀ v, r ≠ .user d v) : V'.role q = r := by
  subst old
  rcases own q with same | ⟨isFree | ⟨v, user⟩, -⟩
  · exact same
  · exact absurd isFree notFree
  · exact absurd user (notUser v)

end Own

variable {hi newsz oldsz a sz : Nat}

theorem Freed.own (freed : Freed d v hi V V') : Own d V V' := by
  intro q
  rcases freed q with same | ⟨⟨v', -, -, user⟩, isFree⟩
  · exact .inl same
  · exact .inr ⟨.inr ⟨v', user⟩, .inl isFree⟩

theorem Extends.own (ext : Extends d V V') : Own d V V' := by
  intro q
  rcases ext q with same | ⟨isFree, owned⟩
  · exact .inl same
  · exact .inr ⟨.inl isFree, .inr (.inr owned)⟩

theorem Lost.own (lost : Lost V V') : Own d V V' := by
  intro q
  rcases lost q with same | ⟨isFree, held⟩
  · exact .inl same
  · exact .inr ⟨.inl isFree, .inr (.inl held)⟩

/-- A page has been entered: it was free, and the words are in it. -/
def Backed (d v perm : Nat) (words : Nat → Nat) (V : View) (s : Machine) : Prop :=
  ∃ p, V.role p = .free ∧ s.entry d v = p * pgsize ||| (perm ||| pteP) ∧ s.mem p = words

variable {R : Nat → Prop} {V₁ : View}

namespace Backed

variable {perm : Nat} {words : Nat → Nat}

variable (backed : Backed d v perm words V s)
include backed

theorem present : isPresent (s.entry d v) = true := by
  obtain ⟨p, -, entry, -⟩ := backed
  rw [entry]
  exact isPresent_entry _ _

theorem mem (small : perm < pgsize) :
    V.role (target (s.entry d v)) = .free ∧ s.mem (target (s.entry d v)) = words := by
  obtain ⟨p, isFree, entry, mem⟩ := backed
  rw [entry, target_entry small]
  exact ⟨isFree, mem⟩

/-- Other pages of the directory may be edited. -/
theorem edited (edited : Edited link d R s V₁ s' V') (models : Models link s V₁)
    (isDirectory : V₁.role d = .directory) (small : perm < pgsize) (low : v < 2 ^ 19)
    (outside : ¬ R v) : Backed d v perm words V s' := by
  have user := models.role_entry isDirectory low backed.present
  obtain ⟨p, isFree, entry, mem⟩ := backed
  rw [entry, target_entry small] at user
  refine ⟨p, isFree, ?_, ?_⟩
  · rw [edited.entry v (by omega) outside, entry]
  · rw [(edited.page (.inl isDirectory) user fun _ => outside).2, mem]

end Backed

namespace Taken

variable {list : List Nat} {s₁ : Machine}

variable (taken : Taken link p list s V s₁)
include taken

theorem tables (isDirectory : V.role d = .directory) : s₁.tables d = s.tables d := by
  funext i
  rw [Machine.tables, taken.mem]
  · rfl
  · exact View.ne_of_role isDirectory taken.wasFree (by simp)

theorem present (d v : Nat) : (V.use p list .held).Present s₁ d v ↔ V.Present s d v := by
  apply View.present_congr
  · intro t d' i
    by_cases same : t = p
    · rw [same, View.use_role_self, taken.wasFree]
      simp
    · rw [View.use_role_of_ne same]
  · intro t d' i table
    exact taken.mem t (View.ne_of_role table taken.wasFree (by simp))

theorem lost : Lost V (V.use p list .held) := by
  intro q
  by_cases same : q = p
  · rw [same]
    exact .inr ⟨taken.wasFree, View.use_role_self⟩
  · exact .inl (View.use_role_of_ne same)

/-- The page is entered into a directory. -/
theorem grown {perm : Nat} (models : Models link s V)
    (entered : Entered link d v p perm s₁ (V.use p list .held) s' V') (low : v < 2 ^ 19)
    (isDirectory : V.role d = .directory) : Grown link [.data] d v 1 s V s' V' := by
  constructor
  · exact (taken.edited models isDirectory).trans (entered.toEdited.mono (by omega))
  · rw [entered.supply, taken.supply, taken.tables isDirectory, Supply.after_after, Nat.add_comm]
    simp [demand]
  · intro i
    rw [entered.tables_iff, taken.tables isDirectory]
  · intro d' v'
    rw [entered.present, taken.present]
    grind
  · intro q
    by_cases same : q = p
    · rw [same]
      exact .inr ⟨taken.wasFree, .inr ⟨v, by omega, by omega, (entered.page low).1⟩⟩
    · rcases entered.roles q (.inl same) with old | ⟨isFree, table⟩
      · rw [View.use_role_of_ne same] at old
        exact .inl old
      · rw [View.use_role_of_ne same] at isFree
        exact .inr ⟨isFree, .inl ⟨_, table⟩⟩

/-- The next page is refused. -/
theorem abandoned (models : Models link s V) (isDirectory : V.role d = .directory)
    (refused : Refused link s₁ (V.use p list .held) s') :
    Edited link d R s V s' (V.use p list .held) :=
  (taken.edited models isDirectory).trans refused.edited

/-- `mappages` for a page that has just been taken. -/
theorem mappages_spec {perm : Nat} (models : Models link s V) (isDirectory : V.role d = .directory)
    (low : v < 2 ^ 19) (small : perm < pgsize) :
    Wp (mappages d (v * pgsize) pgsize (p * pgsize) perm)
      (fun reason => reason = .remap ∧ V.Present s d v) (fun r s' =>
      ((s.supply V).firstRefused ([.data] ++ pageDemand (s.tables d) v) = some .userTable ∧
        r = false ∧ Refused link s₁ (V.use p list .held) s') ∨
      ((s.supply V).firstRefused ([.data] ++ pageDemand (s.tables d) v) = none ∧
        r = true ∧ ∃ V', Grown link [.data] d v 1 s V s' V' ∧ V'.role p = .user d v ∧
          Backed d v perm (s₁.mem p) V s')) s₁ := by
  have demands : (s.supply V).firstRefused ([.data] ++ pageDemand (s.tables d) v) =
      (s₁.supply (V.use p list .held)).firstRefused (pageDemand (s₁.tables d) v) := by
    rw [List.singleton_append, Supply.firstRefused, taken.granted, taken.supply,
      taken.tables isDirectory]
    rfl
  rw [demands]
  apply (mappages_page_spec taken.models (taken.isDirectory isDirectory) (by omega)
    (fun _ => View.use_role_self) small).mono
  · rintro _ ⟨rfl, present⟩
    exact ⟨rfl, (taken.present d v).mp present⟩
  · rintro r s' (⟨request, rfl, refused⟩ | ⟨granted, rfl, V', entered⟩)
    · rw [tableRequest_user low] at request
      exact .inl ⟨request, rfl, refused⟩
    · obtain ⟨user, mem⟩ := entered.page low
      exact .inr ⟨granted, rfl, V', taken.grown models entered low isDirectory, user,
        p, taken.wasFree, entered.word, mem⟩

end Taken

/-- The user pages from `lo` to `hi` have been freed again, and free pages have become
tables. -/
structure Undone (d lo hi : Nat) (V V' : View) : Prop where
  user : ∀ q v, lo ≤ v → v < hi → V.role q = .user d v → V'.role q = .free
  free : ∀ q, V.role q = .free → V'.role q = .free ∨ ∃ i, V'.role q = .table d i
  other : ∀ q, V.role q ≠ .free → (∀ v, lo ≤ v → v < hi → V.role q ≠ .user d v) →
    V'.role q = V.role q

theorem Grown.mapped_iff {data : List Request} (grown : Grown link data d v n s V s' V')
    (models : Models link s V) (low : v + n ≤ 2 ^ 19) {d' v' : Nat} :
    V'.Mapped d' v' ↔ V.Mapped d' v' ∨ d' = d ∧ v ≤ v' ∧ v' < v + n := by
  rw [grown.models.mapped_iff, models.mapped_iff, grown.present]
  grind

theorem Undone.of_grown {lo : Nat} {V'' : View} (undone : Undone d lo hi V' V'')
    (grown : Grown link [.data] d v 1 s V s' V') (after : lo ≤ v) (before : v < hi) :
    Undone d lo hi V V'' := by
  constructor
  · intro q v' low high user
    rcases grown.roles q with same | ⟨isFree, -⟩
    · exact undone.user q v' low high (by rw [same, user])
    · rw [user] at isFree
      contradiction
  · intro q isFree
    rcases grown.roles q with same | ⟨-, ⟨i, table⟩ | ⟨v', low, high, user⟩⟩
    · exact undone.free q (by rw [same, isFree])
    · refine .inr ⟨i, ?_⟩
      rw [undone.other q (by simp [table]) (by simp [table]), table]
    · exact .inl (undone.user q v' (by omega) (by omega) user)
  · intro q notFree notUser
    rcases grown.roles q with same | ⟨isFree, -⟩
    · rw [undone.other q (by rw [same]; exact notFree) (by rw [same]; exact notUser), same]
    · exact absurd isFree notFree

/-- `deallocuvm` after a failed `kalloc` in `allocuvm`. -/
theorem Undone.of_freed {lo : Nat} (freed : Freed d lo newsz V V') (size : hi = pages newsz)
    (unmapped : ∀ v, lo ≤ v → v < hi → ¬ V'.Mapped d v) : Undone d lo hi V V' := by
  constructor
  · intro q v low high user
    rcases freed q with same | ⟨-, isFree⟩
    · exact absurd ⟨q, by rw [same, user]⟩ (unmapped v low high)
    · exact isFree
  · intro q isFree
    rcases freed q with same | ⟨⟨v, -, -, user⟩, -⟩
    · exact .inl (by rw [same, isFree])
    · rw [isFree] at user
      contradiction
  · intro q _ notUser
    rcases freed q with same | ⟨⟨v, low, high, user⟩, -⟩
    · exact same
    · rw [← lt_pages_iff, ← size] at high
      exact absurd user (notUser v low high)

/-- Free pages and pages of the directory stay what they are, or change from one to the
other. -/
def Settled (d : Nat) (V V' : View) : Prop :=
  ∀ q, V.role q = .free ∨ (V.role q).owner = some d →
    V'.role q = .free ∨ (V'.role q).owner = some d

theorem Settled.trans {V'' : View} (first : Settled d V V') (second : Settled d V' V'') :
    Settled d V V'' :=
  fun q old => second q (first q old)

theorem Extends.settled (ext : Extends d V V') : Settled d V V' := by
  intro q old
  rcases ext q with same | ⟨-, owned⟩
  · rw [same]
    exact old
  · exact .inr owned

theorem Freed.settled (freed : Freed d v hi V V') : Settled d V V' := by
  intro q old
  rcases freed q with same | ⟨-, isFree⟩
  · rw [same]
    exact old
  · exact .inl isFree

/-- The pages of `d` from `oldsz` to `newsz` are not there. -/
def View.Vacant (V : View) (d oldsz newsz : Nat) : Prop :=
  ∀ v, pages oldsz ≤ v → v < pages newsz → ¬ V.Mapped d v

/-- `deallocuvm` meets all pages that have been entered: there is a table at which it
starts, or there are no pages yet. -/
def Anchored (d oldsz newsz v : Nat) (s : Machine) (V : View) : Prop :=
  s.tables d (pages oldsz / 1024) = true ∨
    V.Vacant d oldsz newsz ∧ (v = pages oldsz ∨ (s.supply V).refuses = true)

theorem Anchored.grown (anchored : Anchored d oldsz newsz v s V)
    (granted : (s.supply V).refuses = false) (grown : Grown link [.data] d v 1 s V s' V') :
    Anchored d oldsz newsz (v + 1) s' V' := by
  refine .inl ((grown.tables _).mpr ?_)
  rcases anchored with has | ⟨-, rfl | refused⟩
  · exact .inl has
  · exact .inr ⟨_, Nat.le_refl _, Nat.lt_succ_self _, rfl⟩
  · rw [granted] at refused
    cases refused

theorem Lost.mapped (lost : Lost V V') (mapped : V'.Mapped d v) : V.Mapped d v := by
  obtain ⟨q, user⟩ := mapped
  refine ⟨q, ?_⟩
  rcases lost q with same | ⟨-, held⟩
  · rw [← same, user]
  · rw [held] at user
    cases user

theorem Undone.vacant (undone : Undone d (pages oldsz) (pages newsz) V V') :
    V'.Vacant d oldsz newsz := by
  rintro v after before ⟨q, user⟩
  by_cases isFree : V.role q = .free
  · rcases undone.free q isFree with still | ⟨i, table⟩
    · rw [still] at user
      cases user
    · rw [table] at user
      cases user
  · by_cases old : ∃ w, pages oldsz ≤ w ∧ w < pages newsz ∧ V.role q = .user d w
    · obtain ⟨w, low, high, old⟩ := old
      rw [undone.user q w low high old] at user
      cases user
    · push Not at old
      rw [undone.other q isFree old] at user
      exact old v after before user

/-- What a loop that has been refused a page for a table comes to, if `kalloc` fails only
when the list is empty: the loop ends with `newsz` just when the table was for the last
page, and that table is missing. -/
def Overrun (d oldsz newsz : Nat) (demand : List Request) (s : Machine) (V : View) (r : Nat)
    (start : Prop) (s' : Machine) (V' : View) : Prop :=
  s.refuse = (fun _ => false) →
    if V.free.length + 1 = demand.length then
      r = newsz ∧ s'.tables d ((pages newsz - 1) / 1024) = false
    else r = 0 ∧ (start → V'.Vacant d oldsz newsz)

theorem Overrun.mono {r : Nat} {requests : List Request} {start start' : Prop}
    (overrun : Overrun d oldsz newsz requests s V r start' s' V') (started : start → start') :
    Overrun d oldsz newsz requests s V r start s' V' := by
  intro reliable
  have ending := overrun reliable
  split
  · rwa [if_pos (by assumption)] at ending
  · rw [if_neg (by assumption)] at ending
    exact ⟨ending.1, fun start => ending.2 (started start)⟩

/-- After the first page, the fate of the range is that of the rest. -/
theorem Overrun.grown {r : Nat} {start start' : Prop} {s'' : Machine} {V'' : View}
    (overrun : Overrun d oldsz newsz (demand [.data] (s'.tables d) (v + 1) n)
      s' V' r start' s'' V'')
    (grown : Grown link [.data] d v 1 s V s' V')
    (granted : (s.supply V).firstRefused ([.data] ++ pageDemand (s.tables d) v) = none)
    (started : start → start') :
    Overrun d oldsz newsz (demand [.data] (s.tables d) v (n + 1)) s V r start s'' V'' := by
  have overrun := overrun.mono started
  intro reliable
  have supply := grown.supply
  have count : (demand [.data] (s.tables d) v 1).length =
      ([Request.data] ++ pageDemand (s.tables d) v).length := by simp [demand]
  rw [count] at supply
  have fewer : V'.free.length = V.free.length - _ := congrArg Supply.free supply
  have enough := (Supply.firstRefused_eq_none_iff reliable).mp granted
  have same : V'.free.length + 1 = (demand [.data] (s'.tables d) (v + 1) n).length ↔
      V.free.length + 1 = (demand [.data] (s.tables d) v (n + 1)).length := by
    rw [demand, ← grown.tables_eq, List.length_append, fewer]
    change _ ≤ V.free.length at enough
    omega
  have ending := overrun ((congrArg Supply.refuse supply).trans reliable)
  simp only [same] at ending
  exact ending

/-- The first refusal is for the table of a page, and the list is empty then. -/
theorem Taken.overrun {r : Nat} {list : List Nat} {s₁ s₂ : Machine}
    (taken : Taken link p list s V s₁) (refused : Refused link s₁ (V.use p list .held) s₂)
    (request : (s.supply V).firstRefused ([.data] ++ pageDemand (s.tables d) v) = some .userTable)
    (isDirectory : V.role d = .directory) (count : pages newsz - v = n + 1)
    (done : n = 0 → r = newsz ∧ s'.tables d = s₂.tables d)
    (failed : (s₂.supply (V.use p list .held)).refuses = true → n ≠ 0 → r = 0 ∧
      (Anchored d oldsz newsz (v + 1) s₂ (V.use p list .held) → V'.Vacant d oldsz newsz)) :
    Overrun d oldsz newsz (demand [.data] (s.tables d) v (n + 1)) s V r
      (Anchored d oldsz newsz v s V) s' V' := by
  intro reliable
  have missing : s.tables d (v / 1024) = false := by
    by_contra has
    simp [pageDemand, Bool.not_eq_false _ ▸ has, Supply.firstRefused, taken.granted] at request
  have isDemand : pageDemand (s.tables d) v = [tableRequest v] := by
    rw [pageDemand, if_neg (by simp [missing])]
  rw [isDemand] at request
  obtain ⟨one, empty⟩ := Supply.refused_second reliable taken.granted (by rw [request]; simp)
  have one : V.free.length = 1 := one
  rw [← taken.supply, ← refused.supply] at empty
  rw [demand, isDemand]
  cases n with
  | zero =>
    obtain ⟨result, same⟩ := done rfl
    rw [if_pos (by simp [one, demand]), show pages newsz - 1 = v by omega, same, Machine.tables,
      refused.mem]
    exact ⟨result, (congrFun (taken.tables isDirectory) _).trans missing⟩
  | succ n =>
    obtain ⟨result, vacated⟩ := failed empty (by omega)
    rw [if_neg (by simp [one, demand])]
    refine ⟨result, fun anchored => vacated ?_⟩
    rcases anchored with has | ⟨vacant, -⟩
    · refine .inl ?_
      rw [Machine.tables, refused.mem]
      exact (congrFun (taken.tables isDirectory) _).trans has
    · refine .inr ⟨fun v after before mapped => ?_, .inr empty⟩
      exact vacant v after before (taken.lost.mapped mapped)

/-- The loop of `allocuvm`.  Without a refusal all pages are entered.  If the first refusal
is for a table the data page for it is lost; otherwise nothing is. -/
theorem allocLoop_spec {fuel : Nat} (models : Models link s V) (isDirectory : V.role d = .directory)
    (low : newsz < kernbase) (enough : pages newsz ≤ v + fuel) (start : pages oldsz ≤ v)
    (stop : v ≤ pages newsz) :
    Wp (link.allocLoop d oldsz newsz fuel (v * pgsize))
      (fun reason => reason = .remap ∧ ∃ v', v ≤ v' ∧ v' < pages newsz ∧ V.Mapped d v')
      (fun r s' => ∃ V', Edited link d (fun v => pages oldsz ≤ v ∧ v < pages newsz) s V s' V' ∧
        Own d V V' ∧
        match (s.supply V).firstRefused
          (demand [.data] (s.tables d) v (pages newsz - v)) with
        | none => r = newsz ∧ Grown link [.data] d v (pages newsz - v) s V s' V' ∧
            ∀ w, v ≤ w → w < pages newsz → Backed d w (pteW ||| pteU) (fun _ => 0) V s'
        | some .userTable => (∃ q, V.role q = .free ∧ V'.role q = .held) ∧
            Overrun d oldsz newsz (demand [.data] (s.tables d) v (pages newsz - v)) s V r
              (Anchored d oldsz newsz v s V) s' V'
        | some _ => r = 0 ∧ Settled d V V' ∧
            (Anchored d oldsz newsz v s V → Undone d (pages oldsz) (pages newsz) V V')) s := by
  have below := pages_le low.le
  induction fuel generalizing v s V with
  | zero =>
    have done : pages newsz - v = 0 := by omega
    rw [done]
    exact ⟨V, .refl models, Own.refl, rfl, Grown.refl models, by omega⟩
  | succ fuel ih =>
    rw [Link.allocLoop]
    split
    · rename_i inside
      rw [← lt_pages_iff] at inside
      obtain ⟨n, count⟩ : ∃ n, pages newsz - v = n + 1 := ⟨pages newsz - v - 1, by omega⟩
      have rest : pages newsz - (v + 1) = n := by omega
      have next : v * pgsize + pgsize = (v + 1) * pgsize := by
        unfold pgsize
        omega
      rw [count, next]
      apply (kalloc_spec models).always
      rintro (_ | p) s₁ answer
      · -- the data page is refused
        obtain ⟨noPage, refused⟩ := answer
        have fate : (s.supply V).firstRefused (demand [.data] (s.tables d) v (n + 1)) =
            some .data := by
          simp [demand, Supply.firstRefused, noPage]
        rw [fate]
        apply (deallocuvm_spec refused.models isDirectory low.le).always
        rintro r s' ⟨-, V', edited, freed, all⟩
        refine ⟨V', refused.edited.trans edited, freed.own, rfl,
          freed.settled, fun anchored => Undone.of_freed freed rfl fun v' low' high' => ?_⟩
        rcases anchored with has | ⟨vacant, -⟩
        · refine all (.inr ?_) v' low' high'
          rw [Machine.tables, refused.mem]
          exact has
        · exact freed.not_mapped (vacant v' low' high')
      · obtain ⟨-, list, taken⟩ := answer
        simp only [wp_bind, wp_modify]
        apply ((taken.setPage fun _ => 0).mappages_spec models isDirectory (by omega)
          (by decide)).mono
        · rintro _ ⟨rfl, present⟩
          exact ⟨rfl, v, Nat.le_refl v, inside, models.mapped_iff.mpr ⟨by omega, present⟩⟩
        rintro _ s₂ (⟨request, -, refused⟩ | ⟨granted', -, V₂, grown, -, backed⟩)
        · -- the data page is lost
          have cleared := taken.setPage fun _ => 0
          have fate : (s.supply V).firstRefused (demand [.data] (s.tables d) v (n + 1)) =
              some .userTable := by
            rw [demand, Supply.firstRefused_append, request]
            rfl
          rw [fate]
          apply (ih refused.models (taken.isDirectory isDirectory) (by omega)
            (by omega) (by omega)).mono
          · rintro _ ⟨rfl, v', low', high', mapped⟩
            exact ⟨rfl, v', by omega, high', taken.lost.mapped mapped⟩
          · rintro r s' ⟨V', edited', own, ending⟩
            refine ⟨V', (cleared.abandoned models isDirectory refused).trans edited',
              taken.lost.own.trans own,
              ⟨p, taken.wasFree, own.stays View.use_role_self (by simp) (by simp)⟩, ?_⟩
            rw [rest] at ending
            apply cleared.overrun refused request isDirectory count
            · rintro rfl
              refine ⟨ending.1, funext fun i => Bool.eq_iff_iff.mpr ?_⟩
              rw [ending.2.1.tables]
              grind
            · intro empty more
              obtain ⟨m, rfl⟩ := Nat.exists_eq_succ_of_ne_zero more
              rw [demand, List.singleton_append, List.cons_append, Supply.firstRefused,
                if_pos empty] at ending
              exact ⟨ending.1, fun anchored => (ending.2.2 anchored).vacant⟩
        · rw [grown.firstRefused_succ granted']
          apply (ih grown.models (grown.extends.directory isDirectory) (by omega)
            (by omega) (by omega)).mono
          · rintro _ ⟨rfl, v', low', high', mapped⟩
            refine ⟨rfl, v', by omega, high', ?_⟩
            rcases (grown.mapped_iff models (by omega)).mp mapped with old | here
            · exact old
            · omega
          · rintro r s' ⟨V', edited, own, ending⟩
            refine ⟨V', (grown.toEdited.mono (by omega)).trans edited,
              grown.extends.own.trans own, ?_⟩
            rw [rest] at ending
            have anchor : Anchored d oldsz newsz v s V → Anchored d oldsz newsz (v + 1) s₂ V₂ :=
              fun anchored => anchored.grown taken.granted grown
            generalize isFate : (s₂.supply V₂).firstRefused
              (demand [.data] (s₂.tables d) (v + 1) n) =
              fate at ending ⊢
            cases fate with
            | none =>
              obtain ⟨result, grown', backed'⟩ := ending
              refine ⟨result, grown.cons grown', fun w after before => ?_⟩
              by_cases here : w = v
              · subst here
                rw [show (s₁.setPage p fun _ => 0).mem p = fun _ => 0 from
                  Function.update_self _ _ _] at backed
                exact backed.edited grown'.toEdited grown.models
                  (grown.extends.directory isDirectory)
                  (by decide) (by omega) (by omega)
              · obtain ⟨p, isFree, isBacked⟩ := backed' w (by omega) before
                exact ⟨p, grown.extends.wasFree isFree, isBacked⟩
            | some request =>
              cases request with
              | userTable =>
                obtain ⟨⟨q, isFree, held⟩, overrun⟩ := ending
                exact ⟨⟨q, grown.extends.wasFree isFree, held⟩, overrun.grown grown granted' anchor⟩
              | _ =>
                exact ⟨ending.1, grown.extends.settled.trans ending.2.1, fun anchored =>
                  (ending.2.2 (anchor anchored)).of_grown grown start inside⟩
    · rename_i done
      rw [← lt_pages_iff] at done
      have done : pages newsz - v = 0 := by omega
      rw [done]
      exact ⟨V, .refl models, Own.refl, rfl, Grown.refl models, by omega⟩

/-- What `allocuvm` asks for. -/
def allocDemand (has : Nat → Bool) (oldsz newsz : Nat) : List Request :=
  if newsz ≥ kernbase ∨ newsz < oldsz then []
  else demand [.data] has (pages oldsz) (pages newsz - pages oldsz)

/-- `allocuvm`, when it does not return early. -/
theorem allocuvm_spec (models : Models link s V) (isDirectory : V.role d = .directory)
    (low : newsz < kernbase) (larger : oldsz ≤ newsz) :
    Wp (link.allocuvm d oldsz newsz)
      (fun reason => reason = .remap ∧ ¬ V.Vacant d oldsz newsz)
      (fun r s' => ∃ V', Edited link d (fun v => pages oldsz ≤ v ∧ v < pages newsz) s V s' V' ∧
        Own d V V' ∧
        match (s.supply V).firstRefused (allocDemand (s.tables d) oldsz newsz) with
        | none => r = newsz ∧
            Grown link [.data] d (pages oldsz) (pages newsz - pages oldsz) s V s' V' ∧
            ∀ v, pages oldsz ≤ v → v < pages newsz → Backed d v (pteW ||| pteU) (fun _ => 0) V s'
        | some .userTable => (∃ q, V.role q = .free ∧ V'.role q = .held) ∧
            Overrun d oldsz newsz (allocDemand (s.tables d) oldsz newsz) s V r
              (V.Vacant d oldsz newsz) s' V'
        | some _ => r = 0 ∧ Settled d V V' ∧ (V.Vacant d oldsz newsz → NewTables d V V')) s := by
  unfold Link.allocuvm allocDemand
  have below : ¬ newsz ≥ kernbase := by omega
  have notSmaller : ¬ newsz < oldsz := by omega
  rw [if_neg below, if_neg notSmaller, if_neg (by omega),
    pgroundup_eq (show oldsz ≤ kernbase by omega)]
  have enough : pages newsz ≤ pages oldsz + rounds := by
    have top := pages_le low.le
    unfold rounds
    omega
  apply (allocLoop_spec models isDirectory low enough (Nat.le_refl _) (pages_mono larger)).mono
  · rintro _ ⟨rfl, v, after, before, mapped⟩
    exact ⟨rfl, fun vacant => vacant v after before mapped⟩
  · rintro r s' ⟨V', edited, own, ending⟩
    refine ⟨V', edited, own, ?_⟩
    have anchor : V.Vacant d oldsz newsz → Anchored d oldsz newsz (pages oldsz) s V :=
      fun vacant => .inr ⟨vacant, .inl rfl⟩
    have undo : (Anchored d oldsz newsz (pages oldsz) s V →
        Undone d (pages oldsz) (pages newsz) V V') →
        V.Vacant d oldsz newsz → NewTables d V V' := by
      intro undone vacant q
      have undone := undone (anchor vacant)
      by_cases isFree : V.role q = .free
      · rcases undone.free q isFree with still | table
        · exact .inl (by rw [still, isFree])
        · exact .inr ⟨isFree, table⟩
      · apply Or.inl
        apply undone.other q isFree
        intro v after before user
        exact vacant v after before ⟨q, user⟩
    generalize (s.supply V).firstRefused _ = fate at ending ⊢
    cases fate with
    | none => exact ending
    | some request =>
      cases request with
      | userTable => exact ⟨ending.1, ending.2.mono anchor⟩
      | _ => exact ⟨ending.1, ending.2.1, undo ending.2.2⟩

/-- `allocuvm` changes roles only for its directory. -/
theorem allocuvm_own (models : Models link s V) (isDirectory : V.role d = .directory) :
    Wp (link.allocuvm d oldsz newsz)
      (fun reason => reason = .remap ∧ ¬ V.Vacant d oldsz newsz)
      (fun _ s' => ∃ V', Edited link d (fun v => pages oldsz ≤ v ∧ v < pages newsz) s V s' V' ∧
        Own d V V') s := by
  by_cases early : newsz ≥ kernbase ∨ newsz < oldsz
  · unfold Link.allocuvm
    split
    · exact ⟨V, .refl models, Own.refl⟩
    · rw [if_pos (by omega)]
      exact ⟨V, .refl models, Own.refl⟩
  · apply (allocuvm_spec models isDirectory (by omega) (by omega)).imp
    rintro r s' ⟨V', edited, own, -⟩
    exact ⟨V', edited, own⟩

/-! ## `copyuvm` -/

/-- A directory has been freed again with everything in it; a page may have been lost. -/
def Dropped (d : Nat) (V V' : View) : Prop :=
  ∀ q, V'.role q = V.erase d q ∨ V.role q = .free ∧ V'.role q = .held

/-- Growing a directory and freeing it is freeing it. -/
theorem Extends.erase_eq (ext : Extends d V V') (isDirectory : V.role d = .directory) (q : Nat) :
    V'.erase d q = V.erase d q := by
  unfold View.erase
  rcases ext q with same | ⟨isFree, owned⟩
  · rw [same]
  · have notSelf : q ≠ d := View.ne_of_role isFree isDirectory (by simp)
    rw [if_pos (.inr owned), if_neg (by simp [isFree, notSelf, Role.owner]), isFree]

theorem Dropped.of_extends {V'' : View} (dropped : Dropped d V' V'') (ext : Extends d V V')
    (isDirectory : V.role d = .directory) : Dropped d V V'' := by
  intro q
  rw [← ext.erase_eq isDirectory]
  rcases dropped q with erased | ⟨isFree, held⟩
  · exact .inl erased
  · exact .inr ⟨ext.wasFree isFree, held⟩

theorem Dropped.of_lost {V'' : View} (lost : Lost V V') (isDirectory : V.role d = .directory)
    (roles : ∀ q, V''.role q = V'.erase d q) : Dropped d V V'' := by
  intro q
  rw [roles q]
  unfold View.erase
  rcases lost q with same | ⟨isFree, held⟩
  · rw [same]
    exact .inl rfl
  · have notSelf : q ≠ d := View.ne_of_role isFree isDirectory (by simp)
    exact .inr ⟨isFree, by simp [held, notSelf, Role.owner]⟩

/-- The source has all pages and the copy has none of them. -/
structure Copyable (V : View) (a d v sz : Nat) : Prop where
  low : sz ≤ kernbase
  source : ∀ v', v ≤ v' → v' < pages sz → V.Mapped a v'
  vacant : ∀ v', v ≤ v' → v' < pages sz → ¬ V.Mapped d v'

theorem Copyable.grown (copyable : Copyable V a d v sz) (models : Models link s V)
    (grown : Grown link [.data] d v 1 s V s' V') (low : v + 1 ≤ 2 ^ 19) :
    Copyable V' a d (v + 1) sz := by
  constructor
  · exact copyable.low
  · intro v' after before
    rw [grown.mapped_iff models low]
    exact .inl (copyable.source v' (by omega) before)
  · intro v' after before
    rw [grown.mapped_iff models low]
    rintro (old | ⟨-, -, here⟩)
    · exact copyable.vacant v' (by omega) before old
    · omega

/-- A page of the source has been copied to a page that was free. -/
def CopiedPage (a d v : Nat) (s : Machine) (V : View) (s' : Machine) : Prop :=
  isPresent (s.entry a v) = true ∧
    Backed d v (pteFlags (s.entry a v)) (s.mem (target (s.entry a v))) V s'

/-- The source is the same once its earlier pages have been copied. -/
theorem CopiedPage.of_grown {s₁ : Machine} (copied : CopiedPage a d w s₁ V₁ s')
    (grown : Grown link [.data] d v n s V s₁ V₁) (models : Models link s V)
    (isSource : V.role a = .directory) (isDirectory : V.role d = .directory) (different : a ≠ d)
    (low : w < 2 ^ 19) : CopiedPage a d w s V s' := by
  have same := grown.entry_other models (.inl isDirectory) isSource different
    (show w < 2 ^ 20 by omega)
  obtain ⟨present, p, isFree, entry, page⟩ := copied
  rw [same] at present entry page
  have user := models.role_entry isSource low present
  rw [(grown.page (.inl isDirectory) user fun wrong => absurd wrong different).2] at page
  exact ⟨present, p, grown.extends.wasFree isFree, entry, page⟩

theorem copyLoop_spec {fuel : Nat} (models : Models link s V) (isSource : V.role a = .directory)
    (isDirectory : V.role d = .directory) (different : a ≠ d) (kernel : V.Present s d (2 ^ 19))
    (bound : v ≤ 2 ^ 19) (enough : 2 ^ 19 < v + fuel) (start : v ≤ pages sz) :
    Wp (link.copyLoop a d sz fuel (v * pgsize)) (fun _ => ¬ Copyable V a d v sz)
      (fun r s' => ∃ V', Edited link d (fun _ => True) s V s' V' ∧
        match r, (s.supply V).firstRefused (demand [.data] (s.tables d) v (pages sz - v)) with
        | some d', none => d' = d ∧ pages sz ≤ 2 ^ 19 ∧
            Grown link [.data] d v (pages sz - v) s V s' V' ∧
            ∀ w, v ≤ w → w < pages sz → CopiedPage a d w s V s'
        | none, some .userTable => Dropped d V V' ∧ ∃ q, V.role q = .free ∧ V'.role q = .held
        | none, some .data => ∀ q, V'.role q = V.erase d q
        | _, _ => False) s := by
  induction fuel generalizing v s V with
  | zero => omega
  | succ fuel ih =>
    rw [Link.copyLoop]
    split
    · rename_i inside
      rw [← lt_pages_iff] at inside
      obtain ⟨n, count⟩ : ∃ n, pages sz - v = n + 1 := ⟨pages sz - v - 1, by omega⟩
      have rest : pages sz - (v + 1) = n := by omega
      have next : (v * pgsize + pgsize) % 2 ^ 32 = (v + 1) * pgsize := by
        unfold pgsize
        omega
      rw [count, next]
      apply (walkpgdir_spec models isSource).always
      rw [pdx_page (by omega), ptx_page]
      rintro (_ | ⟨t, j⟩) s₁ ⟨rfl, found⟩
      · intro copyable
        have mapped := copyable.source v (Nat.le_refl v) inside
        exact models.not_present_of_absent found (models.mapped_iff.mp mapped).2
      · obtain ⟨table, rfl⟩ := found
        simp only [wp_bind, wp_get]
        rw [← models.entry_table table]
        split
        · rename_i absent
          intro copyable
          have mapped := copyable.source v (Nat.le_refl v) inside
          rw [models.mapped_iff, models.present_iff table, ← models.entry_table table] at mapped
          simp [mapped.2] at absent
        · rename_i present
          apply (kalloc_spec models).always
          rintro (_ | p) s₂ answer
          · obtain ⟨noPage, refused⟩ := answer
            have fate : (s₁.supply V).firstRefused (demand [.data] (s₁.tables d) v (n + 1)) =
                some .data := by
              simp [demand, Supply.firstRefused, noPage]
            rw [fate]
            apply (freevm_spec refused.models isDirectory).always
            rintro _ s' ⟨V', edited, roles⟩
            exact ⟨V', refused.edited.trans edited, roles⟩
          · obtain ⟨sameMem, list, taken⟩ := answer
            have wasFree := taken.wasFree
            have small : pteFlags (s₁.entry a v) < pgsize := Nat.mod_lt _ (by decide)
            simp only [wp_bind, wp_modify, sameMem]
            by_cases low : v < 2 ^ 19
            · apply ((taken.setPage _).mappages_spec models isDirectory low small).mono
              · rintro _ ⟨rfl, present⟩ copyable
                exact copyable.vacant v (Nat.le_refl v) inside
                  (models.mapped_iff.mpr ⟨low, present⟩)
              rintro _ s₃ (⟨request, rfl, refused⟩ | ⟨granted', rfl, V₃, grown, -, backed⟩)
              · have fate : (s₁.supply V).firstRefused
                    (demand [.data] (s₁.tables d) v (n + 1)) = some .userTable := by
                  rw [demand, Supply.firstRefused_append, request]
                  rfl
                rw [fate, if_neg (by simp)]
                have isDirectory₃ := taken.isDirectory isDirectory
                apply (freevm_spec refused.models isDirectory₃).always
                rintro _ s' ⟨V', edited, roles⟩
                refine ⟨V', ((taken.setPage _).abandoned models isDirectory refused).trans edited,
                  ?_, p, wasFree, ?_⟩
                · exact Dropped.of_lost taken.lost isDirectory roles
                · have notSelf : p ≠ d := View.ne_of_role wasFree isDirectory (by simp)
                  rw [roles p, View.erase, View.use_role_self,
                    if_neg (by simp [notSelf, Role.owner])]
              · rw [if_pos rfl, grown.firstRefused_succ granted']
                have isSource₃ : V₃.role a = .directory := grown.extends.directory isSource
                apply (ih grown.models isSource₃
                  (grown.extends.directory isDirectory)
                  ((grown.present d _).mpr (.inl kernel)) (by omega) (by omega)
                  (by omega)).mono
                · intro _ notCopyable copyable
                  exact notCopyable (copyable.grown models grown (by omega))
                · rintro r s' ⟨V', edited, ending⟩
                  refine ⟨V', (grown.toEdited.mono fun _ _ => trivial).trans edited, ?_⟩
                  rw [rest] at ending
                  generalize (s₃.supply V₃).firstRefused
                    (demand [.data] (s₃.tables d) (v + 1) n) = fate at ending ⊢
                  rcases r with _ | d' <;> rcases fate with _ | fate
                  · exact ending
                  · cases fate with
                    | userTable =>
                      obtain ⟨dropped, q, isFree, held⟩ := ending
                      exact ⟨dropped.of_extends grown.extends isDirectory, q,
                        grown.extends.wasFree isFree,
                        held⟩
                    | data =>
                      intro q
                      rw [ending q, grown.extends.erase_eq isDirectory]
                    | directory | kernelTable | stack => exact ending
                  · obtain ⟨rfl, top, grown', copied⟩ := ending
                    refine ⟨rfl, top, grown.cons grown', fun w after before => ?_⟩
                    by_cases here : w = v
                    · subst here
                      rw [show (s₂.setPage p _).mem p = _ from Function.update_self _ _ _] at backed
                      exact ⟨by simpa using present, backed.edited grown'.toEdited grown.models
                        (grown.extends.directory isDirectory) small low (by omega)⟩
                    · exact (copied w (by omega) before).of_grown grown models isSource isDirectory
                        different (by omega)
                  · exact ending
            · -- the page at `KERNBASE` is there
              have here : v = 2 ^ 19 := by omega
              rw [← here] at kernel
              have notCopyable : ¬ Copyable V a d v sz := by
                intro copyable
                have top := pages_le copyable.low
                omega
              have copied := taken.setPage (s₁.mem (target (s₁.entry a v)))
              have present := (copied.present d v).mpr kernel
              apply (mappages_page_spec copied.models
                (taken.isDirectory isDirectory) (by omega) (by omega) small).mono
                (fun _ _ => notCopyable)
              rintro _ s₃ (⟨refused, -⟩ | ⟨-, -, V₃, entered⟩)
              · obtain ⟨t', table', -⟩ := present
                have has := (copied.models.of_table t' d _ table').2.2.1
                have demand : pageDemand ((s₂.setPage p _).tables d) v = [] := if_pos has
                rw [demand, Supply.firstRefused] at refused
                cases refused
              · exact absurd present entered.absent
    · rename_i done
      rw [← lt_pages_iff] at done
      have done : pages sz - v = 0 := by omega
      rw [done]
      exact ⟨V, .refl models, rfl, by omega, Grown.refl models, by omega⟩

/-- The tables of the kernel's half. -/
def kernelTables (i : Nat) : Bool :=
  (512 ≤ i && i < 568) || (1016 ≤ i && i < 1024)

section

variable (space : NewSpace link d s V s' V')
include space

theorem NewSpace.tables_eq : s'.tables d = kernelTables := by
  funext i
  rw [Bool.eq_iff_iff, space.tables]
  simp only [kernelTables, Bool.or_eq_true, Bool.and_eq_true, decide_eq_true_eq, KernelPage]
  constructor
  · rintro ⟨v, ⟨low, here⟩, rfl⟩
    omega
  · intro here
    refine ⟨i * 1024, by omega, ?_⟩
    rw [Nat.mul_div_cancel i (by decide)]

theorem NewSpace.not_mapped (models : Models link s V) : ¬ V'.Mapped d v := by
  rw [space.models.mapped_iff, space.present]
  rintro ⟨low, old | ⟨-, kernel⟩⟩
  · exact models.not_present_of_free (by simp [space.wasFree]) old
  · exact absurd kernel.1 (by omega)

/-- What `copyuvm` asks for. -/
def Link.copyDemand (link : Link) (sz : Nat) : List Request :=
  link.setupDemand ++ demand [.data] kernelTables 0 (pages sz)

/-- A new address space with the pages of a size, which are copies of those of `a`. -/
structure Built (link : Link) (a d sz : Nat) (s : Machine) (V : View) (s' : Machine) (V' : View) :
    Prop where
  wasFree : V.role d = .free
  directory : V'.role d = .directory
  kernel : HasKernel link s' d
  page : ∀ v < pages sz, CopiedPage a d v s V s'
  above : ∀ v < 2 ^ 19, pages sz ≤ v → s'.entry d v = 0
  mapped : ∀ v, V'.Mapped d v ↔ v < pages sz
  roles : ∀ q ≠ d, V'.role q = V.role q ∨ V.role q = .free ∧ (V'.role q).owner = some d

/-- What is left when an address space could not be built. -/
def Failed (V V' : View) (fate : Option Request) : Prop :=
  match fate with
  | none => False
  | some .userTable => Lost V V' ∧ ∃ q, V.role q = .free ∧ V'.role q = .held
  | some .kernelTable => Lost V V' ∧ ∃ q, V.role q = .free ∧ V'.role q = .held
  | some _ => ∀ q, V'.role q = V.role q

/-- A directory has been made out of free pages. -/
structure Owned (d : Nat) (V₀ V : View) : Prop where
  wasFree : V₀.role d = .free
  roles : ∀ q ≠ d, V.role q = V₀.role q ∨ V₀.role q = .free ∧ (V.role q).owner = some d

theorem NewSpace.owned : Owned d V V' := by
  refine ⟨space.wasFree, ?_⟩
  intro q notSelf
  rcases space.roles q notSelf with old | ⟨isFree, i, table⟩
  · exact .inl old
  · exact .inr ⟨isFree, by rw [table]; rfl⟩

end

theorem Built.owned (built : Built link a d sz s V s' V') : Owned d V V' :=
  ⟨built.wasFree, built.roles⟩

namespace Owned

variable (owned : Owned d V V')
include owned

/-- A page that belongs to the directory was free. -/
theorem wasFree_of_owner (models : Models link s V) (isOwner : (V'.role q).owner = some d)
    (notSelf : q ≠ d) : V.role q = .free := by
  rcases owned.roles q notSelf with old | ⟨isFree, -⟩
  · have unnamed := models.without_eq (d := d) (by simp [owned.wasFree]) q
    rw [old] at isOwner
    rw [Role.without_of_owner isOwner] at unnamed
    rw [← unnamed] at isOwner
    cases isOwner
  · exact isFree

theorem ne (notFree : V.role q ≠ .free) : q ≠ d := by
  rintro rfl
  exact notFree owned.wasFree

theorem keeps (notFree : V.role q ≠ .free) : V'.role q = V.role q := by
  rcases owned.roles q (owned.ne notFree) with same | ⟨isFree, -⟩
  · exact same
  · exact absurd isFree notFree

theorem wasFree_of_free (isFree : V'.role q = .free) : V.role q = .free := by
  by_contra notFree
  exact notFree ((owned.keeps notFree).symm.trans isFree)

/-- Freeing the directory brings the old roles back. -/
theorem erase_eq (models : Models link s V) (q : Nat) : V'.erase d q = V.role q := by
  unfold View.erase
  by_cases same : q = d
  · rw [if_pos (.inl same), same, owned.wasFree]
  · by_cases isOwner : (V'.role q).owner = some d
    · rw [if_pos (.inr isOwner), owned.wasFree_of_owner models isOwner same]
    · rw [if_neg (by simp [same, isOwner])]
      rcases owned.roles q same with old | ⟨-, new⟩
      · exact old
      · exact absurd new isOwner

end Owned

theorem Owned.extends {V'' : View} (owned : Owned d V V') (ext : Extends d V' V'') :
    Owned d V V'' := by
  refine ⟨owned.wasFree, ?_⟩
  intro q notSelf
  rcases ext q with same | ⟨isFree, isOwner⟩
  · rw [same]
    exact owned.roles q notSelf
  · exact .inr ⟨owned.wasFree_of_free isFree, isOwner⟩

theorem copyuvm_spec (models : Models link s V) (isSource : V.role a = .directory) :
    Wp (link.copyuvm a sz)
      (fun _ => ¬ (sz ≤ kernbase ∧ ∀ v < pages sz, V.Mapped a v))
      (fun r s' => ∃ V', Preserves link s V s' V' ∧
        match r with
        | some d => (s.supply V).firstRefused (link.copyDemand sz) = none ∧
            Built link a d sz s V s' V'
        | none => Failed V V' ((s.supply V).firstRefused (link.copyDemand sz))) s := by
  unfold Link.copyuvm Link.copyDemand
  rw [Supply.firstRefused_append]
  apply (setupkvm_spec models).always
  rintro (_ | d) s₁ result
  · obtain ⟨V', preserved, lost, ⟨fate, rfl⟩ | ⟨fate, leak⟩⟩ := result
    · rw [fate]
      exact ⟨V', preserved, fun _ => rfl⟩
    · rw [fate]
      exact ⟨V', preserved, lost, leak⟩
  · obtain ⟨granted, V₁, space⟩ := result
    have owned := space.owned
    have different : a ≠ d := owned.ne (by simp [isSource])
    have isSource₁ : V₁.role a = .directory := by rw [owned.keeps (by simp [isSource]), isSource]
    have kernel : V₁.Present s₁ d (2 ^ 19) := by
      rw [space.present]
      exact .inr ⟨rfl, Nat.le_refl _, .inl (by decide)⟩
    have enough : 2 ^ 19 < 0 + rounds := by
      unfold rounds
      omega
    have loop := copyLoop_spec space.models isSource₁ space.directory different kernel
      (Nat.zero_le _) enough (Nat.zero_le (pages sz))
    rw [Nat.zero_mul] at loop
    rw [granted, Option.none_or, ← space.supply, ← space.tables_eq]
    apply loop.mono
    · intro _ notCopyable copyable
      apply notCopyable
      refine ⟨copyable.1, ?_, fun v _ _ => space.not_mapped models⟩
      intro v _ before
      obtain ⟨q, user⟩ := copyable.2 v before
      exact ⟨q, by rw [owned.keeps (by simp [user]), user]⟩
    · rintro r s' ⟨V', edited, ending⟩
      refine ⟨V', space.toPreserves.edited models space.wasFree edited, ?_⟩
      rw [Nat.sub_zero] at ending
      generalize (s₁.supply V₁).firstRefused (demand [.data] (s₁.tables d) 0 (pages sz)) =
        fate at ending ⊢
      match r, fate with
      | some d', none =>
        obtain ⟨rfl, low, grown, copied⟩ := ending
        refine ⟨rfl, space.wasFree, grown.extends.directory space.directory, ?_, ?_, ?_, ?_, ?_⟩
        · exact space.kernel.congr fun v kernel high => grown.entry v high (by omega)
        · intro v before
          obtain ⟨present, p, isFree, entry, page⟩ := copied v (Nat.zero_le v) before
          rw [space.entry models isSource (by omega)] at present entry page
          have user := models.role_entry isSource (by omega) present
          rw [(space.spared _ (by simp [user]) (by simp [user])).2] at page
          exact ⟨present, p, owned.wasFree_of_free isFree, entry, page⟩
        · intro v below after
          rw [grown.entry v (by omega) (by omega), space.user v below]
        · intro v
          rw [grown.mapped_iff space.models (by omega)]
          simp [space.not_mapped models]
        · exact (owned.extends grown.extends).roles
      | none, some .userTable =>
        obtain ⟨dropped, q, isFree, held⟩ := ending
        refine ⟨?_, q, owned.wasFree_of_free isFree, held⟩
        intro q
        rcases dropped q with erased | ⟨isFree, held⟩
        · rw [erased, owned.erase_eq models]
          exact .inl rfl
        · exact .inr ⟨owned.wasFree_of_free isFree, held⟩
      | none, some .data =>
        intro q
        rw [ending q, owned.erase_eq models]
      | none, none => exact ending
      | none, some .directory => exact ending.elim
      | none, some .kernelTable => exact ending.elim
      | none, some .stack => exact ending.elim
      | some _, some _ => exact ending.elim

/-! ## `clearpteu` -/

theorem isPresent_clear (pte : Nat) :
    isPresent (if isUser pte then pte - pteU else pte) = isPresent pte ∧
      target (if isUser pte then pte - pteU else pte) = target pte := by
  by_cases user : isUser pte = true
  · rw [if_pos user]
    simp only [isUser, decide_eq_true_eq] at user
    unfold isPresent target pteAddr pteU pgsize
    have bit : (pte - 4) % 2 = pte % 2 := by omega
    have page : (pte - 4) / 4096 = pte / 4096 := by omega
    rw [bit, page]
    exact ⟨rfl, rfl⟩
  · rw [if_neg user]
    exact ⟨rfl, rfl⟩

/-- The user bit of an entry has been cleared. -/
structure Cut (link : Link) (d v : Nat) (s : Machine) (V : View) (s' : Machine) : Prop
    extends Edited link d (· = v) s V s' V where
  word : s'.entry d v = if isUser (s.entry d v) then s.entry d v - pteU else s.entry d v
  supply : s'.supply V = s.supply V
  tables : s'.tables d = s.tables d
  mem : ∀ q, (∀ i, V.role q ≠ .table d i) → s'.mem q = s.mem q

theorem Cut.not_user (cut : Cut link d v s V s') : isUser (s'.entry d v) = false := by
  rw [cut.word]
  split
  · rename_i user
    unfold isUser pteU at *
    simp only [decide_eq_true_eq, decide_eq_false_iff_not] at user ⊢
    omega
  · rename_i user
    simpa using user

theorem clearpteu_spec {uva : Nat} (models : Models link s V) (isDirectory : V.role d = .directory)
    (high : uva < 2 ^ 32) :
    Wp (clearpteu d uva) (fun _ => s.tables d (uva / pgsize / 1024) = false)
      (fun _ s' => Cut link d (uva / pgsize) s V s') s := by
  have index : pdx uva = uva / pgsize / 1024 := by
    unfold pdx pgsize
    omega
  unfold clearpteu
  apply (walkpgdir_spec models isDirectory).always
  rw [index]
  rintro (_ | ⟨t, j⟩) s₁ ⟨rfl, found⟩
  · exact found
  · obtain ⟨table, rfl⟩ := found
    have offset : ptx uva = uva / pgsize % 1024 := by
      unfold ptx pgsize
      omega
    have mem : ∀ q w, (∀ i, V.role q ≠ .table d i) →
        (s₁.setWord t (uva / pgsize % 1024) w).mem q = s₁.mem q := by
      intro q w notTable
      apply Models.mem_setWord_of_ne
      rintro rfl
      exact notTable _ table
    have below : uva / pgsize < 2 ^ 20 := by
      unfold pgsize
      omega
    rw [offset]
    refine ⟨⟨models.retouch table fun _ => isPresent_clear _, rfl, ?_, ?_⟩, ?_, rfl, ?_, ?_⟩
    · intro q _ kept
      refine ⟨rfl, mem q _ fun i isTable => ?_⟩
      rw [isTable] at kept
      exact kept rfl
    · intro v high other
      rw [models.entry_setWord table high, if_neg other]
    · rw [models.entry_setWord table below, if_pos rfl, models.entry_table table]
    · funext i
      rw [Machine.tables, mem d _ (by simp [isDirectory])]
      rfl
    · exact fun q => mem q _

end Xv6.Vm
