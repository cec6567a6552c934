import Xv6.Vm.ExecSafety

/-!
# The memory of processes

The specifications of `userinit`, `fork`, `exec`, `growproc` and of the reaping of a zombie
as a process table sees them: what becomes of the image of the process, and that the other
processes are left alone.
-/

namespace Xv6.Vm

open Stateful

variable {link : Link} {s s' : Machine} {V V' V'' V₁ : View} {d q v sz newsz : Nat}

/-! ## Leaving the others alone -/

/-- The other directories keep their pages, and held pages stay held. -/
structure Spares (d : Nat) (V V' : View) : Prop where
  directory : ∀ d' ≠ d, V.role d' = .directory → V'.role d' = .directory
  mapped : ∀ d' ≠ d, V.role d' = .directory → ∀ v, V'.Mapped d' v ↔ V.Mapped d' v
  held : ∀ q, V.role q = .held → V'.role q = .held

namespace Spares

theorem refl : Spares d V V :=
  ⟨fun _ _ => id, fun _ _ _ _ => .rfl, fun _ => id⟩

theorem trans (first : Spares d V V') (second : Spares d V' V'') : Spares d V V'' := by
  constructor
  · intro d' other old
    exact second.directory d' other (first.directory d' other old)
  · intro d' other old v
    rw [second.mapped d' other (first.directory d' other old), first.mapped d' other old]
  · intro q old
    exact second.held q (first.held q old)

/-- Pages change their roles only for the directory. -/
theorem of_roles (roles : ∀ q, V'.role q = V.role q ∨
    ((V.role q = .free ∨ q = d ∧ V.role q = .directory ∨ (V.role q).owner = some d) ∧
      ∀ d' ≠ d, (V'.role q).owner ≠ some d')) : Spares d V V' := by
  constructor
  · intro d' other old
    rcases roles d' with same | ⟨isFree | ⟨self, -⟩ | isOwner, -⟩
    · rw [same, old]
    · rw [old] at isFree
      cases isFree
    · exact absurd self other
    · rw [old] at isOwner
      cases isOwner
  · intro d' other old v
    constructor
    · rintro ⟨q, user⟩
      rcases roles q with same | ⟨-, notOther⟩
      · exact ⟨q, by rw [← same, user]⟩
      · exact absurd (by rw [user]; rfl) (notOther d' other)
    · rintro ⟨q, user⟩
      rcases roles q with same | ⟨isFree | ⟨-, isDirectory⟩ | isOwner, -⟩
      · exact ⟨q, by rw [same, user]⟩
      · rw [user] at isFree
        cases isFree
      · rw [user] at isDirectory
        cases isDirectory
      · rw [user] at isOwner
        cases isOwner
        exact absurd rfl other
  · intro q old
    rcases roles q with same | ⟨isFree | ⟨-, isDirectory⟩ | isOwner, -⟩
    · rw [same, old]
    · rw [old] at isFree
      cases isFree
    · rw [old] at isDirectory
      cases isDirectory
    · rw [old] at isOwner
      cases isOwner

theorem contiguous {d' : Nat} (spares : Spares d V V') (other : d' ≠ d)
    (image : Contiguous V d' sz) : Contiguous V' d' sz := by
  refine ⟨spares.directory d' other image.directory, image.low, ?_⟩
  intro v
  rw [spares.mapped d' other image.directory, image.mapped]

end Spares

theorem owner_ne {r : Role} (isOwner : r.owner = some d) : ∀ d' ≠ d, r.owner ≠ some d' := by
  intro d' other isOther
  rw [isOwner] at isOther
  cases isOther
  exact other rfl

theorem Extends.spares (ext : Extends d V V') : Spares d V V' := by
  apply Spares.of_roles
  intro q
  rcases ext q with same | ⟨isFree, isOwner⟩
  · exact .inl same
  · exact .inr ⟨.inl isFree, owner_ne isOwner⟩

theorem Freed.spares {hi : Nat} (freed : Freed d v hi V V') : Spares d V V' := by
  apply Spares.of_roles
  intro q
  rcases freed q with same | ⟨⟨v', -, -, user⟩, isFree⟩
  · exact .inl same
  · exact .inr ⟨.inr (.inr (by rw [user]; rfl)), by simp [isFree, Role.owner]⟩

theorem Lost.spares (lost : Lost V V') : Spares d V V' := by
  apply Spares.of_roles
  intro q
  rcases lost q with same | ⟨isFree, held⟩
  · exact .inl same
  · exact .inr ⟨.inl isFree, by simp [held, Role.owner]⟩

theorem Owned.spares (owned : Owned d V V') (directory : V'.role d = .directory) :
    Spares d V V' := by
  apply Spares.of_roles
  intro q
  by_cases self : q = d
  · subst self
    exact .inr ⟨.inl owned.wasFree, by simp [directory, Role.owner]⟩
  · rcases owned.roles q self with same | ⟨isFree, isOwner⟩
    · exact .inl same
    · exact .inr ⟨.inl isFree, owner_ne isOwner⟩

/-- Freeing a directory. -/
theorem Spares.of_erase (isDirectory : V.role d = .directory)
    (roles : ∀ q, V'.role q = V.erase d q) : Spares d V V' := by
  apply Spares.of_roles
  intro q
  rw [roles, View.erase]
  split
  · rename_i gone
    refine .inr ⟨.inr ?_, by simp [Role.owner]⟩
    rcases gone with rfl | isOwner
    · exact .inl ⟨rfl, isDirectory⟩
    · exact .inr isOwner
  · exact .inl rfl

/-! ## Growing and shrinking -/

theorem deallocuvm_contiguous (models : Models link s V) (image : Contiguous V d sz) :
    Wp (link.deallocuvm d sz newsz) (fun _ => False) (fun r s' => r = min sz newsz ∧
      ∃ V', Edited link d (fun v => pages newsz ≤ v ∧ v < pages sz) s V s' V' ∧
        Contiguous V' d (min sz newsz) ∧ Spares d V V') s := by
  apply (deallocuvm_spec models image.directory image.low).imp
  rintro r s' ⟨isMin, V', edited, freed, all⟩
  refine ⟨isMin, V', edited, ⟨?_, ?_, ?_⟩, freed.spares⟩
  · exact freed.isDirectory image.directory
  · have low := image.low
    omega
  · intro v
    have count : pages (min sz newsz) = min (pages sz) (pages newsz) := by
      unfold pages pgsize
      omega
    rw [count, Nat.lt_min, ← image.mapped]
    constructor
    · intro mapped
      have old : V.Mapped d v := by
        by_contra absent
        exact freed.not_mapped absent mapped
      refine ⟨old, ?_⟩
      by_contra above
      have inside := (image.mapped v).mp old
      -- the first page that is freed has a table, so that none is skipped
      obtain ⟨-, t, table, -⟩ := models.mapped_iff.mp
        ((image.mapped (pages newsz)).mpr (by omega))
      have has := (models.of_table t d _ table).2.2.1
      exact all (.inr has) v (by omega) inside mapped
    · rintro ⟨⟨q, user⟩, below⟩
      rcases freed q with same | ⟨⟨v', after, -, user'⟩, -⟩
      · exact ⟨q, by rw [same, user]⟩
      · rw [user] at user'
        cases user'
        omega

theorem NewTables.contiguous (added : NewTables d V V') (image : Contiguous V d sz) :
    Contiguous V' d sz := by
  refine ⟨added.extends.directory image.directory, image.low, ?_⟩
  intro v
  rw [← image.mapped]
  constructor
  · rintro ⟨q, user⟩
    rcases added q with same | ⟨-, i, table⟩
    · exact ⟨q, by rw [← same, user]⟩
    · rw [user] at table
      cases table
  · rintro ⟨q, user⟩
    exact ⟨q, added.extends.user q v user⟩

/-- What `sbrk` asks for. -/
def sbrkDemand (has : Nat → Bool) (sz : Nat) (n : Int) : List Request :=
  if n > 0 then allocDemand has sz ((sz + n) % 2 ^ 32).toNat else []

variable {proc : Proc} {fate : Option Request} {p : Nat}

theorem growproc_spec {n : Int} (models : Models link s V) (image : Contiguous V proc.pgdir proc.sz)
    (low : -2 ^ 31 ≤ n) (high : n < 2 ^ 31)
    (served : (s.supply V).firstRefused (sbrkDemand (s.tables proc.pgdir) proc.sz n) ≠
      some .userTable) (notAll : proc.sz + n ≠ 0 ∨ n ≥ 0) :
    Wp (link.growproc proc n) (fun _ => False) (fun r s' => ∃ V', Models link s' V' ∧
      Spares proc.pgdir V V' ∧
      match r with
      | none => Contiguous V' proc.pgdir proc.sz
      | some proc' => proc'.pgdir = proc.pgdir ∧ proc'.kstack = proc.kstack ∧
          Contiguous V' proc.pgdir proc'.sz) s := by
  have top := image.low
  unfold Link.growproc
  unfold sbrkDemand at served
  generalize isNew : ((proc.sz + n) % 2 ^ 32).toNat = newsz at served ⊢
  dsimp only
  split
  · rename_i positive
    rw [if_pos positive] at served
    have larger : proc.sz ≤ newsz := by
      unfold kernbase at top
      omega
    have vacant : V.Vacant proc.pgdir proc.sz newsz := by
      intro v after _ mapped
      rw [image.mapped] at mapped
      omega
    apply (allocuvm_grows models image.directory vacant served).seq
    rintro r s₁ ⟨V₁, enlarged, ⟨low', -, isMax, grown, -⟩ | ⟨-, rfl, added⟩⟩
    · rw [max_eq_right larger] at isMax
      subst isMax
      have image₁ := grown.contiguous models image low'.le larger
      rw [if_neg (by omega)]
      exact ⟨V₁, grown.models, enlarged.ext.spares, rfl, rfl, image₁⟩
    · rw [if_pos rfl]
      exact ⟨V₁, enlarged.models, enlarged.ext.spares, added.contiguous image⟩
  · split
    · rename_i negative
      apply (deallocuvm_contiguous models image).seq
      rintro r s₁ ⟨rfl, V₁, edited, image₁, spares⟩
      have models₁ := edited.models
      split
      · rename_i zero
        have nothing : proc.sz = 0 := by
          unfold kernbase at top
          omega
        rw [zero, ← nothing] at image₁
        exact ⟨V₁, models₁, spares, image₁⟩
      · exact ⟨V₁, models₁, spares, rfl, rfl, image₁⟩
    · exact ⟨V, models, Spares.refl, rfl, rfl, image⟩

/-! ## `fork` -/

/-- A page for a page table. -/
def Request.IsTable (r : Request) : Prop :=
  r = .kernelTable ∨ r = .userTable

/-- What a call leaves that has failed: the old roles, or lost pages if a page for a page
table was the first to be refused. -/
inductive Failure (V V' : View) (fate : Option Request) : Prop
  | undone : (∀ r, fate = some r → ¬ r.IsTable) → (∀ q, V'.role q = V.role q) →
      Failure V V' fate
  | lost {r : Request} : fate = some r → r.IsTable → Lost V V' →
      (∃ q, V.role q = .free ∧ V'.role q = .held) → Failure V V' fate

theorem Failed.ne_none (failed : Failed V V' fate) : fate ≠ none := by
  rintro rfl
  exact failed

theorem Failed.failure (failed : Failed V V' fate) : Failure V V' fate := by
  unfold Failed at failed
  split at failed
  · exact failed.elim
  · exact .lost rfl (.inr rfl) failed.1 failed.2
  · exact .lost rfl (.inl rfl) failed.1 failed.2
  · rename_i r notUser notKernel
    refine .undone ?_ failed
    intro r' isFate
    cases isFate
    rintro (rfl | rfl)
    · exact notKernel rfl
    · exact notUser rfl

/-- What `fork` asks for. -/
def Link.forkDemand (link : Link) (slot : Bool) (sz : Nat) : List Request :=
  if slot then .stack :: link.copyDemand sz else []

/-- A new process with an image of the size. -/
structure Forked (child : Proc) (sz : Nat) (V V' : View) : Prop where
  size : child.sz = sz
  stackFree : V.role child.kstack = .free
  stack : V'.role child.kstack = .held
  pgdirFree : V.role child.pgdir = .free
  directory : V'.role child.pgdir = .directory
  mapped : ∀ v, V'.Mapped child.pgdir v ↔ v < pages sz
  spares : Spares child.pgdir V V'

/-- The stack is given back after a failure. -/
theorem Failure.give {rest : List Nat} (failure : Failure (V.use p rest .held) V' fate)
    (wasFree : V.role p = .free) : Failure V (V'.give p) fate := by
  cases failure with
  | undone notTable roles =>
    refine .undone notTable ?_
    intro q
    by_cases same : q = p
    · rw [same, View.give_role_self, wasFree]
    · rw [View.give_role_of_ne same, roles, View.use_role_of_ne same]
  | lost isFate isTable lost leak =>
    refine .lost isFate isTable ?_ ?_
    · intro q
      by_cases same : q = p
      · rw [same, View.give_role_self, wasFree]
        exact .inl rfl
      · rw [View.give_role_of_ne same]
        have old := lost q
        rw [View.use_role_of_ne same] at old
        exact old
    · obtain ⟨q, isFree, held⟩ := leak
      have different : q ≠ p := by
        rintro rfl
        rw [View.use_role_self] at isFree
        cases isFree
      rw [View.use_role_of_ne different] at isFree
      exact ⟨q, isFree, by rw [View.give_role_of_ne different, held]⟩

theorem Failure.held (failure : Failure V V' fate) (old : V.role q = .held) :
    V'.role q = .held := by
  cases failure with
  | undone _ roles => rw [roles, old]
  | lost _ _ lost _ => exact lost.own (d := 0) |>.stays old (by simp) (by simp)

theorem Spares.of_eq (roles : ∀ q, V'.role q = V.role q) : Spares d V V' :=
  Spares.of_roles fun q => .inl (roles q)

theorem Failure.spares (failure : Failure V V' fate) : Spares d V V' := by
  cases failure with
  | undone _ roles => exact Spares.of_eq roles
  | lost _ _ lost _ => exact lost.spares

theorem ExecDone.spares (failed : ExecDone link V s s' V' fate none) : Spares d V V' := by
  cases failed with
  | undone _ roles _ _ => exact Spares.of_eq roles
  | lost _ lost _ _ _ => exact lost.spares

theorem fork_spec {slot : Bool} (models : Models link s V)
    (isDirectory : V.role proc.pgdir = .directory) :
    Wp (link.fork slot proc)
      (fun _ => ¬ (proc.sz ≤ kernbase ∧ ∀ v < pages proc.sz, V.Mapped proc.pgdir v))
      (fun r s' => ∃ V', Models link s' V' ∧
        match r with
        | none => Failure V V' ((s.supply V).firstRefused (link.forkDemand slot proc.sz)) ∧
            (slot = true → (s.supply V).firstRefused (link.forkDemand slot proc.sz) ≠ none)
        | some child => Forked child proc.sz V V') s := by
  unfold Link.fork
  cases slot with
  | false => exact ⟨V, models, .undone nofun fun _ => rfl, by simp⟩
  | true =>
    have demands : link.forkDemand true proc.sz = .stack :: link.copyDemand proc.sz := rfl
    rw [demands, Supply.firstRefused]
    simp only [Bool.not_true, Bool.false_eq_true, if_false]
    apply (kalloc_spec models).always
    rintro (_ | p) s₁ answer
    · rw [if_pos answer.1]
      refine ⟨V, answer.2.models, .undone ?_ fun _ => rfl, by simp⟩
      intro r isFate
      cases isFate
      rintro (isTable | isTable) <;> cases isTable
    · obtain ⟨-, rest, taken⟩ := answer
      have wasFree := taken.wasFree
      rw [taken.granted]
      simp only [Bool.false_eq_true, if_false]
      apply (copyuvm_spec taken.models (taken.isDirectory isDirectory)).bind
      · rintro _ notCopyable ⟨low, mapped⟩
        apply notCopyable
        refine ⟨low, ?_⟩
        intro v below
        obtain ⟨q, user⟩ := mapped v below
        refine ⟨q, ?_⟩
        rw [View.use_role_of_ne, user]
        rintro rfl
        rw [wasFree] at user
        cases user
      rintro (_ | d) s₂ ⟨V₂, preserved, result⟩
      · have failure := result.failure
        have models₂ := preserved.models
        have held : V₂.role p = .held := failure.held View.use_role_self
        have managed := models₂.managed p (by simp [held])
        apply (kfree_spec models₂ (.inl held) managed.1 managed.2).always
        rintro _ s' ⟨models', -, -⟩
        rw [← taken.supply]
        exact ⟨V₂.give p, models', failure.give wasFree, fun _ granted => result.ne_none granted⟩
      · obtain ⟨-, built⟩ := result
        have notStack : d ≠ p := by
          rintro rfl
          have isFree := built.wasFree
          rw [View.use_role_self] at isFree
          cases isFree
        have pgdirFree := built.wasFree
        rw [View.use_role_of_ne notStack] at pgdirFree
        have spares := built.owned.spares built.directory
        refine ⟨V₂, preserved.models, rfl, wasFree, ?_, pgdirFree, built.directory,
          built.mapped, ?_⟩
        · exact spares.held p View.use_role_self
        · exact taken.lost.spares.trans spares

/-! ## `userinit` and `wait` -/

/-- What `userinit` asks for. -/
def Link.userinitDemand (link : Link) : List Request :=
  .stack :: (link.setupDemand ++ demand [.data] kernelTables 0 1)

theorem inituvm_spec {init : List UInt8} (space : Space link d 0 s V)
    (served : (s.supply V).firstRefused (demand [.data] kernelTables 0 1) ≠ some .userTable) :
    Wp (inituvm d init)
      (fun _ => (s.supply V).firstRefused (demand [.data] kernelTables 0 1) ≠ none ∨
        pgsize ≤ init.length)
      (fun _ s' => ∃ V', Models link s' V' ∧ Contiguous V' d pgsize ∧ Spares d V V' ∧
        s'.supply V' = (s.supply V).after (demand [.data] kernelTables 0 1).length) s := by
  have empty : pages 0 = 0 := by decide
  have one : pages pgsize = 1 := by decide
  have isTables : s.tables d = kernelTables := by
    rw [space.tables]
    funext i
    simp [spaceTables, empty]
  unfold inituvm
  split
  · rename_i long
    exact .inr long
  · apply (kalloc_spec space.models).always
    rintro (_ | p) s₁ answer
    · apply Or.inl
      simp [demand, Supply.firstRefused, answer.1]
    · obtain ⟨-, rest, taken⟩ := answer
      simp only [wp_bind, wp_modify]
      have map := (taken.setPage fun _ => 0).mappages_spec space.models space.directory
        (show 0 < 2 ^ 19 by decide) (show pteW ||| pteU < pgsize by decide)
      rw [Nat.zero_mul] at map
      apply map.mono
      · rintro _ ⟨-, present⟩
        have mapped := space.models.mapped_iff.mpr ⟨by decide, present⟩
        rw [space.mapped, empty] at mapped
        omega
      rintro _ s₂ (⟨refused, -⟩ | ⟨-, -, V₂, grown, user, -⟩)
      · rw [isTables] at refused
        exact absurd refused served
      · have image : Contiguous V₂ d pgsize :=
          Grown.contiguous space.models space.toContiguous (by decide) (Nat.zero_le _)
            (by rw [empty, one]; exact grown)
        exact ⟨V₂, grown.models.setPage (View.Plain.of_user user) _, image,
          grown.extends.spares, isTables ▸ grown.supply⟩

theorem userinit_spec {initcode : List UInt8} (models : Models link s V)
    (served : (s.supply V).firstRefused link.userinitDemand ≠ some .userTable) :
    Wp (link.userinit initcode)
      (fun _ => (s.supply V).firstRefused link.userinitDemand ≠ none ∨ pgsize ≤ initcode.length)
      (fun proc s' => ∃ V', Models link s' V' ∧ proc.sz = pgsize ∧
        Contiguous V' proc.pgdir proc.sz ∧ V'.role proc.kstack = .held ∧
        s'.supply V' = (s.supply V).after link.userinitDemand.length) s := by
  have total : link.userinitDemand.length =
      1 + (link.setupDemand.length + (demand [.data] kernelTables 0 1).length) := by
    rw [Link.userinitDemand, List.length_cons, List.length_append]
    omega
  rw [total]
  unfold Link.userinit
  rw [Link.userinitDemand, Supply.firstRefused] at *
  apply (kalloc_spec models).always
  rintro (_ | p) s₁ answer
  · rw [if_pos answer.1]
    exact .inl (by simp)
  · obtain ⟨-, rest, taken⟩ := answer
    have models₁ := taken.models
    simp only [taken.granted, ← taken.supply, Bool.false_eq_true, if_false] at served ⊢
    rw [Supply.firstRefused_append] at served ⊢
    apply (setupkvm_spec models₁).always
    rintro (_ | d) s₂ result
    · obtain ⟨V', -, -, ⟨refused, -⟩ | ⟨refused, -⟩⟩ := result
      · rw [refused]
        exact .inl (by simp)
      · rw [refused]
        exact .inl (by simp)
    · obtain ⟨granted₂, V₂, new⟩ := result
      rw [granted₂, Option.none_or, ← new.supply] at served ⊢
      have held : V₂.role p = .held := (new.owned.keeps (by simp)).trans View.use_role_self
      apply (inituvm_spec (Space.of_new new models₁) served).seq
      rintro _ s' ⟨V', models', image, spares, supply⟩
      refine ⟨V', models', rfl, image, spares.held p held, ?_⟩
      rw [supply, new.supply, taken.supply, Supply.after_after, Supply.after_after]

/-- The memory of a zombie is freed. -/
theorem reap_spec (models : Models link s V) (isDirectory : V.role proc.pgdir = .directory)
    (held : V.role proc.kstack = .held) :
    Wp (link.reap proc) (fun _ => False) (fun _ s' => ∃ V', Models link s' V' ∧
      Spares proc.pgdir (V.give proc.kstack) V') s := by
  unfold Link.reap
  have managed := models.managed proc.kstack (by simp [held])
  apply (kfree_spec models (.inl held) managed.1 managed.2).seq
  rintro _ s₁ ⟨models₁, -, -⟩
  have isDirectory₁ : (V.give proc.kstack).role proc.pgdir = .directory := by
    rw [View.give_role_of_ne, isDirectory]
    intro same
    rw [same, held] at isDirectory
    cases isDirectory
  apply (freevm_spec models₁ isDirectory₁).imp
  rintro _ s' ⟨V', edited, roles⟩
  exact ⟨V', edited.models, Spares.of_erase isDirectory₁ roles⟩

theorem Contiguous.give (image : Contiguous V d sz) (held : V.role p = .held) :
    Contiguous (V.give p) d sz := by
  have other : ∀ {q}, V.role q ≠ .held → (V.give p).role q = V.role q := by
    intro q notHeld
    apply View.give_role_of_ne
    rintro rfl
    exact notHeld held
  refine ⟨?_, image.low, ?_⟩
  · rw [other (by simp [image.directory]), image.directory]
  · intro v
    rw [← image.mapped]
    constructor
    · rintro ⟨q, user⟩
      by_cases same : q = p
      · rw [same, View.give_role_self] at user
        cases user
      · rw [View.give_role_of_ne same] at user
        exact ⟨q, user⟩
    · rintro ⟨q, user⟩
      exact ⟨q, by rw [other (by simp [user]), user]⟩

theorem Replaced.spares {old : Nat} (replaced : Replaced old d sz V V')
    (isOld : V.role old = .directory) : Spares old V V' := by
  have notNew : ∀ {q}, V.role q ≠ .free → q ≠ d := by
    rintro q notFree rfl
    exact notFree replaced.wasFree
  have kept : ∀ {q}, V.role q ≠ .free → q ≠ old → (V.role q).owner ≠ some old →
      V'.role q = V.role q := by
    intro q notFree notOld notOwner
    rcases replaced.roles q (notNew notFree) with ⟨-, isFree⟩ | same
    · exact absurd isFree notFree
    · rw [same, View.erase, if_neg (by simp [notOld, notOwner])]
  constructor
  · intro d' other isDirectory
    rw [kept (by simp [isDirectory]) other (by simp [isDirectory, Role.owner]), isDirectory]
  · intro d' other isDirectory v
    constructor
    · rintro ⟨q, user⟩
      have notSelf : q ≠ d := by
        rintro rfl
        rw [replaced.image.directory] at user
        cases user
      rcases replaced.roles q notSelf with ⟨isOwner, -⟩ | same
      · rw [user] at isOwner
        cases isOwner
        exact absurd rfl (notNew (by simp [isDirectory]))
      · rw [user, View.erase] at same
        split at same
        · cases same
        · exact ⟨q, same.symm⟩
    · rintro ⟨q, user⟩
      have notOld : q ≠ old := by
        rintro rfl
        rw [isOld] at user
        cases user
      exact ⟨q, by rw [kept (by simp [user]) notOld (by simp [user, Role.owner, other]), user]⟩
  · intro q held
    have notOld : q ≠ old := by
      rintro rfl
      rw [isOld] at held
      cases held
    rw [kept (by simp [held]) notOld (by simp [held, Role.owner]), held]

end Xv6.Vm
