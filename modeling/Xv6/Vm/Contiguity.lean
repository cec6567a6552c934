import Xv6.Vm.Copying
import Xv6.Vm.Processes

/-!
# Contiguous process images

Any sequence of `userinit`, `fork`, `exec`, `sbrk` and reaped zombies, over a table of
processes.  The page directory of a process has the pages of `[0, PGROUNDUP(sz))` and no
others, so that `fork` finds every page that it copies, unless `sbrk` gives up the whole
image, a page for a user page table has been refused or a file is not safe to execute.
-/

namespace Xv6.Vm

open Stateful

/-- The machine and the memory of the processes in the table. -/
structure Procs where
  machine : Machine
  procs : Nat → Option Proc

/-- The calls that change the memory of processes. -/
inductive Call
  | userinit (i : Nat) (initcode : List UInt8)
  | fork (slot : Bool) (i j : Nat)
  | exec (i nullWord : Nat) (file : File) (argv : List (List UInt8))
  | sbrk (i : Nat) (n : Int)
  | wait (i : Nat)

namespace Procs

/-- The table after a call that may have made or changed process `i`. -/
def commit (p : Procs) (s : Machine) (i : Nat) : Option Proc → Procs
  | none => { p with machine := s }
  | some proc => ⟨s, Function.update p.procs i (some proc)⟩

variable (link : Link)

/-- A call that returns. -/
inductive Step (p : Procs) : Call → Procs → Prop
  | userinit {i : Nat} {initcode : List UInt8} {proc : Proc} {s : Machine} :
      (∀ j, p.procs j = none) → (link.userinit initcode).run p.machine = .ok (proc, s) →
      Step p (.userinit i initcode) (p.commit s i (some proc))
  | fork {slot : Bool} {i j : Nat} {proc : Proc} {r : Option Proc} {s : Machine} :
      p.procs i = some proc → p.procs j = none →
      (link.fork slot proc).run p.machine = .ok (r, s) →
      Step p (.fork slot i j) (p.commit s j r)
  | exec {i nullWord : Nat} {file : File} {argv : List (List UInt8)} {proc : Proc}
      {r : Option Proc} {s : Machine} : p.procs i = some proc →
      (link.exec nullWord file argv proc).run p.machine = .ok (r, s) →
      Step p (.exec i nullWord file argv) (p.commit s i r)
  | sbrk {i : Nat} {n : Int} {proc : Proc} {r : Option Proc} {s : Machine} :
      p.procs i = some proc → -2 ^ 31 ≤ n → n < 2 ^ 31 →
      (link.growproc proc n).run p.machine = .ok (r, s) →
      Step p (.sbrk i n) (p.commit s i r)
  | wait {i : Nat} {proc : Proc} {s : Machine} : p.procs i = some proc →
      (link.reap proc).run p.machine = .ok ((), s) →
      Step p (.wait i) ⟨s, Function.update p.procs i none⟩

/-- A state of the memory system before there are processes. -/
def Start (p : Procs) : Prop :=
  (∃ mem refuse f, Relation.ReflTransGen (Frames.Step link) (Frames.initial mem refuse) f ∧
    p.machine = f.machine) ∧ ∀ i, p.procs i = none

/-- The condition on a call, with a supply of pages: no page for a user page table is the
first to be refused, `sbrk` leaves something of the image, and the file is safe. -/
def Fair (p : Procs) (k : Supply) : Call → Prop
  | .userinit _ _ => k.firstRefused link.userinitDemand ≠ some .userTable
  | .fork _ _ _ => True
  | .exec _ nullWord file argv => k.firstRefused (link.execDemand file) ≠ some .userTable ∧
      file.TakesArgs nullWord argv ∧ link.Loadable file k
  | .sbrk i n => ∀ proc, p.procs i = some proc →
      k.firstRefused (sbrkDemand (p.machine.tables proc.pgdir) proc.sz n) ≠ some .userTable ∧
        (proc.sz + n ≠ 0 ∨ n ≥ 0)
  | .wait _ => True

/-- A call that meets the condition. -/
def FairStep (p p' : Procs) : Prop :=
  ∃ call k, p.machine.HasSupply k ∧ Fair link p k call ∧ Step link p call p'

/-- The invariant. -/
structure Inv (p : Procs) (V : View) : Prop where
  models : Models link p.machine V
  image : ∀ i proc, p.procs i = some proc → Contiguous V proc.pgdir proc.sz
  stack : ∀ i proc, p.procs i = some proc → V.role proc.kstack = .held
  apart : ∀ i j proc proc', i ≠ j → p.procs i = some proc → p.procs j = some proc' →
    proc.pgdir ≠ proc'.pgdir ∧ proc.kstack ≠ proc'.kstack

end Procs

variable {link : Link} {s : Machine} {V V' : View} {i j : Nat} {proc proc' : Proc}

namespace Procs

variable {p p' : Procs}

theorem commit_some_iff {q : Proc} : (p.commit s i (some proc)).procs j = some q ↔
    j = i ∧ q = proc ∨ j ≠ i ∧ p.procs j = some q := by
  unfold commit
  by_cases same : j = i
  · subst same
    simp [eq_comm]
  · simp [same]

namespace Inv

theorem of_none (models : Models link p.machine V) (none : ∀ i, p.procs i = none) :
    Inv link p V := by
  constructor
  · exact models
  · intro i proc isProc
    rw [none] at isProc
    cases isProc
  · intro i proc isProc
    rw [none] at isProc
    cases isProc
  · intro i j proc proc' _ isProc
    rw [none] at isProc
    cases isProc

variable (inv : Inv link p V)
include inv

/-- A process is entered into the table. -/
theorem put (models : Models link s V') (image : Contiguous V' proc.pgdir proc.sz)
    (stack : V'.role proc.kstack = .held)
    (others : ∀ j q, j ≠ i → p.procs j = some q → Contiguous V' q.pgdir q.sz ∧
      V'.role q.kstack = .held ∧ q.pgdir ≠ proc.pgdir ∧ q.kstack ≠ proc.kstack) :
    Inv link (p.commit s i (some proc)) V' := by
  constructor
  · exact models
  · intro j q isNow
    rcases commit_some_iff.mp isNow with ⟨-, rfl⟩ | ⟨different, isOther⟩
    · exact image
    · exact (others j q different isOther).1
  · intro j q isNow
    rcases commit_some_iff.mp isNow with ⟨-, rfl⟩ | ⟨different, isOther⟩
    · exact stack
    · exact (others j q different isOther).2.1
  · intro j j' q q' different isNow isNow'
    rcases commit_some_iff.mp isNow with ⟨rfl, rfl⟩ | ⟨notSelf, isOther⟩
    · rcases commit_some_iff.mp isNow' with ⟨rfl, -⟩ | ⟨notSelf', isOther'⟩
      · exact absurd rfl different
      · obtain ⟨-, -, notDir, notStack⟩ := others j' q' notSelf' isOther'
        exact ⟨notDir.symm, notStack.symm⟩
    · rcases commit_some_iff.mp isNow' with ⟨rfl, rfl⟩ | ⟨-, isOther'⟩
      · exact (others j q notSelf isOther).2.2
      · exact inv.apart j j' q q' different isOther isOther'

/-- A call for one process that leaves the others alone. -/
theorem update (isProc : p.procs i = some proc) (models : Models link s V')
    (spares : Spares proc.pgdir V V') (image : Contiguous V' proc'.pgdir proc'.sz)
    (sameStack : proc'.kstack = proc.kstack)
    (newDir : proc'.pgdir = proc.pgdir ∨ V.role proc'.pgdir = .free) :
    Inv link (p.commit s i (some proc')) V' := by
  apply inv.put models image
  · rw [sameStack]
    exact spares.held _ (inv.stack i proc isProc)
  · intro j q different isOther
    obtain ⟨notDir, notStack⟩ := inv.apart j i q proc different isOther isProc
    have old := inv.image j q isOther
    refine ⟨spares.contiguous notDir old, spares.held _ (inv.stack j q isOther), ?_, ?_⟩
    · rcases newDir with same | isFree
      · rw [same]
        exact notDir
      · intro same
        have directory := old.directory
        rw [same, isFree] at directory
        cases directory
    · rw [sameStack]
      exact notStack

/-- A new process. -/
theorem fork (models : Models link s V') (forked : Forked proc' proc.sz V V')
    (low : proc.sz ≤ kernbase) : Inv link (p.commit s j (some proc')) V' := by
  have size := forked.size
  apply inv.put models
  · refine ⟨forked.directory, by omega, ?_⟩
    rw [size]
    exact forked.mapped
  · exact forked.stack
  · intro i q _ isOther
    have old := inv.image i q isOther
    have stack := inv.stack i q isOther
    have notDir : q.pgdir ≠ proc'.pgdir := by
      intro same
      have directory := old.directory
      rw [same, forked.pgdirFree] at directory
      cases directory
    refine ⟨forked.spares.contiguous notDir old, forked.spares.held _ stack, notDir, ?_⟩
    intro same
    rw [same, forked.stackFree] at stack
    cases stack

/-- A call that fails and keeps all images. -/
theorem keep (models : Models link s V')
    (image : ∀ i proc, p.procs i = some proc → Contiguous V' proc.pgdir proc.sz)
    (held : ∀ q, V.role q = .held → V'.role q = .held) : Inv link (p.commit s j none) V' := by
  constructor
  · exact models
  · exact image
  · intro i proc isProc
    exact held _ (inv.stack i proc isProc)
  · exact inv.apart

/-- A process is gone. -/
theorem remove (isProc : p.procs i = some proc) (models : Models link s V')
    (spares : Spares proc.pgdir (V.give proc.kstack) V') :
    Inv link ⟨s, Function.update p.procs i none⟩ V' := by
  have held := inv.stack i proc isProc
  have isOther : ∀ {j q}, (Function.update p.procs i none) j = some q →
      j ≠ i ∧ p.procs j = some q := by
    intro j q isNow
    by_cases same : j = i
    · subst same
      rw [Function.update_self] at isNow
      cases isNow
    · rw [Function.update_of_ne same] at isNow
      exact ⟨same, isNow⟩
  constructor
  · exact models
  · intro j q isNow
    obtain ⟨different, isNow⟩ := isOther isNow
    apply spares.contiguous (inv.apart j i q proc different isNow isProc).1
    exact (inv.image j q isNow).give held
  · intro j q isNow
    obtain ⟨different, isNow⟩ := isOther isNow
    apply spares.held
    rw [View.give_role_of_ne (inv.apart j i q proc different isNow isProc).2]
    exact inv.stack j q isNow
  · intro j j' q q' different isNow isNow'
    exact inv.apart j j' q q' different (isOther isNow).2 (isOther isNow').2

theorem spared (models : Models link s V') (spares : ∀ d, Spares d V V') :
    Inv link (p.commit s j none) V' := by
  apply inv.keep models
  · intro i proc isProc
    exact (spares (proc.pgdir + 1)).contiguous (by omega) (inv.image i proc isProc)
  · exact (spares 0).held

end Inv

/-- One call keeps the invariant. -/
theorem Inv.step (inv : Inv link p V) (edge : FairStep link p p') : ∃ V', Inv link p' V' := by
  obtain ⟨call, k, supply, fair, edge⟩ := edge
  have isSupply := supply.eq inv.models
  subst isSupply
  cases edge with
  | userinit none done =>
    obtain ⟨V', models, -, image, stack, -⟩ := (userinit_spec inv.models fair).ok done
    refine ⟨V', inv.put models image stack ?_⟩
    intro j q _ isOther
    rw [none] at isOther
    cases isOther
  | @fork _ _ _ proc r _ isProc _ done =>
    have image := inv.image _ _ isProc
    obtain ⟨V', models, result⟩ := (fork_spec inv.models image.directory).ok done
    cases r with
    | none => exact ⟨V', inv.spared models fun _ => result.1.spares⟩
    | some child => exact ⟨V', inv.fork models result image.low⟩
  | @exec _ _ _ _ proc r _ isProc done =>
    have isDirectory := (inv.image _ _ isProc).directory
    obtain ⟨served, args, loadable⟩ := fair
    rcases (exec_spec inv.models isDirectory served args).ok done with
      ⟨-, V', models, ending⟩ | ⟨notLoadable, -⟩
    · cases ending with
      | replaced granted replaced landed =>
        exact ⟨V', inv.update isProc models (replaced.spares isDirectory) replaced.image rfl
          (.inr replaced.wasFree)⟩
      | failed failed => exact ⟨V', inv.spared models fun _ => failed.spares⟩
    · exact absurd loadable notLoadable
  | @sbrk i n proc r _ isProc low high done =>
    have image := inv.image _ _ isProc
    obtain ⟨served, notAll⟩ := fair proc isProc
    obtain ⟨V', models, spares, result⟩ :=
      (growproc_spec inv.models image low high served notAll).ok done
    cases r with
    | none =>
      refine ⟨V', inv.keep models ?_ spares.held⟩
      intro j q isOther
      by_cases same : j = i
      · subst same
        rw [isProc] at isOther
        cases isOther
        exact result
      · exact spares.contiguous (inv.apart j i q proc same isOther isProc).1
          (inv.image j q isOther)
    | some proc' =>
      obtain ⟨sameDir, sameStack, image'⟩ := result
      rw [← sameDir] at image'
      exact ⟨V', inv.update isProc models spares image' sameStack (.inl sameDir)⟩
  | wait isProc done =>
    have isDirectory := (inv.image _ _ isProc).directory
    obtain ⟨V', models, spares⟩ :=
      (reap_spec inv.models isDirectory (inv.stack _ _ isProc)).ok done
    exact ⟨V', inv.remove isProc models spares⟩

variable {start : Procs}

theorem Inv.of_run (isStart : Start link start)
    (run : Relation.ReflTransGen (FairStep link) start p) : ∃ V, Inv link p V := by
  induction run with
  | refl =>
    obtain ⟨⟨mem, refuse, f, run, same⟩, none⟩ := isStart
    obtain ⟨V, inv⟩ := Frames.Inv.of_run run
    exact ⟨V, Inv.of_none (by rw [same]; exact inv.models) none⟩
  | tail _ edge ih =>
    obtain ⟨V, inv⟩ := ih
    exact inv.step edge

/-- The directory of the process has present entries for the pages of
`[0, PGROUNDUP(sz))` and for no others in the user half. -/
def ImageContiguous (p : Procs) (proc : Proc) : Prop :=
  ∀ v < 2 ^ 19, (∃ q, p.machine.Maps proc.pgdir v q) ↔ v * pgsize < pgroundup proc.sz

theorem Inv.imageContiguous (inv : Inv link p V) (isProc : p.procs i = some proc) :
    p.ImageContiguous proc := by
  have image := inv.image i proc isProc
  intro v low
  have mapped := inv.models.maps_iff image.directory (v := v)
  rw [image.mapped] at mapped
  rw [pgroundup_eq image.low]
  constructor
  · intro maps
    exact Nat.mul_lt_mul_of_pos_right (mapped.mp ⟨low, maps⟩) (by decide)
  · intro inside
    exact (mapped.mpr (Nat.lt_of_mul_lt_mul_right inside)).2

/-- In a run whose calls all meet the condition every process image is contiguous, and `fork`
returns from every process. -/
theorem image_contiguous (isStart : Start link start)
    (run : Relation.ReflTransGen (FairStep link) start p) (isProc : p.procs i = some proc) :
    p.ImageContiguous proc ∧
      ∀ slot, ∃ r s, (link.fork slot proc).run p.machine = .ok (r, s) := by
  obtain ⟨V, inv⟩ := Inv.of_run isStart run
  refine ⟨inv.imageContiguous isProc, ?_⟩
  intro slot
  have image := inv.image i proc isProc
  have spec : Wp (link.fork slot proc) _ _ p.machine := fork_spec inv.models image.directory
  have copyable : proc.sz ≤ kernbase ∧ ∀ v < pages proc.sz, V.Mapped proc.pgdir v :=
    ⟨image.low, fun v => (image.mapped v).mpr⟩
  obtain ⟨r, s, done, -⟩ := spec.returns_of fun _ stopped => stopped copyable
  exact ⟨r, s, done⟩

/-! ## Giving up the whole image -/

/-- The first process is made. -/
theorem exists_process (link : Link) (room : link.firstPage ≤ 332)
    (small : link.setupDemand.length ≤ 72) : ∃ start p proc V,
    Start link start ∧ FairStep link start p ∧ p.procs 0 = some proc ∧ p.procs 1 = none ∧
      proc.sz = pgsize ∧ Models link p.machine V ∧ Contiguous V proc.pgdir proc.sz ∧
      p.machine.refuse = (fun _ => false) ∧ 600 ≤ V.free.length := by
  obtain ⟨f, V, run, inv, never, -, enough⟩ :=
    Frames.exists_memory link room fun _ => false
  have two : (demand [.data] kernelTables 0 1).length = 2 := by decide
  have few : link.userinitDemand.length ≤ 75 := by
    rw [Link.userinitDemand, List.length_cons, List.length_append, two]
    omega
  have granted : (f.machine.supply V).firstRefused link.userinitDemand = none := by
    rw [Supply.firstRefused_eq_none_iff never]
    change _ ≤ V.free.length
    omega
  have spec : Wp (link.userinit []) _ _ f.machine :=
    userinit_spec inv.models (by simp [granted])
  obtain ⟨proc, s, done, V', models, size, image, -, supply⟩ := spec.returns_of (by
    rintro _ (refused | long)
    · exact refused granted
    · exact absurd long (by decide))
  have left := congrArg Supply.free supply
  change V'.free.length = V.free.length - _ at left
  have start : Start link ⟨f.machine, fun _ => none⟩ := ⟨⟨_, _, f, run, rfl⟩, fun _ => rfl⟩
  refine ⟨_, _, proc, V', start, ⟨.userinit 0 [], _, inv.models.hasSupply, ?_,
    .userinit (fun _ => rfl) done⟩, commit_some_iff.mpr (.inl ⟨rfl, rfl⟩), rfl, size, models,
    image, (congrArg Supply.refuse supply).trans never, by omega⟩
  change _ ≠ _
  simp [granted]

/-- The first process forks. -/
theorem exists_fork : ∃ start p proc child, Start Frames.sampleLink start ∧
    Relation.ReflTransGen (FairStep Frames.sampleLink) start p ∧
    p.procs 0 = some proc ∧ p.procs 1 = some child := by
  obtain ⟨start, p, proc, V, isStart, edge, isProc, unused, size, models, image, never, enough⟩ :=
    exists_process Frames.sampleLink (by decide) Frames.length_setupDemand_le
  have granted : (p.machine.supply V).firstRefused
      (Frames.sampleLink.forkDemand true proc.sz) = none := by
    have setup := Frames.length_setupDemand_le
    have two : (demand [.data] kernelTables 0 (pages pgsize)).length = 2 := by decide
    rw [Supply.firstRefused_eq_none_iff never, size, Link.forkDemand, if_pos rfl, List.length_cons,
      Link.copyDemand, List.length_append, two]
    change _ ≤ V.free.length
    omega
  have spec : Wp (Frames.sampleLink.fork true proc) _ _ p.machine :=
    fork_spec models image.directory
  obtain ⟨r, s, done, V', -, result⟩ := spec.returns_of fun _ stopped =>
    stopped ⟨image.low, fun v => (image.mapped v).mpr⟩
  cases r with
  | none => exact absurd granted (result.2 rfl)
  | some child =>
    have edge' : Step _ p (.fork true 0 1) (p.commit s 1 (some child)) := .fork isProc unused done
    exact ⟨start, _, proc, child, isStart,
      (Relation.ReflTransGen.single edge).tail ⟨.fork true 0 1, _, models.hasSupply,
        trivial, edge'⟩,
      commit_some_iff.mpr (.inr ⟨by decide, isProc⟩), commit_some_iff.mpr (.inl ⟨rfl, rfl⟩)⟩

/-- `sbrk` frees the whole image and fails. -/
theorem growproc_all (models : Models link s V) (image : Contiguous V proc.pgdir proc.sz)
    (size : proc.sz = pgsize) :
    Wp (link.growproc proc (-pgsize)) (fun _ => False) (fun r s' => r = none ∧
      ∃ V', Models link s' V' ∧ Contiguous V' proc.pgdir 0) s := by
  have newsz : ((proc.sz + -(pgsize : Int)) % 2 ^ 32).toNat = 0 := by
    rw [size]
    decide
  unfold Link.growproc
  dsimp only
  rw [newsz, if_neg (by decide), if_pos (by decide)]
  apply (deallocuvm_contiguous models image).seq
  rintro _ s' ⟨rfl, V', edited, image', -⟩
  rw [Nat.min_zero] at image' ⊢
  exact ⟨rfl, V', edited.models, image'⟩

theorem exists_empty (link : Link) (room : link.firstPage ≤ 332)
    (small : link.setupDemand.length ≤ 72) : ∃ start p proc, Start link start ∧
      Relation.ReflTransGen (fun p p' => ∃ call, Step link p call p') start p ∧
      p.procs 0 = some proc ∧ ¬ p.ImageContiguous proc := by
  obtain ⟨start, p, proc, -, isStart, edge, isProc, -, size, -⟩ := exists_process link room small
  obtain ⟨V, inv⟩ := Inv.of_run isStart (Relation.ReflTransGen.single edge)
  have image := inv.image 0 proc isProc
  obtain ⟨r, s, done, rfl, V', models', image'⟩ := (growproc_all inv.models image size).returns
  obtain ⟨call, k, -, -, edge⟩ := edge
  have edge' : Step link p (.sbrk 0 (-pgsize)) (p.commit s 0 none) :=
    .sbrk isProc (by decide) (by decide) done
  refine ⟨start, _, proc, isStart, (Relation.ReflTransGen.single ⟨call, edge⟩).tail ⟨_, edge'⟩,
    isProc, ?_⟩
  intro contiguous
  have maps := (contiguous 0 (by decide)).mpr (by rw [size]; decide)
  have mapped := (models'.maps_iff image'.directory).mp ⟨by decide, maps⟩
  rw [image'.mapped] at mapped
  exact absurd mapped (by decide)

/-- After `sbrk(-sz)` the process has a size but no pages. -/
theorem sbrk_all_empties : ∃ start p proc, Start Frames.sampleLink start ∧
    Relation.ReflTransGen (fun p p' => ∃ call, Step Frames.sampleLink p call p') start p ∧
      p.procs 0 = some proc ∧ ¬ p.ImageContiguous proc :=
  exists_empty Frames.sampleLink (by decide) Frames.length_setupDemand_le

theorem image_contiguous_fork : ∃ start p proc child, Start Frames.sampleLink start ∧
    Relation.ReflTransGen (FairStep Frames.sampleLink) start p ∧ p.procs 0 = some proc ∧
    p.procs 1 = some child ∧ p.ImageContiguous proc ∧ p.ImageContiguous child := by
  obtain ⟨start, p, proc, child, isStart, run, isProc, isChild⟩ := exists_fork
  exact ⟨start, p, proc, child, isStart, run, isProc, isChild,
    (image_contiguous isStart run isProc).1, (image_contiguous isStart run isChild).1⟩

/-! ## Isolation -/

/-- Process `i` has only reached its own memory: the page tables and the kernel stacks of all
processes are as before, and so is the memory of the others. -/
structure Confined (p : Procs) (i : Nat) (s : Machine) : Prop where
  tables : ∀ j q, p.procs j = some q → ∀ va < 2 ^ 32,
    s.translate q.pgdir va = p.machine.translate q.pgdir va
  stack : ∀ j q, p.procs j = some q → s.mem q.kstack = p.machine.mem q.kstack
  memory : ∀ j q, j ≠ i → p.procs j = some q → ∀ va < kernbase,
    s.load q.pgdir va = p.machine.load q.pgdir va

/-- In such a run a store by a process to its user half reaches its own memory only. -/
theorem store_confined (isStart : Start link start)
    (run : Relation.ReflTransGen (FairStep link) start p) {va : Nat}
    (isProc : p.procs i = some proc) (low : va < kernbase) (value : UInt8) :
    p.Confined i (p.machine.store proc.pgdir va value) := by
  obtain ⟨V, inv⟩ := Inv.of_run isStart run
  have isDirectory := (inv.image i proc isProc).directory
  constructor
  · intro j q isOther va' high
    have below : va' / pgsize < 2 ^ 20 := by
      unfold pgsize
      omega
    unfold Machine.translate
    rw [inv.models.store_entry isDirectory (inv.image j q isOther).directory low value below]
  · intro j q isOther
    exact inv.models.store_mem isDirectory low value (by simp [inv.stack j q isOther])
  · intro j q different isOther va' low'
    exact (inv.models.isolated isDirectory (inv.image j q isOther).directory
      (inv.apart j i q proc different isOther isProc).1.symm va low value va' low').2

/-- The child writes to its first page. -/
theorem store_confined_fork : ∃ start p proc child, Start Frames.sampleLink start ∧
    Relation.ReflTransGen (FairStep Frames.sampleLink) start p ∧ p.procs 0 = some proc ∧
    p.procs 1 = some child ∧ p.Confined 1 (p.machine.store child.pgdir 0 7) := by
  obtain ⟨start, p, proc, child, isStart, run, isProc, isChild⟩ := exists_fork
  exact ⟨start, p, proc, child, isStart, run, isProc, isChild,
    store_confined isStart run isChild (by decide) 7⟩

end Procs

end Xv6.Vm
