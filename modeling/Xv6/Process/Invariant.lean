import Xv6.Process.Kernel
import Xv6.Process.Placement

/-!
# The scheduler invariant

`Inv k l` extends the placement of the slots to the whole machine: a running
slot is the current process of exactly one CPU, a `fork` in progress owns its
new slot alone, and pids are unique.

The steps fall into a few kinds.  Most change no state except that they wake
sleepers (`Inv.quiet`); a process enters a CPU (`Inv.enter`) or leaves it
(`Inv.leave`); the others move one slot along the life of a process.
-/

namespace Xv6.Process

open Function

namespace Proc

theorem woken_state (chan : Option Chan) (q : Proc) :
    (q.woken chan).state = q.state ∨ q.state = .sleeping ∧ (q.woken chan).state = .runnable := by
  unfold woken
  split
  · rename_i asleep
    exact .inr ⟨asleep.1, rfl⟩
  · exact .inl rfl

@[simp]
theorem woken_pid (chan : Option Chan) (q : Proc) : (q.woken chan).pid = q.pid := by
  unfold woken
  split <;> rfl

@[simp]
theorem adopted_pid (self initproc : Slot) (q : Proc) : (q.adopted self initproc).pid = q.pid := by
  unfold adopted
  split <;> rfl

@[simp]
theorem adopted_state (self initproc : Slot) (q : Proc) :
    (q.adopted self initproc).state = q.state := by
  unfold adopted
  split <;> rfl

end Proc

namespace PTable

@[simp]
theorem exited_pid (t : PTable) (self initproc q : Slot) :
    (t.exited self initproc q).pid = (t.proc q).pid := by
  unfold exited
  by_cases zombie : ∃ r, (t.proc r).parent = some self ∧ (t.proc r).state = .zombie <;>
    by_cases same : q = self <;> simp [zombie, same]

@[simp]
theorem exited_state_self (t : PTable) (self initproc : Slot) :
    (t.exited self initproc self).state = .zombie := by
  simp [exited]

theorem exited_state_of_ne (t : PTable) (initproc : Slot) {self q : Slot} (different : q ≠ self) :
    (t.exited self initproc q).state = (t.proc q).state ∨
      (t.proc q).state = .sleeping ∧ (t.exited self initproc q).state = .runnable := by
  have first := (t.proc q).woken_state ((t.proc self).parent.map .proc)
  unfold exited
  by_cases zombie : ∃ r, (t.proc r).parent = some self ∧ (t.proc r).state = .zombie
  · have second := (((t.proc q).woken ((t.proc self).parent.map .proc)).adopted
      self initproc).woken_state (some (.proc initproc))
    rw [Proc.adopted_state] at second
    simp only [zombie, different, if_true, if_false]
    rcases first with first | ⟨asleep, first⟩ <;> rw [first] at second
    · exact second
    · rcases second with second | ⟨impossible, -⟩
      · exact .inr ⟨asleep, second⟩
      · cases impossible
  · simpa [zombie, different] using first

@[simp]
theorem ticked_pid (t : PTable) (q : Slot) : (t.ticked q).pid = (t.proc q).pid := by
  unfold ticked
  split <;> rfl

end PTable

/-- The state that a `fork` in progress keeps its new slot in. -/
def ForkStage.slotState : ForkStage → ProcState
  | .discarded _ => .unused
  | _ => .embryo

namespace Kernel

variable {Cpu : Type} {k k' : Kernel Cpu} {l l' : Lists} {p np : Slot} {c : Cpu}

/-- A failing `fork` has marked the slot unused and will free it next. -/
def Discarded (k : Kernel Cpu) (q : Slot) : Prop :=
  ∃ p locked, k.forking p = some (.discarded locked, q)

/-- The invariant of the machine. -/
structure Inv (k : Kernel Cpu) (l : Lists) : Prop where
  placed : k.ptable.Placed l k.Discarded
  running : ∀ p, (k.ptable.proc p).state = .running ↔ ∃ c, k.proc c = some p
  single : ∀ c c' p, k.proc c = some p → k.proc c' = some p → c = c'
  stage : ∀ p stage np, k.forking p = some (stage, np) →
    (k.ptable.proc np).state = stage.slotState
  forker : ∀ p, k.forking p ≠ none →
    (k.ptable.proc p).state = .running ∨ (k.ptable.proc p).state = .runnable
  owner : ∀ p q stage stage' np, k.forking p = some (stage, np) →
    k.forking q = some (stage', np) → p = q
  pid_inj : ∀ p q, (k.ptable.proc p).pid = (k.ptable.proc q).pid →
    (k.ptable.proc p).pid ≠ 0 → p = q
  pid_range : ∀ p, 0 ≤ (k.ptable.proc p).pid ∧ (k.ptable.proc p).pid < k.nextpid
  pid_live : ∀ p, (k.ptable.proc p).state ≠ .unused → (k.ptable.proc p).pid ≠ 0

/-- A change of table that leaves a slot's state alone or wakes it up. -/
def Settles (k k' : Kernel Cpu) (q : Slot) : Prop :=
  (k'.ptable.proc q).pid = (k.ptable.proc q).pid ∧
    ((k'.ptable.proc q).state = (k.ptable.proc q).state ∨
      (k.ptable.proc q).state = .sleeping ∧ (k'.ptable.proc q).state = .runnable)

theorem Settles.state_iff {q : Slot} (settles : Settles k k' q) {state : ProcState}
    (notSleeping : state ≠ .sleeping) (notRunnable : state ≠ .runnable) :
    (k'.ptable.proc q).state = state ↔ (k.ptable.proc q).state = state := by
  rcases settles.2 with same | ⟨asleep, awake⟩
  · rw [same]
  · rw [asleep, awake]
    exact ⟨fun equal => absurd equal.symm notRunnable, fun equal => absurd equal.symm notSleeping⟩

theorem Settles.forker {q : Slot} (settles : Settles k k' q)
    (alive : (k.ptable.proc q).state = .running ∨ (k.ptable.proc q).state = .runnable) :
    (k'.ptable.proc q).state = .running ∨ (k'.ptable.proc q).state = .runnable := by
  rcases settles.2 with same | ⟨-, awake⟩
  · rw [same]
    exact alive
  · exact .inr awake

variable (inv : k.Inv l)
include inv

/-- The pid clauses only depend on the pids and on which slots are unused. -/
theorem Inv.pids (nextpid : k'.nextpid = k.nextpid)
    (pid : ∀ q, (k'.ptable.proc q).pid = (k.ptable.proc q).pid)
    (live : ∀ q, (k'.ptable.proc q).state ≠ .unused → (k.ptable.proc q).state ≠ .unused) :
    (∀ p q, (k'.ptable.proc p).pid = (k'.ptable.proc q).pid → (k'.ptable.proc p).pid ≠ 0 → p = q) ∧
    (∀ p, 0 ≤ (k'.ptable.proc p).pid ∧ (k'.ptable.proc p).pid < k'.nextpid) ∧
    (∀ p, (k'.ptable.proc p).state ≠ .unused → (k'.ptable.proc p).pid ≠ 0) := by
  refine ⟨fun p q => ?_, fun p => ?_, fun p => ?_⟩
  · rw [pid p, pid q]
    exact inv.pid_inj p q
  · rw [pid p, nextpid]
    exact inv.pid_range p
  · rw [pid p]
    exact fun used => inv.pid_live p (live p used)

/-- Steps that move no slot along, except that sleepers may wake up. -/
theorem Inv.quiet (placed : k'.ptable.Placed l' k.Discarded) (settles : ∀ q, Settles k k' q)
    (proc : k'.proc = k.proc) (forking : k'.forking = k.forking)
    (nextpid : k'.nextpid = k.nextpid) : k'.Inv l' := by
  obtain ⟨pidInj, pidRange, pidLive⟩ := inv.pids nextpid (fun q => (settles q).1) fun q used =>
    fun unused => used (((settles q).state_iff (by simp) (by simp)).mpr unused)
  refine ⟨?_, ?_, ?_, ?_, ?_, ?_, pidInj, pidRange, pidLive⟩
  · unfold Discarded
    rw [forking]
    exact placed
  · intro p
    rw [(settles p).state_iff (by simp) (by simp), proc]
    exact inv.running p
  · rw [proc]
    exact inv.single
  · intro p stage np inProgress
    rw [forking] at inProgress
    have before := inv.stage p stage np inProgress
    cases stage <;> exact ((settles np).state_iff (by simp [ForkStage.slotState])
      (by simp [ForkStage.slotState])).mpr before
  · intro p inProgress
    rw [forking] at inProgress
    exact (settles p).forker (inv.forker p inProgress)
  · rw [forking]
    exact inv.owner

/-- The process `p` leaves CPU `c`; others may wake up. -/
theorem Inv.leave [DecidableEq Cpu] (current : k.proc c = some p)
    (placed : k'.ptable.Placed l' k.Discarded) (settles : ∀ q ≠ p, Settles k k' q)
    (pid : (k'.ptable.proc p).pid = (k.ptable.proc p).pid)
    (notRunning : (k'.ptable.proc p).state ≠ .running)
    (forks : k.forking p ≠ none → (k'.ptable.proc p).state = .runnable)
    (proc : k'.proc = update k.proc c none) (forking : k'.forking = k.forking)
    (nextpid : k'.nextpid = k.nextpid) : k'.Inv l' := by
  have wasRunning : (k.ptable.proc p).state = .running := (inv.running p).mpr ⟨c, current⟩
  have allPid : ∀ q, (k'.ptable.proc q).pid = (k.ptable.proc q).pid := by
    intro q
    by_cases same : q = p
    · subst same
      exact pid
    · exact (settles q same).1
  obtain ⟨pidInj, pidRange, pidLive⟩ := inv.pids nextpid allPid fun q used unused => by
    by_cases same : q = p
    · subst same
      rw [wasRunning] at unused
      cases unused
    · exact used (((settles q same).state_iff (by simp) (by simp)).mpr unused)
  refine ⟨?_, ?_, ?_, ?_, ?_, ?_, pidInj, pidRange, pidLive⟩
  · unfold Discarded
    rw [forking]
    exact placed
  · intro q
    rw [proc]
    by_cases same : q = p
    · subst same
      refine ⟨fun running => absurd running notRunning, ?_⟩
      rintro ⟨d, elsewhere⟩
      by_cases here : d = c
      · subst here
        simp at elsewhere
      · rw [update_of_ne here] at elsewhere
        exact absurd (inv.single d c q elsewhere current) here
    · rw [(settles q same).state_iff (by simp) (by simp), inv.running q]
      refine ⟨?_, ?_⟩
      · rintro ⟨d, there⟩
        refine ⟨d, ?_⟩
        rw [update_of_ne, there]
        rintro rfl
        exact same (Option.some.inj (there.symm.trans current))
      · rintro ⟨d, there⟩
        refine ⟨d, ?_⟩
        by_cases here : d = c
        · subst here
          simp at there
        · rwa [update_of_ne here] at there
  · intro d d' q first second
    rw [proc] at first second
    by_cases here : d = c
    · subst here
      simp at first
    · by_cases here' : d' = c
      · subst here'
        simp at second
      · rw [update_of_ne here] at first
        rw [update_of_ne here'] at second
        exact inv.single d d' q first second
  · intro q stage np inProgress
    rw [forking] at inProgress
    have before := inv.stage q stage np inProgress
    have different : np ≠ p := by
      rintro rfl
      rw [wasRunning] at before
      cases stage <;> cases before
    cases stage <;> exact ((settles np different).state_iff (by simp [ForkStage.slotState])
      (by simp [ForkStage.slotState])).mpr before
  · intro q inProgress
    rw [forking] at inProgress
    by_cases same : q = p
    · subst same
      exact .inr (forks inProgress)
    · exact (settles q same).forker (inv.forker q inProgress)
  · rw [forking]
    exact inv.owner

/-- The runnable process `p` enters the idle CPU `c`. -/
theorem Inv.enter [DecidableEq Cpu] (idle : k.proc c = none)
    (runnable : (k.ptable.proc p).state = .runnable) (placed : k'.ptable.Placed l' k.Discarded)
    (pid : ∀ q, (k'.ptable.proc q).pid = (k.ptable.proc q).pid)
    (here : (k'.ptable.proc p).state = .running)
    (state : ∀ q ≠ p, (k'.ptable.proc q).state = (k.ptable.proc q).state)
    (proc : k'.proc = update k.proc c (some p)) (forking : k'.forking = k.forking)
    (nextpid : k'.nextpid = k.nextpid) : k'.Inv l' := by
  have notCurrent : ∀ d, k.proc d ≠ some p := by
    intro d current
    have running := (inv.running p).mpr ⟨d, current⟩
    rw [runnable] at running
    cases running
  obtain ⟨pidInj, pidRange, pidLive⟩ := inv.pids nextpid pid fun q used unused => by
    by_cases same : q = p
    · subst same
      rw [runnable] at unused
      cases unused
    · exact used ((state q same).trans unused)
  refine ⟨?_, ?_, ?_, ?_, ?_, ?_, pidInj, pidRange, pidLive⟩
  · unfold Discarded
    rw [forking]
    exact placed
  · intro q
    rw [proc]
    by_cases same : q = p
    · subst same
      exact ⟨fun _ => ⟨c, update_self _ _ _⟩, fun _ => here⟩
    · rw [state q same, inv.running q]
      refine exists_congr fun d => ?_
      by_cases this : d = c
      · subst this
        simp [idle, Ne.symm same]
      · rw [update_of_ne this]
  · intro d d' q first second
    rw [proc] at first second
    by_cases this : d = c <;> by_cases that : d' = c
    · rw [this, that]
    · subst this
      rw [update_self] at first
      rw [update_of_ne that] at second
      exact absurd (second.trans first.symm) (notCurrent d' ∘ fun equal => by simpa using equal)
    · subst that
      rw [update_self] at second
      rw [update_of_ne this] at first
      exact absurd (first.trans second.symm) (notCurrent d ∘ fun equal => by simpa using equal)
    · rw [update_of_ne this] at first
      rw [update_of_ne that] at second
      exact inv.single d d' q first second
  · intro q stage np inProgress
    rw [forking] at inProgress
    have before := inv.stage q stage np inProgress
    have different : np ≠ p := by
      rintro rfl
      rw [runnable] at before
      cases stage <;> cases before
    rw [state np different]
    exact before
  · intro q inProgress
    rw [forking] at inProgress
    by_cases same : q = p
    · subst same
      exact .inl here
    · rw [state q same]
      exact inv.forker q inProgress
  · rw [forking]
    exact inv.owner

/-- A step of the `fork` of `p` on the slot `np`, which nobody else can touch. -/
theorem Inv.forkStep (np : Slot) (stage' : Option (ForkStage × Slot)) (current : k.proc c = some p)
    (placed : k'.ptable.Placed l' k'.Discarded)
    (own : ∀ q stage, k.forking q = some (stage, np) → q = p)
    (fresh : (k.ptable.proc np).state = .unused ∨ (k.ptable.proc np).state = .embryo)
    (state : ∀ q ≠ np, (k'.ptable.proc q).state = (k.ptable.proc q).state)
    (here : (k'.ptable.proc np).state ≠ .running) (proc : k'.proc = k.proc)
    (forking : k'.forking = update k.forking p stage') (next : ∀ stage q, stage' = some (stage, q) →
      q = np ∧ (k'.ptable.proc np).state = stage.slotState)
    (pidInj : ∀ p q, (k'.ptable.proc p).pid = (k'.ptable.proc q).pid →
      (k'.ptable.proc p).pid ≠ 0 → p = q)
    (pidRange : ∀ p, 0 ≤ (k'.ptable.proc p).pid ∧ (k'.ptable.proc p).pid < k'.nextpid)
    (pidLive : ∀ p, (k'.ptable.proc p).state ≠ .unused → (k'.ptable.proc p).pid ≠ 0) :
    k'.Inv l' := by
  have running : (k.ptable.proc p).state = .running := (inv.running p).mpr ⟨c, current⟩
  have distinct : p ≠ np := by
    rintro rfl
    rw [running] at fresh
    simp at fresh
  -- another fork in progress is about another slot
  have others : ∀ q stage m, q ≠ p → k'.forking q = some (stage, m) →
      k.forking q = some (stage, m) ∧ m ≠ np := by
    intro q stage m different inProgress
    rw [forking, update_of_ne different] at inProgress
    refine ⟨inProgress, ?_⟩
    rintro rfl
    exact different (own q stage inProgress)
  refine ⟨placed, ?_, ?_, ?_, ?_, ?_, pidInj, pidRange, pidLive⟩
  · intro q
    rw [proc, ← inv.running q]
    by_cases same : q = np
    · subst same
      refine ⟨fun run => absurd run here, fun run => ?_⟩
      rw [run] at fresh
      simp at fresh
    · rw [state q same]
  · rw [proc]
    exact inv.single
  · intro q stage m inProgress
    by_cases same : q = p
    · subst same
      rw [forking, update_self] at inProgress
      obtain ⟨rfl, result⟩ := next stage m inProgress
      exact result
    · obtain ⟨before, different⟩ := others q stage m same inProgress
      rw [state m different]
      exact inv.stage q stage m before
  · intro q inProgress
    by_cases same : q = p
    · subst same
      rw [state q distinct]
      exact .inl running
    · rw [forking, update_of_ne same] at inProgress
      have alive := inv.forker q inProgress
      have different : q ≠ np := by
        rintro rfl
        rcases fresh with fresh | fresh <;> rw [fresh] at alive <;> simp at alive
      rw [state q different]
      exact alive
  · intro q r stage stage₂ m first second
    by_cases sameQ : q = p <;> by_cases sameR : r = p
    · rw [sameQ, sameR]
    · subst sameQ
      rw [forking, update_self] at first
      obtain ⟨rfl, -⟩ := next stage m first
      exact absurd rfl (others r stage₂ m sameR second).2
    · subst sameR
      rw [forking, update_self] at second
      obtain ⟨rfl, -⟩ := next stage₂ m second
      exact absurd rfl (others q stage m sameQ first).2
    · exact inv.owner q r stage stage₂ m (others q stage m sameQ first).1
        (others r stage₂ m sameR second).1

/-- `wait` frees the slot of the zombie `z`. -/
theorem Inv.reap {z : Slot} {f : Proc → Proc} (zombie : (k.ptable.proc z).state = .zombie)
    (placed : k'.ptable.Placed l' k.Discarded)
    (table : k'.ptable.proc = update k.ptable.proc z (f (k.ptable.proc z)))
    (unused : (f (k.ptable.proc z)).state = .unused) (pid : (f (k.ptable.proc z)).pid = 0)
    (proc : k'.proc = k.proc) (forking : k'.forking = k.forking)
    (nextpid : k'.nextpid = k.nextpid) : k'.Inv l' := by
  have elsewhere : ∀ {q : Slot}, q ≠ z → k'.ptable.proc q = k.ptable.proc q := fun different => by
    rw [table, update_of_ne different]
  have here : k'.ptable.proc z = f (k.ptable.proc z) := by rw [table, update_self]
  have notZombie : ∀ {q : Slot}, (k.ptable.proc q).state ≠ .zombie → q ≠ z := by
    rintro q other rfl
    exact other zombie
  refine ⟨?_, ?_, ?_, ?_, ?_, ?_, ?_, ?_, ?_⟩
  · unfold Discarded
    rw [forking]
    exact placed
  · intro q
    rw [proc, ← inv.running q]
    by_cases same : q = z
    · subst same
      rw [here, unused, zombie]
      simp
    · rw [elsewhere same]
  · rw [proc]
    exact inv.single
  · intro q stage m inProgress
    rw [forking] at inProgress
    have before := inv.stage q stage m inProgress
    rw [elsewhere (notZombie (by rw [before]; cases stage <;> simp [ForkStage.slotState]))]
    exact before
  · intro q inProgress
    rw [forking] at inProgress
    have alive := inv.forker q inProgress
    rw [elsewhere (notZombie (by rcases alive with alive | alive <;> simp [alive]))]
    exact alive
  · rw [forking]
    exact inv.owner
  · intro q r equal nonzero
    have differs : ∀ {q : Slot}, (k'.ptable.proc q).pid ≠ 0 → q ≠ z := by
      rintro q nonzero rfl
      exact nonzero (by rw [here, pid])
    have first := differs nonzero
    have second := differs (equal ▸ nonzero)
    rw [elsewhere first] at equal nonzero
    rw [elsewhere second] at equal
    exact inv.pid_inj q r equal nonzero
  · intro q
    rw [nextpid]
    by_cases same : q = z
    · subst same
      have range := inv.pid_range q
      rw [here, pid]
      omega
    · rw [elsewhere same]
      exact inv.pid_range q
  · intro q used
    by_cases same : q = z
    · subst same
      exact absurd (by rw [here, unused]) used
    · rw [elsewhere same] at used ⊢
      exact inv.pid_live q used

end Kernel

end Xv6.Process
