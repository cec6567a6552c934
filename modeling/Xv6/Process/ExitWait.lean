import Xv6.Process.Family

/-!
# The exit and wait protocol

Every step keeps the family invariant (`Family.move`), so it holds along every
run.  What a caller of `wait` can rely on follows: the pids it gets are those of
its own exited children, each once; it gets `-1` only without children or when
killed; and it never sleeps through the exit of a child.
-/

namespace Xv6.Process

open Labelled Function

namespace Kernel

variable {Cpu : Type} {k k' : Kernel Cpu} {l : Lists} {events : List Event}
  {p np : Slot} {c : Cpu}

/-- A step of a `fork` in progress that keeps its slot an embryo or discards it. -/
theorem Family.move_fork {event : Event} {stage : ForkStage} {new : Proc}
    {stage' : Option (ForkStage × Slot)} (family : k.Family events) (inv : k.Inv l)
    (inProgress : k.forking p = some (stage, np))
    (table : k'.ptable.proc = update k.ptable.proc np new)
    (state : new.state = .unused ∨ (k.ptable.proc np).state = .embryo ∧ new.state = .embryo)
    (pid : new.pid = (k.ptable.proc np).pid) (orphan : new.state = .unused → new.parent = none)
    (parent : new.parent = (k.ptable.proc np).parent ∨ p ≠ np ∧ new.parent = some p)
    (next : ∀ stage q, stage' = some (stage, q) →
      q = np ∧ new.parent = if stage.hasParent then some p else none)
    (forking : k'.forking = update k.forking p stage') (initproc : k'.initproc = k.initproc)
    (nextpid : k'.nextpid = k.nextpid) (quiet : event.reaped = none) :
    k'.Family (event :: events) := by
  have before := inv.stage p stage np inProgress
  have here : k'.ptable.proc np = new := by rw [table, update_self]
  refine family.forkStep np stage' (fun q _ other => inv.owner q p _ _ np other inProgress) ?_
    (fun q different => by rw [table, update_of_ne different]) ?_ (by rwa [here]) ?_
    (by rwa [here]) ?_ forking initproc nextpid.ge quiet
  · rw [before]
    cases stage <;> rfl
  · rw [here]
    rcases state with unused | ⟨-, embryo⟩
    · rw [unused]
      exact ⟨rfl, by simp⟩
    · rw [embryo]
      exact ⟨rfl, by simp⟩
  · rw [here]
    rcases parent with same | ⟨other, self⟩
    · rw [same]
      exact family.irrefl np
    · rw [self]
      simpa using other
  · rw [here]
    intro used
    rcases state with unused | ⟨embryo, -⟩
    · exact absurd unused used
    · exact .inr ⟨by simp [embryo], pid⟩

/-- `allocproc` takes a slot that no `fork` owns. -/
theorem Family.alloc {event : Event} (family : k.Family events)
    (unused : (k.ptable.proc np).state = .unused)
    (unowned : ∀ q stage, k.forking q ≠ some (stage, np))
    (table : k'.ptable.proc = update k.ptable.proc np
      { k.ptable.proc np with state := .embryo, pid := k.nextpid })
    (forking : k'.forking = update k.forking p (some (.allocated, np)))
    (initproc : k'.initproc = k.initproc) (nextpid : k'.nextpid = k.nextpid + 1)
    (quiet : event.reaped = none) : k'.Family (event :: events) := by
  have orphan := family.unused np unused
  have here : k'.ptable.proc np =
      { k.ptable.proc np with state := .embryo, pid := k.nextpid } := by
    rw [table, update_self]
  refine family.forkStep np (some (.allocated, np))
    (fun q stage busy => absurd busy (unowned q stage)) ?_
    (fun q different => by rw [table, update_of_ne different]) ?_ ?_ ?_ ?_ ?_
    forking initproc (by omega) quiet
  · simp [unused, ProcState.alive]
  · simp [here, ProcState.alive]
  · simp [here]
  · simp [here, orphan]
  · rintro stage q equal
    cases equal
    simp [here, orphan, ForkStage.hasParent]
  · simp [here]

/-- Every move keeps the family relations, with its event added. -/
theorem Family.move [DecidableEq Cpu] {event : Event} (family : k.Family events) (inv : k.Inv l)
    (move : Move k event k') : k'.Family (event :: events) := by
  cases inv.change move with
  | mild mild forking initproc nextpid quiet waits =>
    exact family.mild mild forking initproc nextpid quiet waits
  | alloc p np running whole unused unowned table forking initproc nextpid =>
    exact family.alloc unused unowned table forking initproc nextpid rfl
  | advance p np stage stage' new running embryo inProgress early table state pid parent orphan
      forking initproc nextpid =>
      have parentBefore := family.stage p stage np inProgress
      have forker : p ≠ np := by
        rintro rfl
        simp [running] at embryo
      have parentAfter : new.parent = if stage'.hasParent then some p else none := by
        rcases parent with ⟨same, stays⟩ | ⟨set, has⟩
        · rw [same, parentBefore, stays]
        · rw [set, if_pos has]
      refine family.move_fork inv inProgress table ?_ pid ?_ ?_ ?_ forking initproc nextpid rfl
      · cases stage' <;> simp_all [ForkStage.slotState]
      · intro unused
        rw [state] at unused
        rcases parent with ⟨same, -⟩ | ⟨-, has⟩
        · rw [same, parentBefore, orphan unused]
          rfl
        · cases stage' <;> simp_all [ForkStage.slotState, ForkStage.hasParent]
      · exact parent.imp (fun same => same.1) fun set => ⟨forker, set.1⟩
      · rintro stage₂ q equal
        cases equal
        exact ⟨rfl, parentAfter⟩
  | free p np locked inProgress table forking initproc nextpid =>
    have unused := inv.stage p _ np inProgress
    have same : k'.ptable.proc = update k.ptable.proc np (k.ptable.proc np) := by
      rw [table, update_eq_self]
    exact family.move_fork inv inProgress same (.inl unused) rfl (family.unused np)
      (.inl rfl) (by simp) forking initproc nextpid rfl
  | publish p np running embryo inProgress table forking initproc nextpid =>
    exact family.publish inProgress running embryo table forking initproc nextpid
  | reap caller z zombie table forking initproc nextpid =>
    exact family.reap inv caller zombie (f := fun q => { q with
      state := .unused, pid := 0, parent := none, killed := false }) table rfl rfl forking
      initproc nextpid
  | exit self running whole notInit table forking initproc nextpid =>
    exact family.exit running whole notInit table forking initproc nextpid

variable [DecidableEq Cpu]

/-- Both invariants hold along every run. -/
theorem Run.family (run : Run events k) : ∃ l, k.Inv l ∧ k.Family events := by
  obtain ⟨start, booted, trace⟩ := run
  obtain ⟨l, inv, runnable, pid, parent, others, -, whole, -⟩ := Booted.of_userinit booted
  have orphan : ∀ q, (start.ptable.proc q).parent = none := by
    intro q
    by_cases same : q = start.initproc
    · rw [same, parent]
    · rw [others q same]
      rfl
  have born : ∀ q ≠ start.initproc, (start.ptable.proc q).state = .unused := by
    intro q different
    rw [others q different]
    rfl
  have initial : start.Family [] := by
    refine ⟨by rw [runnable]; rfl, pid, parent, fun q _ => orphan q, by simp [orphan],
      by simp [whole], fun q different alive => ?_, fun q dead => ?_, by simp, by simp,
      by simp [orphan]⟩
    · simp [born q different, ProcState.alive] at alive
    · by_cases same : q = start.initproc
      · simp [same, runnable] at dead
      · simp [born q same] at dead
  refine trace.invariant (fun events k => ∃ l, k.Inv l ∧ k.Family events) ⟨l, inv, initial⟩ ?_
  rintro events event middle last ⟨l, inv, family⟩ edge
  obtain ⟨l', inv', -⟩ := inv.move (step_move edge)
  exact ⟨l', inv', family.move inv (step_move edge)⟩

end Kernel

end Xv6.Process
