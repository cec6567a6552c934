import Xv6.Process.ExitWait

/-!
# Parents are older than their children

`fork` hands out increasing pids, and the process that gets the children of an exiting
one is `initproc`, the oldest of all.
-/

namespace Xv6.Process

open Labelled Function

namespace Kernel

variable {Cpu : Type} {k k' : Kernel Cpu} {l : Lists} {events : List Event} {event : Event}

/-- Parents and forking processes are older than their children, and every embryo belongs to
a `fork`. -/
structure Lineage (k : Kernel Cpu) : Prop where
  older : ∀ q r, (k.ptable.proc q).state.alive = true ∨ (k.ptable.proc q).state = .zombie →
    (k.ptable.proc q).parent = some r → (k.ptable.proc r).pid < (k.ptable.proc q).pid
  newer : ∀ p stage np, k.forking p = some (stage, np) →
    (k.ptable.proc p).pid < (k.ptable.proc np).pid
  owned : ∀ q, (k.ptable.proc q).state = .embryo → ∃ p stage, k.forking p = some (stage, q)

/-- The parent of a process that is born is alive. -/
theorem Family.parent_alive (family : k.Family events) {q r : Slot}
    (born : (k.ptable.proc q).state.alive = true ∨ (k.ptable.proc q).state = .zombie)
    (parent : (k.ptable.proc q).parent = some r) : (k.ptable.proc r).state.alive = true := by
  have notInit : q ≠ k.initproc := by
    rintro rfl
    simp [family.init_parent] at parent
  obtain ⟨r', isParent, alive, -⟩ := family.child q notInit born
  obtain rfl : r = r' := Option.some.inj (parent.symm.trans isParent)
  exact alive

/-- A process with a `fork` in progress is alive. -/
theorem Inv.forker_alive (inv : k.Inv l) {p np : Slot} {stage : ForkStage}
    (inProgress : k.forking p = some (stage, np)) : (k.ptable.proc p).state.alive = true := by
  rcases inv.forker p (by simp [inProgress]) with state | state <;> rw [state] <;> rfl

/-- A step of a `fork` on its own slot that keeps the pids. -/
theorem Lineage.fork {p np : Slot} {stage : ForkStage} {new : Proc}
    {stage' : Option (ForkStage × Slot)} (lineage : k.Lineage)
    (inProgress : k.forking p = some (stage, np))
    (table : k'.ptable.proc = update k.ptable.proc np new) (pid : new.pid = (k.ptable.proc np).pid)
    (unborn : new.state.alive = true ∨ new.state = .zombie → new.parent = some p)
    (owned : new.state = .embryo → ∃ stage, stage' = some (stage, np))
    (target : ∀ stage q, stage' = some (stage, q) → q = np)
    (forking : k'.forking = update k.forking p stage') : k'.Lineage := by
  have allPid : ∀ q, (k'.ptable.proc q).pid = (k.ptable.proc q).pid := by
    intro q
    rw [table]
    by_cases same : q = np
    · subst same
      rw [update_self, pid]
    · rw [update_of_ne same]
  refine ⟨fun q r born parent => ?_, fun q stage₂ m busy => ?_, fun q embryo => ?_⟩
  · rw [allPid, allPid]
    rw [table] at born parent
    by_cases same : q = np
    · subst same
      rw [update_self] at born parent
      obtain rfl : p = r := Option.some.inj ((unborn born).symm.trans parent)
      exact lineage.newer p stage q inProgress
    · rw [update_of_ne same] at born parent
      exact lineage.older q r born parent
  · rw [allPid, allPid]
    rw [forking] at busy
    by_cases same : q = p
    · subst same
      rw [update_self] at busy
      obtain rfl := target stage₂ m busy
      exact lineage.newer q stage m inProgress
    · rw [update_of_ne same] at busy
      exact lineage.newer q stage₂ m busy
  · rw [table] at embryo
    rw [forking]
    by_cases same : q = np
    · subst same
      rw [update_self] at embryo
      obtain ⟨stage₂, isStage⟩ := owned embryo
      exact ⟨p, stage₂, by rw [update_self, isStage]⟩
    · rw [update_of_ne same] at embryo
      obtain ⟨owner, stage₂, busy⟩ := lineage.owned q embryo
      have other : owner ≠ p := by
        rintro rfl
        rw [inProgress] at busy
        cases busy
        exact same rfl
      exact ⟨owner, stage₂, by rw [update_of_ne other, busy]⟩

/-- Every change keeps parents older than their children. -/
theorem Lineage.change (lineage : k.Lineage) (inv : k.Inv l) (family : k.Family events)
    (change : Change k event k') : k'.Lineage := by
  cases change with
  | mild mild forking initproc nextpid quiet waits =>
    refine ⟨fun q r born parent => ?_, fun p stage np busy => ?_, fun q embryo => ?_⟩
    · rw [(mild q).alive_iff, (mild q).state_iff rfl] at born
      rw [(mild q).2.1] at parent
      rw [(mild q).1, (mild r).1]
      exact lineage.older q r born parent
    · rw [forking] at busy
      rw [(mild p).1, (mild np).1]
      exact lineage.newer p stage np busy
    · rw [(mild q).state_iff rfl] at embryo
      rw [forking]
      exact lineage.owned q embryo
  | alloc p np running whole unused unowned table forking initproc nextpid =>
    have here : k'.ptable.proc np =
        { k.ptable.proc np with state := .embryo, pid := k.nextpid } := by
      rw [table, update_self]
    have elsewhere : ∀ {q : Slot}, q ≠ np → k'.ptable.proc q = k.ptable.proc q := fun other => by
      rw [table, update_of_ne other]
    have aliveOther : ∀ {q : Slot}, (k.ptable.proc q).state.alive = true → q ≠ np := by
      rintro q alive rfl
      simp [unused, ProcState.alive] at alive
    have forker : p ≠ np := aliveOther (by rw [running]; rfl)
    refine ⟨fun q r born parent => ?_, fun q stage m busy => ?_, fun q embryo => ?_⟩
    · have other : q ≠ np := by
        rintro rfl
        simp [here, ProcState.alive] at born
      rw [elsewhere other] at born parent ⊢
      rw [elsewhere (aliveOther (family.parent_alive born parent))]
      exact lineage.older q r born parent
    · rw [forking] at busy
      by_cases same : q = p
      · subst same
        rw [update_self] at busy
        cases busy
        rw [elsewhere forker, here]
        exact (inv.pid_range q).2
      · rw [update_of_ne same] at busy
        have otherSlot : m ≠ np := by
          rintro rfl
          exact unowned q stage busy
        rw [elsewhere (aliveOther (inv.forker_alive busy)), elsewhere otherSlot]
        exact lineage.newer q stage m busy
    · rw [forking]
      by_cases same : q = np
      · subst same
        exact ⟨p, .allocated, update_self _ _ _⟩
      · rw [elsewhere same] at embryo
        obtain ⟨owner, stage, busy⟩ := lineage.owned q embryo
        have other : owner ≠ p := by
          rintro rfl
          simp [whole] at busy
        exact ⟨owner, stage, by rw [update_of_ne other, busy]⟩
  | advance p np stage stage' new running embryo inProgress early table state pid parent orphan
      forking initproc nextpid =>
      refine lineage.fork inProgress table pid ?_ (fun _ => ⟨stage', rfl⟩) ?_ forking
      · intro born
        rw [state] at born
        cases stage' <;> simp [ForkStage.slotState, ProcState.alive] at born
      · rintro stage₂ q equal
        cases equal
        rfl
  | free p np locked inProgress table forking initproc nextpid =>
    have unused := inv.stage p _ np inProgress
    have same : k'.ptable.proc = update k.ptable.proc np (k.ptable.proc np) := by
      rw [table, update_eq_self]
    refine lineage.fork inProgress same rfl ?_ ?_ (by simp) forking
    · simp [unused, ForkStage.slotState, ProcState.alive]
    · simp [unused, ForkStage.slotState]
  | publish p np running embryo inProgress table forking initproc nextpid =>
    refine lineage.fork inProgress table rfl (fun _ => ?_) (by simp) (by simp) forking
    exact family.stage p _ np inProgress
  | reap caller z zombie table forking initproc nextpid =>
    have here : (k'.ptable.proc z).state = .unused := by rw [table, update_self]
    have elsewhere : ∀ {q : Slot}, q ≠ z → k'.ptable.proc q = k.ptable.proc q := fun other => by
      rw [table, update_of_ne other]
    have aliveOther : ∀ {q : Slot}, (k.ptable.proc q).state.alive = true → q ≠ z := by
      rintro q alive rfl
      simp [zombie, ProcState.alive] at alive
    refine ⟨fun q r born parent => ?_, fun p stage np busy => ?_, fun q embryo => ?_⟩
    · have other : q ≠ z := by
        rintro rfl
        simp [here, ProcState.alive] at born
      rw [elsewhere other] at born parent ⊢
      rw [elsewhere (aliveOther (family.parent_alive born parent))]
      exact lineage.older q r born parent
    · rw [forking] at busy
      have otherSlot : np ≠ z := by
        rintro rfl
        have state := inv.stage p stage np busy
        cases stage <;> simp [zombie, ForkStage.slotState] at state
      rw [elsewhere (aliveOther (inv.forker_alive busy)), elsewhere otherSlot]
      exact lineage.newer p stage np busy
    · have other : q ≠ z := by
        rintro rfl
        simp [here] at embryo
      rw [elsewhere other] at embryo
      rw [forking]
      exact lineage.owned q embryo
  | exit self running whole notInit table forking initproc nextpid =>
    have state : ∀ q, (k'.ptable.proc q).state.alive = true ∨ (k'.ptable.proc q).state = .zombie →
        (k.ptable.proc q).state.alive = true ∨ (k.ptable.proc q).state = .zombie := by
      intro q born
      by_cases same : q = self
      · rw [same, running]
        exact .inl rfl
      · rw [table] at born
        rcases k.ptable.exited_state_of_ne k.initproc same with kept | ⟨asleep, -⟩
        · rwa [kept] at born
        · rw [asleep]
          exact .inl rfl
    refine ⟨fun q r born parent => ?_, fun p stage np busy => ?_, fun q embryo => ?_⟩
    · rw [table, PTable.exited_parent] at parent
      rw [table, PTable.exited_pid, PTable.exited_pid]
      have bornBefore := state q born
      split at parent
      · -- an orphan: every process but `initproc` has a pid above 1
        rename_i orphan
        obtain rfl := Option.some.inj parent
        have used : (k.ptable.proc q).state ≠ .unused := by
          intro unused
          simp [unused, ProcState.alive] at bornBefore
        have positive := inv.pid_live q used
        have range := inv.pid_range q
        have notOne : (k.ptable.proc q).pid ≠ (k.ptable.proc k.initproc).pid := by
          intro samePid
          obtain rfl := inv.pid_inj q k.initproc samePid positive
          simp [family.init_parent] at orphan
        rw [family.init_pid] at notOne ⊢
        omega
      · exact lineage.older q r bornBefore parent
    · rw [forking] at busy
      rw [table, PTable.exited_pid, PTable.exited_pid]
      exact lineage.newer p stage np busy
    · rw [forking]
      rw [table] at embryo
      have other : q ≠ self := by
        rintro rfl
        simp at embryo
      rcases k.ptable.exited_state_of_ne k.initproc other with kept | ⟨-, awake⟩
      · exact lineage.owned q (kept ▸ embryo)
      · simp [awake] at embryo

/-- After `userinit` there is one process. -/
theorem Lineage.of_userinit (booted : userinit = some k) : k.Lineage := by
  obtain ⟨l, first⟩ := Booted.of_userinit booted
  have unused : ∀ q ≠ k.initproc, (k.ptable.proc q).state = .unused := by
    intro q other
    rw [first.others q other]
    rfl
  refine ⟨fun q r born isParent => ?_, by simp [first.whole], fun q embryo => ?_⟩
  · by_cases same : q = k.initproc
    · simp [same, first.parent] at isParent
    · simp [unused q same, ProcState.alive] at born
  · by_cases same : q = k.initproc
    · simp [same, first.runnable] at embryo
    · simp [unused q same] at embryo

variable [DecidableEq Cpu]

attribute [local simp] Option.bind_eq_some_iff

/-- Only the locked part of `exit` shows an exit. -/
theorem exit_of_exited {action : Action Cpu} {pid : Int}
    (taken : k.step action = some (.exited pid, k')) :
    ∃ c p, action = .exit c ∧ k.caller c = some p ∧ (k.ptable.proc p).pid = pid := by
  have turn : ∀ {c : Cpu} {p : Slot}, k.waitTurn c p ≠ (.exited pid, k') := by
    intro c p equal
    unfold waitTurn at equal
    split at equal <;> cases equal
  cases action with
  | exit c =>
    simp [Kernel.step] at taken
    obtain ⟨-, p, call, -, t, -, isPid, -⟩ := taken
    exact ⟨c, p, rfl, call, isPid⟩
  | iterate c =>
    simp [Kernel.step] at taken
    obtain ⟨-, p, t, -, resumed⟩ := taken
    split at resumed <;> cases resumed
  | allocproc c =>
    simp [Kernel.step] at taken
    obtain ⟨-, p, -, taken⟩ := taken
    split at taken <;> simp at taken
  | kalloc c ok | copyuvm c ok => cases ok <;> simp [Kernel.step] at taken
  | rescan c | wait c => simp [Kernel.step, turn] at taken
  | _ => simp [Kernel.step] at taken

end Kernel

end Xv6.Process
