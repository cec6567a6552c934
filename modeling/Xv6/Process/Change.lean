import Xv6.Process.Preservation

/-!
# What a step does to the lives of the processes

`Change` sorts the moves by what they do to the slots as processes.  Most leave pids
and parents alone and every alive process alive (`mild`).  The others are the steps of a
`fork`, the reaping of a zombie and an exit, with the slot each of them writes.
-/

namespace Xv6.Process

open Function

/-- The process can still run. -/
def ProcState.alive : ProcState → Bool
  | .sleeping | .runnable | .running => true
  | _ => false

/-- `np->parent` has been written. -/
def ForkStage.hasParent : ForkStage → Bool
  | .parented | .prepared => true
  | _ => false

/-- The pid that a successful `wait` returned. -/
def Event.reaped : Event → Option Int
  | .waited _ pid => if pid = -1 then none else some pid
  | _ => none

/-- The process sleeps in `wait`: on its own slot. -/
def PTable.InWait (t : PTable) (p : Slot) : Prop :=
  (t.proc p).state = .sleeping ∧ (t.proc p).chan = some (.proc p)

/-- A change that keeps pid and parent and leaves an alive process alive. -/
def Proc.Mild (q q' : Proc) : Prop :=
  q'.pid = q.pid ∧ q'.parent = q.parent ∧
    (q'.state = q.state ∨ q.state.alive = true ∧ q'.state.alive = true)

namespace Proc.Mild

variable {q q' : Proc}

protected theorem refl (q : Proc) : q.Mild q :=
  ⟨rfl, rfl, .inl rfl⟩

theorem state_iff (mild : q.Mild q') {state : ProcState} (dead : state.alive = false) :
    q'.state = state ↔ q.state = state := by
  rcases mild.2.2 with same | ⟨alive, alive'⟩
  · rw [same]
  · constructor
    · rintro rfl
      rw [dead] at alive'
      cases alive'
    · rintro rfl
      rw [dead] at alive
      cases alive

theorem alive_iff (mild : q.Mild q') : q'.state.alive = q.state.alive := by
  rcases mild.2.2 with same | ⟨alive, alive'⟩
  · rw [same]
  · rw [alive, alive']

theorem of_woken (chan : Option Chan) (q : Proc) : q.Mild (q.woken chan) := by
  refine ⟨q.woken_pid chan, q.woken_parent chan, ?_⟩
  rcases q.woken_state chan with same | ⟨asleep, awake⟩
  · exact .inl same
  · exact .inr ⟨by simp [asleep, ProcState.alive], by simp [awake, ProcState.alive]⟩

end Proc.Mild

namespace Kernel

variable {Cpu : Type} {k k' : Kernel Cpu} {l : Lists} {p np : Slot} {c : Cpu} {event : Event}

/-- The steps, by what they do to the slots as processes. -/
inductive Change (k : Kernel Cpu) : Event → Kernel Cpu → Prop
  /-- A process that comes to sleep in `wait` has no zombie child. -/
  | mild {event : Event} {k' : Kernel Cpu} :
      (∀ q, (k.ptable.proc q).Mild (k'.ptable.proc q)) → k'.forking = k.forking →
      k'.initproc = k.initproc → k'.nextpid = k.nextpid → event.reaped = none →
      (∀ p, k'.ptable.InWait p → k.ptable.InWait p ∨
        ∀ z, (k.ptable.proc z).parent = some p → (k.ptable.proc z).state ≠ .zombie) →
      Change k event k'
  | alloc {k' : Kernel Cpu} (p np : Slot) :
      (k.ptable.proc p).state = .running → k.forking p = none →
      (k.ptable.proc np).state = .unused → (∀ q stage, k.forking q ≠ some (stage, np)) →
      k'.ptable.proc = update k.ptable.proc np
        { k.ptable.proc np with state := .embryo, pid := k.nextpid } →
      k'.forking = update k.forking p (some (.allocated, np)) →
      k'.initproc = k.initproc → k'.nextpid = k.nextpid + 1 → Change k .internal k'
  /-- A later step of a `fork`, also the one that discards the slot. -/
  | advance {k' : Kernel Cpu} (p np : Slot) (stage stage' : ForkStage) (new : Proc) :
      (k.ptable.proc p).state = .running → (k.ptable.proc np).state = .embryo →
      k.forking p = some (stage, np) → stage ≠ .prepared →
      k'.ptable.proc = update k.ptable.proc np new → new.state = stage'.slotState →
      new.pid = (k.ptable.proc np).pid →
      (new.parent = (k.ptable.proc np).parent ∧ stage'.hasParent = stage.hasParent ∨
        new.parent = some p ∧ stage'.hasParent = true) →
      (stage'.slotState = .unused → stage.hasParent = false) →
      k'.forking = update k.forking p (some (stage', np)) →
      k'.initproc = k.initproc → k'.nextpid = k.nextpid → Change k .internal k'
  | free {k' : Kernel Cpu} (p np : Slot) (locked : Bool) :
      k.forking p = some (.discarded locked, np) → k'.ptable.proc = k.ptable.proc →
      k'.forking = update k.forking p none →
      k'.initproc = k.initproc → k'.nextpid = k.nextpid → Change k .internal k'
  | publish {k' : Kernel Cpu} (p np : Slot) :
      (k.ptable.proc p).state = .running → (k.ptable.proc np).state = .embryo →
      k.forking p = some (.prepared, np) →
      k'.ptable.proc = update k.ptable.proc np
        { k.ptable.proc np with state := .runnable } →
      k'.forking = update k.forking p none →
      k'.initproc = k.initproc → k'.nextpid = k.nextpid →
      Change k (.forked (k.ptable.proc p).pid (k.ptable.proc np).pid) k'
  | reap {k' : Kernel Cpu} (caller : Int) (z : Slot) :
      (k.ptable.proc z).state = .zombie →
      k'.ptable.proc = update k.ptable.proc z
        { k.ptable.proc z with state := .unused, pid := 0, parent := none, killed := false } →
      k'.forking = k.forking → k'.initproc = k.initproc → k'.nextpid = k.nextpid →
      Change k (.waited caller (k.ptable.proc z).pid) k'
  | exit {k' : Kernel Cpu} (self : Slot) :
      (k.ptable.proc self).state = .running → k.forking self = none → self ≠ k.initproc →
      k'.ptable.proc = k.ptable.exited self k.initproc → k'.forking = k.forking →
      k'.initproc = k.initproc → k'.nextpid = k.nextpid →
      Change k (.exited (k.ptable.proc self).pid) k'

/-- Steps that leave the slots as they are. -/
theorem Change.idle (table : k'.ptable = k.ptable) (forking : k'.forking = k.forking)
    (initproc : k'.initproc = k.initproc) (nextpid : k'.nextpid = k.nextpid)
    (quiet : event.reaped = none) : Change k event k' :=
  .mild (fun q => by rw [table]; exact Proc.Mild.refl _) forking initproc nextpid quiet
    fun p inWait => .inl (by rwa [table] at inWait)

/-- A step that changes only the slot of `p`, mildly, and does not put it to
sleep in `wait`. -/
theorem Change.mild_at {new : Proc} (table : k'.ptable.proc = update k.ptable.proc p new)
    (here : (k.ptable.proc p).Mild new)
    (awake : new.state = .sleeping → new.chan = some (.proc p) → k.ptable.InWait p)
    (forking : k'.forking = k.forking) (initproc : k'.initproc = k.initproc)
    (nextpid : k'.nextpid = k.nextpid) (quiet : event.reaped = none) : Change k event k' := by
  refine .mild (fun q => ?_) forking initproc nextpid quiet fun q inWait => .inl ?_
  · rw [table]
    by_cases same : q = p
    · subst same
      rwa [update_self]
    · rw [update_of_ne same]
      exact Proc.Mild.refl _
  · unfold PTable.InWait at inWait
    rw [table] at inWait
    by_cases same : q = p
    · subst same
      rw [update_self] at inWait
      exact awake inWait.1 inWait.2
    · rwa [update_of_ne same] at inWait

/-- A dispatched process was runnable and is running; its channel may be
cleared, and priorities may be reset. -/
theorem Change.dispatch [DecidableEq Cpu] {t : PTable} {f : Proc → Proc} {lock : Option Cpu}
    (inv : k.Inv l) (ready : k.ptable.anyReady = true)
    (dispatched : k.ptable.dispatch = some (p, t))
    (f_eq : f = id ∨ f = fun q => { q with chan := none }) (quiet : event.reaped = none) :
    Change k event { k with
      ptable := t.modify p f, lock := lock, proc := update k.proc c (some p) } := by
  obtain ⟨q, i, t', -, taken, runnable, -, proc', -⟩ := inv.placed.dispatch ready
  obtain ⟨rfl, rfl⟩ : p = q ∧ t = t' := by simpa using dispatched.symm.trans taken
  have kept : ∀ q, (k.ptable.ticked q).pid = (k.ptable.proc q).pid ∧
      (k.ptable.ticked q).parent = (k.ptable.proc q).parent ∧
      (k.ptable.ticked q).state = (k.ptable.proc q).state ∧
      (k.ptable.ticked q).chan = (k.ptable.proc q).chan := by
    intro q
    unfold PTable.ticked
    split <;> exact ⟨rfl, rfl, rfl, rfl⟩
  refine .mild (fun q => ?_) rfl rfl rfl quiet fun q inWait => .inl ?_
  · obtain ⟨-, parent, -, -⟩ := kept q
    by_cases same : q = p
    · subst same
      rcases f_eq with rfl | rfl <;>
        simp [Proc.Mild, proc', parent, runnable, ProcState.alive]
    · simp [Proc.Mild, PTable.modify_proc_of_ne _ _ same, proc', same, parent]
  · obtain ⟨-, -, state, chan⟩ := kept q
    by_cases same : q = p
    · subst same
      rcases f_eq with rfl | rfl <;> simp [PTable.InWait, proc'] at inWait
    · simpa [PTable.InWait, PTable.modify_proc_of_ne _ _ same, proc', same, state, chan]
        using inWait

/-- A zombie is not a discarded slot. -/
theorem Inv.zombie_not_discarded (inv : k.Inv l) (q : Slot)
    (zombie : (k.ptable.proc q).state = .zombie) : ¬ k.Discarded q := by
  intro out
  simp [inv.unused_of_discarded out] at zombie

/-- Every move is one of the changes. -/
theorem Inv.change [DecidableEq Cpu] (inv : k.Inv l) (move : Move k event k') :
    Change k event k' := by
  have running : ∀ {c : Cpu} {p : Slot}, k.proc c = some p →
      (k.ptable.proc p).state = .running := fun current => (inv.running _).mpr ⟨_, current⟩
  cases move with
  | acquire | release | waitFail | forkFull => exact .idle rfl rfl rfl rfl rfl
  | dispatch c p t lock f idle ready dispatched resumed =>
    refine .dispatch inv ready dispatched ?_ rfl
    rcases resumed with ⟨rfl, -⟩ | ⟨rfl, -⟩
    · exact .inl rfl
    · exact .inr rfl
  | reap c p pid t current scan =>
    obtain ⟨z, -, zombie, rfl, -, proc', -⟩ :=
      inv.placed.waitScan_reaped inv.zombie_not_discarded scan
    exact .reap _ z zombie proc' rfl rfl rfl
  | waitSleep c p current whole scan =>
    have isRunning := running current
    refine .mild (fun q => ?_) rfl rfl rfl rfl fun q inWait => ?_
    · by_cases same : q = p
      · subst same
        simp [Proc.Mild, sched, isRunning, ProcState.alive]
      · simp [Proc.Mild, sched, PTable.modify_proc_of_ne _ _ same]
    · by_cases same : q = p
      · subst same
        exact .inr fun z child => PTable.waitScan_sleep scan z child
      · refine .inl ?_
        simpa [PTable.InWait, sched, PTable.modify_proc_of_ne _ _ same] using inWait
  | alloc c p np t current whole removed room =>
    obtain ⟨unused, inside, proc', -⟩ := inv.placed.allocate removed
      (fun q => { q with state := .embryo, pid := k.nextpid }) (fun _ => rfl) fun _ => rfl
    refine .alloc p np (running current) whole unused (inv.not_owned unused inside) ?_ rfl rfl rfl
    simp [setStage, PTable.modify, proc']
  | advance c p np kont f stage stage' current inProgress way =>
    have state := inv.stage p stage np inProgress
    rcases way with ⟨rfl, rfl, rfl, -⟩ | ⟨rfl, rfl, rfl, -⟩ | ⟨rfl, rfl, rfl, -⟩ |
      ⟨rfl, rfl, rfl, -⟩
    · exact .advance p np _ .stacked _ (running current) state inProgress (by simp) rfl state rfl
        (.inl ⟨rfl, rfl⟩) (fun _ => rfl) rfl rfl rfl
    · exact .advance p np _ .copied _ (running current) state inProgress (by simp) rfl state rfl
        (.inl ⟨rfl, rfl⟩) (fun _ => rfl) rfl rfl rfl
    · exact .advance p np _ .parented _ (running current) state inProgress (by simp) rfl state rfl
        (.inr ⟨rfl, rfl⟩) (fun _ => rfl) rfl rfl rfl
    · exact .advance p np _ .prepared _ (running current) state inProgress (by simp) rfl state rfl
        (.inl ⟨rfl, rfl⟩) (fun impossible => by cases impossible) rfl rfl rfl
  | discard c p np stage locked current inProgress way =>
    have state := inv.stage p stage np inProgress
    rcases way with ⟨rfl, rfl⟩ | ⟨rfl, rfl⟩ <;>
      exact .advance p np _ (.discarded _) _ (running current) state inProgress
        (by simp) rfl rfl rfl
        (.inl ⟨rfl, rfl⟩) (fun _ => rfl) rfl rfl rfl
  | publish c p np t current inProgress made =>
    have embryo : (k.ptable.proc np).state = .embryo := inv.stage p _ np inProgress
    obtain ⟨t', i, enqueued, -, proc', -⟩ :=
      inv.placed.makeRunnable (p := np) (by simp [embryo]) (by simp [embryo])
    obtain rfl : t = t' := by simpa using made.symm.trans enqueued
    exact .publish p np (running current) embryo inProgress proc' rfl rfl rfl
  | addFreeList c p np locked current inProgress =>
    exact .free p np locked inProgress (by simp [setStage, PTable.addFreeList_some]) rfl rfl rfl
  | exit c p t current whole notInit done =>
    obtain ⟨t', l', exited, -, -, proc', -⟩ := inv.placed.exitLocked k.initproc (running current)
    obtain rfl : t = t' := by simpa using done.symm.trans exited
    exact .exit p (running current) whole notInit proc' rfl rfl rfl
  | yield c p t current made =>
    have isRunning := running current
    obtain ⟨t', i, enqueued, -, proc', -⟩ :=
      inv.placed.makeRunnable (p := p) (by simp [isRunning]) (by simp [isRunning])
    obtain rfl : t = t' := by simpa using made.symm.trans enqueued
    exact .mild_at proc' (by simp [Proc.Mild, isRunning, ProcState.alive]) (by simp)
      rfl rfl rfl rfl
  | sleep c p address current whole =>
    have isRunning := running current
    exact .mild_at rfl (by simp [Proc.Mild, isRunning, ProcState.alive]) (by simp)
      rfl rfl rfl rfl
  | wakeup chan t woke =>
    obtain ⟨t', l', woken, -, -, proc', -⟩ := inv.placed.wakeup1 (some chan)
    obtain rfl : t = t' := by simpa using woke.symm.trans woken
    refine .mild (fun q => ?_) rfl rfl rfl rfl fun q inWait => .inl ?_
    · rw [proc']
      exact Proc.Mild.of_woken _ _
    · simp only [PTable.InWait, proc', Proc.woken] at inWait
      split at inWait
      · simp at inWait
      · exact inWait
  | kill pid result t killed =>
    cases found : k.ptable.slotOfPid pid with
    | none =>
      obtain ⟨-, rfl⟩ : -1 = result ∧ k.ptable = t := by simpa [PTable.kill, found] using killed
      exact .idle rfl rfl rfl rfl rfl
    | some p =>
      obtain ⟨t', l', done, -, -, proc', -⟩ := inv.placed.kill_some found
      obtain ⟨-, rfl⟩ : result = 0 ∧ t = t' := by simpa using killed.symm.trans done
      refine .mild_at proc' ?_ ?_ rfl rfl rfl rfl <;>
        by_cases asleep : (k.ptable.proc p).state = .sleeping <;>
        simp [Proc.Mild, asleep, ProcState.alive]
  | setpriority c p priority current low high =>
    have found := inv.slotOfPid (p := p) (by simp [running current])
    simp only [PTable.setpriority, found]
    exact .mild_at rfl (by simp [Proc.Mild]) And.intro rfl rfl rfl rfl
  | trap c p current =>
    exact .mild_at rfl (by simp [Proc.Mild]) And.intro rfl rfl rfl rfl

end Kernel

end Xv6.Process
