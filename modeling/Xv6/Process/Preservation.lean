import Xv6.Process.Invariant

/-!
# Every step keeps the invariant

The invariant holds after `userinit` and is kept by every move of the kernel
(`Inv.move`).  The same analysis says what a step does to the queues
(`Evolves`), which is all that the fairness results need to know of it.
-/

namespace Xv6.Process

open Function

namespace Kernel

variable {Cpu : Type} {k k' : Kernel Cpu} {l l' : Lists} {p np : Slot} {c : Cpu}

/-- What a step does to the ready lists and the countdown: an iteration of the
scheduler resets if due and takes the selected slot off its list; any other
step leaves the lists as they are or appends to them. -/
def Evolves (k : Kernel Cpu) (l : Lists) (event : Event) (k' : Kernel Cpu) (l' : Lists) : Prop :=
  match event with
  | .dispatched p =>
    (∃ i, (l.tick k.ptable.timeToReset).select = some (i, p) ∧
      l' = (l.tick k.ptable.timeToReset).remove i p) ∧
    k'.ptable.timeToReset =
      if k.ptable.timeToReset = 0 then maxTimeToReset else k.ptable.timeToReset - 1
  | _ => (∀ i, l.ready i <+: l'.ready i) ∧ k'.ptable.timeToReset = k.ptable.timeToReset

/-- While no fork in progress is discarded by a change at `p`, the discarded
slots stay the same. -/
theorem discarded_update {stage : Option (ForkStage × Slot)} (before : k.forking p = stage)
    (stage' : Option (ForkStage × Slot)) (forking : k'.forking = update k.forking p stage')
    (quiet : ∀ locked q, stage ≠ some (.discarded locked, q))
    (quiet' : ∀ locked q, stage' ≠ some (.discarded locked, q)) : k'.Discarded = k.Discarded := by
  funext q
  unfold Discarded
  rw [forking]
  refine propext (exists_congr fun r => exists_congr fun locked => ?_)
  by_cases same : r = p
  · subst same
    rw [update_self, before]
    exact ⟨fun bad => absurd bad (quiet' locked q), fun bad => absurd bad (quiet locked q)⟩
  · rw [update_of_ne same]

variable {q : Slot} {stage : ForkStage}

/-- A step of one `fork` does not discard the slots of the others. -/
theorem discarded_of_ne (inProgress : k.forking p = some (stage, np))
    (stage' : Option (ForkStage × Slot)) (forking : k'.forking = update k.forking p stage')
    (target : ∀ stage q, stage' = some (stage, q) → q = np) (different : q ≠ np) :
    k'.Discarded q ↔ k.Discarded q := by
  unfold Discarded
  rw [forking]
  refine exists_congr fun r => exists_congr fun locked => ?_
  by_cases same : r = p
  · subst same
    rw [update_self, inProgress]
    refine ⟨fun now => absurd (target _ _ now) different, fun was => ?_⟩
    cases was
    exact absurd rfl different
  · rw [update_of_ne same]

variable {t : PTable}

section

variable (inv : k.Inv l)
include inv

/-- A discarded slot is unused. -/
theorem Inv.unused_of_discarded (out : k.Discarded q) : (k.ptable.proc q).state = .unused := by
  obtain ⟨p, locked, inProgress⟩ := out
  exact inv.stage p _ q inProgress

/-- A free slot belongs to no `fork`: an unused slot that does is discarded. -/
theorem Inv.not_owned (unused : (k.ptable.proc np).state = .unused) (inside : ¬ k.Discarded np)
    (q : Slot) (stage : ForkStage) : k.forking q ≠ some (stage, np) := by
  intro inProgress
  have state := inv.stage q stage np inProgress
  rw [unused] at state
  cases stage with
  | discarded locked => exact inside ⟨q, locked, inProgress⟩
  | allocated | stacked | copied | parented | prepared => cases state

/-- The pid of a live process leads back to its slot. -/
theorem Inv.slotOfPid (used : (k.ptable.proc p).state ≠ .unused) :
    k.ptable.slotOfPid (k.ptable.proc p).pid = some p := by
  cases found : k.ptable.slotOfPid (k.ptable.proc p).pid with
  | none =>
    rw [PTable.slotOfPid, List.find?_eq_none] at found
    simpa using found p (List.mem_finRange p)
  | some q =>
    have samePid : (k.ptable.proc q).pid = (k.ptable.proc p).pid := by
      simpa using List.find?_some found
    have equal := inv.pid_inj p q samePid.symm (inv.pid_live p used)
    rw [equal]

variable {f : Proc → Proc} {pid : Int} {locked : Bool}

theorem Inv.move_dispatch [DecidableEq Cpu] {lock : Option Cpu} (idle : k.proc c = none)
    (ready : k.ptable.anyReady = true) (dispatched : k.ptable.dispatch = some (p, t))
    (state : ∀ q, (f q).state = q.state) (pid : ∀ q, (f q).pid = q.pid)
    (priority : ∀ q, (f q).priority = q.priority) :
    let k' := { k with
      ptable := t.modify p f, lock := lock, proc := update k.proc c (some p) }
    ∃ l', k'.Inv l' ∧ k.Evolves l (.dispatched p) k' l' := by
  obtain ⟨q, i, t', selected, taken, runnable, placed', proc', time'⟩ := inv.placed.dispatch ready
  obtain ⟨rfl, rfl⟩ : p = q ∧ t = t' := by simpa using dispatched.symm.trans taken
  refine ⟨(l.tick k.ptable.timeToReset).remove i p, ?_, ⟨⟨i, selected, rfl⟩, time'⟩⟩
  have here : t.proc p = { k.ptable.ticked p with state := .running } := by simp [proc']
  refine inv.enter idle runnable (placed'.modify p f (state _) (priority _)) ?_ ?_ ?_ rfl rfl rfl
  · intro q
    by_cases same : q = p
    · subst same
      simp [pid, here]
    · simp [PTable.modify_proc_of_ne _ _ same, proc', same]
  · simp [state, here]
  · intro q different
    simp [PTable.modify_proc_of_ne _ _ different, proc', different]

theorem Inv.move_reap (scan : k.ptable.waitScan p = .reaped pid t) :
    ∃ l', { k with ptable := t, lock := none }.Inv l' ∧
      (∀ i, l.ready i <+: l'.ready i) ∧ t.timeToReset = k.ptable.timeToReset := by
  have within : ∀ q, (k.ptable.proc q).state = .zombie → ¬ k.Discarded q := by
    intro q zombie out
    have unused := inv.unused_of_discarded out
    rw [zombie] at unused
    cases unused
  obtain ⟨z, -, zombie, -, placed', proc', time'⟩ := inv.placed.waitScan_reaped within scan
  refine ⟨_, inv.reap (f := fun q => { q with
    state := .unused, pid := 0, parent := none, killed := false }) zombie placed' proc' rfl rfl
    rfl rfl rfl, fun i => List.prefix_refl _, time'⟩

theorem Inv.move_alloc (current : k.proc c = some p) (whole : k.forking p = none)
    (removed : k.ptable.removeFreeList = (some np, t)) :
    let k' := { k with
      ptable := t.modify np fun q => { q with state := .embryo, pid := k.nextpid }
      nextpid := k.nextpid + 1 }.setStage p (some (.allocated, np))
    ∃ l', k'.Inv l' ∧ (∀ i, l.ready i <+: l'.ready i) ∧
      k'.ptable.timeToReset = k.ptable.timeToReset := by
  intro k'
  obtain ⟨unused, inside, proc', time', rest, placed'⟩ := inv.placed.allocate removed
    (fun q => { q with state := .embryo, pid := k.nextpid }) (fun _ => rfl) fun _ => rfl
  have quiet : k'.Discarded = k.Discarded :=
    discarded_update whole (some (.allocated, np)) rfl (by simp) (by simp)
  have elsewhere : ∀ {q : Slot}, q ≠ np → k'.ptable.proc q = k.ptable.proc q := fun different => by
    simp [k', setStage, PTable.modify_proc_of_ne _ _ different, proc']
  have here : k'.ptable.proc np =
      { k.ptable.proc np with state := .embryo, pid := k.nextpid } := by
    simp [k', setStage, proc']
  refine ⟨{ l with free := rest }, ?_, fun i => List.prefix_refl _, time'⟩
  refine inv.forkStep np (some (.allocated, np)) current ?_ ?_ (.inl unused)
    (fun q different => by rw [elsewhere different]) (by simp [here]) rfl rfl ?_ ?_ ?_ ?_
  · rw [quiet]
    exact placed'
  · exact fun q stage inProgress => absurd inProgress (inv.not_owned unused inside q stage)
  · rintro stage q equal
    cases equal
    exact ⟨rfl, by simp [here, ForkStage.slotState]⟩
  · intro q r equal nonzero
    have fresh : ∀ {q : Slot}, q ≠ np → (k'.ptable.proc q).pid ≠ k.nextpid := by
      intro q different
      rw [elsewhere different]
      exact (inv.pid_range q).2.ne
    by_cases sameQ : q = np <;> by_cases sameR : r = np
    · rw [sameQ, sameR]
    · exact absurd (by rw [← equal, sameQ, here]) (fresh sameR)
    · exact absurd (by rw [equal, sameR, here]) (fresh sameQ)
    · rw [elsewhere sameQ] at equal nonzero
      rw [elsewhere sameR] at equal
      exact inv.pid_inj q r equal nonzero
  · intro q
    have range := inv.pid_range q
    have bound : k'.nextpid = k.nextpid + 1 := rfl
    by_cases same : q = np
    · rw [same, here, bound]
      simp only
      omega
    · rw [elsewhere same, bound]
      omega
  · intro q used
    by_cases same : q = np
    · have range := inv.pid_range q
      rw [same, here]
      simp only
      omega
    · rw [elsewhere same] at used ⊢
      exact inv.pid_live q used

/-- A step of a `fork` in progress on its own slot, which keeps its pid. -/
theorem Inv.forkMove {new : Proc} (stage' : Option (ForkStage × Slot)) (current : k.proc c = some p)
    (inProgress : k.forking p = some (stage, np))
    (table : k'.ptable.proc = update k.ptable.proc np new)
    (placed : k'.ptable.Placed l' k'.Discarded) (pid : new.pid = (k.ptable.proc np).pid)
    (notRunning : new.state ≠ .running)
    (used : new.state ≠ .unused → (k.ptable.proc np).state ≠ .unused) (proc : k'.proc = k.proc)
    (forking : k'.forking = update k.forking p stage') (nextpid : k'.nextpid = k.nextpid)
    (next : ∀ stage q, stage' = some (stage, q) → q = np ∧ new.state = stage.slotState) :
    k'.Inv l' := by
  have here : k'.ptable.proc np = new := by rw [table, update_self]
  have elsewhere : ∀ q ≠ np, k'.ptable.proc q = k.ptable.proc q := fun q different => by
    rw [table, update_of_ne different]
  have allPid : ∀ q, (k'.ptable.proc q).pid = (k.ptable.proc q).pid := by
    intro q
    by_cases same : q = np
    · rw [same, here, pid]
    · rw [elsewhere q same]
  have allUsed : ∀ q, (k'.ptable.proc q).state ≠ .unused → (k.ptable.proc q).state ≠ .unused := by
    intro q
    by_cases same : q = np
    · rw [same, here]
      exact used
    · rw [elsewhere q same]
      exact id
  obtain ⟨pidInj, pidRange, pidLive⟩ := inv.pids nextpid allPid allUsed
  refine inv.forkStep np stage' current placed
    (fun q _ other => inv.owner q p _ _ np other inProgress) ?_
    (fun q different => by rw [elsewhere q different]) (by rwa [here]) proc forking
    (by rwa [here]) pidInj pidRange pidLive
  rw [inv.stage p stage np inProgress]
  cases stage <;> simp [ForkStage.slotState]

/-- A `fork` in progress works on its slot without changing the slot's state. -/
theorem Inv.move_advance {stage' : ForkStage} {kont : Slot → Kont} (current : k.proc c = some p)
    (inProgress : k.forking p = some (stage, np)) (before : stage.slotState = .embryo)
    (after : stage'.slotState = .embryo) (state : ∀ q, (f q).state = q.state)
    (pid : ∀ q, (f q).pid = q.pid) (valid : ∀ q, (f q).priority = q.priority ∨ (f q).priority = 1) :
    let k' := { k with ptable := k.ptable.modify np f, kont := kont }.setStage p (some (stage', np))
    k'.Inv l := by
  intro k'
  have embryo : (k.ptable.proc np).state = .embryo := (inv.stage p stage np inProgress).trans before
  have off : l.Off np := inv.placed.off (by simp [embryo]) (by simp [embryo])
  have notDiscarded : ∀ {stage : ForkStage}, stage.slotState = .embryo →
      ∀ locked (q : Slot), some (stage, np) ≠ some (.discarded locked, q) := by
    rintro stage embryo locked q equal
    cases equal
    cases embryo
  have quiet : k'.Discarded = k.Discarded :=
    discarded_update inProgress (some (stage', np)) rfl (notDiscarded before)
      (notDiscarded after)
  refine inv.forkMove (some (stage', np)) current inProgress rfl ?_ (pid _)
    (by simp [state, embryo]) (by simp [embryo]) rfl rfl rfl ?_
  · rw [quiet]
    have placed : (k.ptable.modify np f).Placed l k.Discarded := by
      refine inv.placed.modify_off np f off (by simp [state, embryo]) (by simp [state, embryo]) ?_
        fun _ _ => .rfl
      rcases valid (k.ptable.proc np) with same | one
      · rw [same]
        exact inv.placed.valid np
      · exact ⟨1, by simp [one]⟩
    exact placed
  · rintro stage₂ q equal
    cases equal
    exact ⟨rfl, by rw [state, embryo, after]⟩

/-- A failing `fork` marks its slot unused. -/
theorem Inv.move_discard (current : k.proc c = some p) (inProgress : k.forking p = some (stage, np))
    (before : stage.slotState = .embryo) :
    let k' := { k with ptable := k.ptable.setState np .unused }.setStage p
      (some (.discarded locked, np))
    k'.Inv l := by
  intro k'
  have embryo : (k.ptable.proc np).state = .embryo := (inv.stage p stage np inProgress).trans before
  have off : l.Off np := inv.placed.off (by simp [embryo]) (by simp [embryo])
  have target : ∀ stage q, some (ForkStage.discarded locked, np) = some (stage, q) →
      q = np ∧ ProcState.unused = stage.slotState := by
    rintro stage q equal
    cases equal
    exact ⟨rfl, rfl⟩
  refine inv.forkMove (some (.discarded locked, np)) current inProgress rfl ?_ rfl (by simp)
    (by simp) rfl rfl rfl target
  have discarded : k'.Discarded np := ⟨p, locked, by simp [k', setStage]⟩
  have placed : (k.ptable.setState np .unused).Placed l k'.Discarded :=
    inv.placed.modify_off np _ off (fun _ => discarded) (by simp) (inv.placed.valid np)
      fun q different =>
        discarded_of_ne inProgress _ rfl (fun stage q equal => (target stage q equal).1) different
  exact placed

/-- The `AddFreeList` call of a failing `fork`. -/
theorem Inv.move_addFreeList (current : k.proc c = some p)
    (inProgress : k.forking p = some (.discarded locked, np)) :
    let k' := { k with ptable := (k.ptable.addFreeList (some np)).2 }.setStage p none
    k'.Inv { l with free := np :: l.free } ∧
      k'.ptable.timeToReset = k.ptable.timeToReset := by
  intro k'
  have unused : (k.ptable.proc np).state = .unused := inv.stage p _ np inProgress
  have table : k'.ptable.proc = update k.ptable.proc np (k.ptable.proc np) := by
    simp [k', setStage, PTable.addFreeList_some]
  have within : ¬ k'.Discarded np := by
    rintro ⟨q, locked', other⟩
    by_cases same : q = p
    · subst same
      simp [k', setStage] at other
    · simp only [k', setStage, update_of_ne same] at other
      exact same (inv.owner q p _ _ np other inProgress)
  refine ⟨inv.forkMove none current inProgress table ?_ rfl (by simp [unused]) id rfl rfl rfl
    (by simp), by simp [k', setStage, PTable.addFreeList_some]⟩
  exact inv.placed.addFreeList unused ⟨p, locked, inProgress⟩ within fun q different =>
    discarded_of_ne inProgress none rfl (by simp) different

/-- `fork` makes its child runnable. -/
theorem Inv.move_publish (current : k.proc c = some p)
    (inProgress : k.forking p = some (.prepared, np)) (made : k.ptable.makeRunnable np = some t) :
    let k' := { k with ptable := t }.setStage p none
    ∃ l', k'.Inv l' ∧ (∀ i, l.ready i <+: l'.ready i) ∧
      k'.ptable.timeToReset = k.ptable.timeToReset := by
  intro k'
  have embryo : (k.ptable.proc np).state = .embryo := inv.stage p _ np inProgress
  obtain ⟨t', i, enqueued, placed', proc', time'⟩ :=
    inv.placed.makeRunnable (p := np) (by simp [embryo]) (by simp [embryo])
  obtain rfl : t = t' := by simpa using made.symm.trans enqueued
  have quiet : k'.Discarded = k.Discarded :=
    discarded_update inProgress none rfl (by simp) (by simp)
  refine ⟨l.enqueue i np, ?_, (l.grows_enqueue i np).2, time'⟩
  refine inv.forkMove none current inProgress proc' ?_ rfl (by simp) (by simp [embryo]) rfl rfl
    rfl (by simp)
  rw [quiet]
  exact placed'

omit inv in
/-- Waking and leaving: the slots other than `p` settle. -/
theorem settles_of_eq (same : k'.ptable.proc q = k.ptable.proc q) : Settles k k' q := by
  rw [Settles, same]
  exact ⟨rfl, .inl rfl⟩

/-- A running process that writes its own slot and calls `sched`. -/
theorem Inv.move_sched [DecidableEq Cpu] {kont : Kont} (current : k.proc c = some p)
    (whole : k.forking p = none) (asleep : ∀ q, (f q).state = .sleeping)
    (pid : ∀ q, (f q).pid = q.pid) (priority : ∀ q, (f q).priority = q.priority) :
    ({ k with ptable := k.ptable.modify p f }.sched c p kont).Inv l := by
  have running : (k.ptable.proc p).state = .running := (inv.running p).mpr ⟨c, current⟩
  have off : l.Off p := inv.placed.off (by simp [running]) (by simp [running])
  have placed : (k.ptable.modify p f).Placed l k.Discarded :=
    inv.placed.modify_off p f off (by simp [asleep]) (by simp [asleep])
      (by rw [priority]; exact inv.placed.valid p) fun _ _ => .rfl
  refine inv.leave current placed ?_ ?_ ?_ ?_ rfl rfl rfl
  · intro q different
    exact settles_of_eq (PTable.modify_proc_of_ne _ _ different)
  · simp [sched, pid]
  · simp [sched, asleep]
  · exact fun forks => absurd whole forks

theorem Inv.move_yield [DecidableEq Cpu] (current : k.proc c = some p)
    (made : k.ptable.makeRunnable p = some t) :
    ∃ l', ({ k with ptable := t }.sched c p .run).Inv l' ∧ (∀ i, l.ready i <+: l'.ready i) ∧
      t.timeToReset = k.ptable.timeToReset := by
  have running : (k.ptable.proc p).state = .running := (inv.running p).mpr ⟨c, current⟩
  obtain ⟨t', i, enqueued, placed', proc', time'⟩ :=
    inv.placed.makeRunnable (p := p) (by simp [running]) (by simp [running])
  obtain rfl : t = t' := by simpa using made.symm.trans enqueued
  refine ⟨l.enqueue i p, ?_, (l.grows_enqueue i p).2, time'⟩
  refine inv.leave current placed' ?_ ?_ ?_ ?_ rfl rfl rfl
  · intro q different
    apply settles_of_eq
    simp [sched, proc', PTable.setState, PTable.modify_proc_of_ne _ _ different]
  · simp [sched, proc', PTable.setState]
  · simp [sched, proc', PTable.setState]
  · simp [sched, proc', PTable.setState]

theorem Inv.move_exit [DecidableEq Cpu] (current : k.proc c = some p) (whole : k.forking p = none)
    (done : k.ptable.exitLocked p k.initproc = some t) :
    ∃ l', ({ k with ptable := t }.sched c p .run).Inv l' ∧ (∀ i, l.ready i <+: l'.ready i) ∧
      t.timeToReset = k.ptable.timeToReset := by
  have running : (k.ptable.proc p).state = .running := (inv.running p).mpr ⟨c, current⟩
  obtain ⟨t', l', exited, placed', grows, proc', time'⟩ :=
    inv.placed.exitLocked k.initproc running
  obtain rfl : t = t' := by simpa using done.symm.trans exited
  refine ⟨l', ?_, grows.2, time'⟩
  refine inv.leave current placed' ?_ ?_ ?_ ?_ rfl rfl rfl
  · intro q different
    simp only [Settles, sched, proc', PTable.exited_pid, true_and]
    exact k.ptable.exited_state_of_ne k.initproc different
  · simp [sched, proc']
  · simp [sched, proc']
  · exact fun forks => absurd whole forks

theorem Inv.move_wakeup {chan : Chan} (woke : k.ptable.wakeup1 (some chan) = some t) :
    ∃ l', { k with ptable := t }.Inv l' ∧ (∀ i, l.ready i <+: l'.ready i) ∧
      t.timeToReset = k.ptable.timeToReset := by
  obtain ⟨t', l', woken, placed', grows, proc', time'⟩ := inv.placed.wakeup1 (some chan)
  obtain rfl : t = t' := by simpa using woke.symm.trans woken
  refine ⟨l', inv.quiet placed' ?_ rfl rfl rfl, grows.2, time'⟩
  intro q
  simp only [Settles, proc', Proc.woken_pid, true_and]
  exact (k.ptable.proc q).woken_state (some chan)

theorem Inv.move_kill {result : Int} (killed : k.ptable.kill pid = some (result, t)) :
    ∃ l', { k with ptable := t }.Inv l' ∧ (∀ i, l.ready i <+: l'.ready i) ∧
      t.timeToReset = k.ptable.timeToReset := by
  cases found : k.ptable.slotOfPid pid with
  | none =>
    obtain ⟨-, rfl⟩ : -1 = result ∧ k.ptable = t := by simpa [PTable.kill, found] using killed
    exact ⟨l, inv, fun i => List.prefix_refl _, rfl⟩
  | some p =>
    obtain ⟨t', l', done, placed', grows, proc', time'⟩ := inv.placed.kill_some found
    obtain ⟨-, rfl⟩ : result = 0 ∧ t = t' := by simpa using killed.symm.trans done
    refine ⟨l', inv.quiet placed' ?_ rfl rfl rfl, grows.2, time'⟩
    intro q
    by_cases same : q = p
    · subst same
      by_cases asleep : (k.ptable.proc q).state = .sleeping <;> simp [Settles, proc', asleep]
    · exact settles_of_eq (by simp [proc', same])

/-- A running process changes its own priority only. -/
theorem Inv.move_setpriority {priority : Int} (current : k.proc c = some p) (low : 0 ≤ priority)
    (high : priority ≤ 2) :
    { k with ptable := (k.ptable.setpriority (k.ptable.proc p).pid priority).2 }.Inv l := by
  have running : (k.ptable.proc p).state = .running := (inv.running p).mpr ⟨c, current⟩
  have found := inv.slotOfPid (p := p) (by simp [running])
  have off : l.Off p := inv.placed.off (by simp [running]) (by simp [running])
  have valid : ∃ i, PTable.readyIndex priority = some i := by
    refine ⟨⟨priority.toNat, by omega⟩, ?_⟩
    rw [PTable.readyIndex_eq_some_iff]
    simp only
    omega
  have placed : (k.ptable.modify p fun q => { q with priority }).Placed l k.Discarded :=
    inv.placed.modify_off p _ off (by simp [running]) (by simp [running]) valid fun _ _ => .rfl
  simp only [PTable.setpriority, found]
  refine inv.quiet placed ?_ rfl rfl rfl
  intro q
  by_cases same : q = p
  · subst same
    simp [Settles]
  · exact settles_of_eq (by simp [PTable.modify_proc_of_ne _ _ same])

theorem Inv.move_trap (p : Slot) :
    { k with ptable := k.ptable.modify p fun q => { q with killed := true } }.Inv l := by
  have placed : (k.ptable.modify p fun q => { q with killed := true }).Placed l k.Discarded :=
    inv.placed.modify p _ rfl rfl
  refine inv.quiet placed ?_ rfl rfl rfl
  intro q
  by_cases same : q = p
  · subst same
    simp [Settles]
  · exact settles_of_eq (by simp [PTable.modify_proc_of_ne _ _ same])

/-- Every move keeps the invariant and does to the queues what its event says. -/
theorem Inv.move [DecidableEq Cpu] {event : Event} (move : Move k event k') :
    ∃ l', k'.Inv l' ∧ k.Evolves l event k' l' := by
  have still : ∀ i, l.ready i <+: l.ready i := fun i => List.prefix_refl _
  cases move with
  | acquire | release =>
    exact ⟨l, inv.quiet inv.placed (fun _ => settles_of_eq rfl) rfl rfl rfl, still, rfl⟩
  | dispatch c p t lock f idle ready dispatched resumed =>
    rcases resumed with ⟨rfl, -⟩ | ⟨rfl, -⟩
    · exact inv.move_dispatch idle ready dispatched (fun _ => rfl) (fun _ => rfl) fun _ => rfl
    · exact inv.move_dispatch idle ready dispatched (fun _ => rfl) (fun _ => rfl) fun _ => rfl
  | reap c p pid t current scan => exact inv.move_reap scan
  | waitFail c p current scan =>
    exact ⟨l, inv.quiet inv.placed (fun _ => settles_of_eq rfl) rfl rfl rfl, still, rfl⟩
  | waitSleep c p current whole scan | sleep c p address current whole =>
    exact ⟨l, inv.move_sched current whole (fun _ => rfl) (fun _ => rfl) fun _ => rfl, still, rfl⟩
  | forkFull => exact ⟨l, inv, still, rfl⟩
  | alloc c p np t current whole removed room => exact inv.move_alloc current whole removed
  | advance c p np kont f stage stage' current inProgress way =>
    refine ⟨l, ?_, still, rfl⟩
    rcases way with ⟨rfl, rfl, rfl, -⟩ | ⟨rfl, rfl, rfl, -⟩ | ⟨rfl, rfl, rfl, -⟩ |
      ⟨rfl, rfl, rfl, -⟩
    · exact inv.move_advance current inProgress rfl rfl (fun _ => rfl) (fun _ => rfl)
        fun _ => .inl rfl
    · exact inv.move_advance current inProgress rfl rfl (fun _ => rfl) (fun _ => rfl)
        fun _ => .inl rfl
    · exact inv.move_advance current inProgress rfl rfl (fun _ => rfl) (fun _ => rfl)
        fun _ => .inl rfl
    · exact inv.move_advance current inProgress rfl rfl (fun _ => rfl) (fun _ => rfl)
        fun _ => .inr rfl
  | discard c p np stage locked current inProgress way =>
    refine ⟨l, inv.move_discard current inProgress ?_, still, rfl⟩
    rcases way with ⟨rfl, -⟩ | ⟨rfl, -⟩ <;> rfl
  | publish c p np t current inProgress made => exact inv.move_publish current inProgress made
  | addFreeList c p np locked current inProgress =>
    obtain ⟨inv', time'⟩ := inv.move_addFreeList current inProgress
    exact ⟨_, inv', still, time'⟩
  | exit c p t current whole notInit done => exact inv.move_exit current whole done
  | yield c p t current made => exact inv.move_yield current made
  | wakeup chan t woke => exact inv.move_wakeup woke
  | kill pid result t killed => exact inv.move_kill killed
  | setpriority c p priority current low high =>
    refine ⟨l, inv.move_setpriority current low high, still, ?_⟩
    simp only [PTable.setpriority]
    split <;> rfl
  | trap c p current => exact ⟨l, inv.move_trap p, still, rfl⟩

end

/-! ## Boot -/

/-- The loop of `userinit` fills the free list. -/
theorem freeUnused_placed (slots : List Slot) {out : Slot → Prop} (placed : t.Placed l out)
    (unused : ∀ p, (t.proc p).state = .unused) (outside : ∀ p ∈ slots, out p)
    (distinct : slots.Nodup) :
    ∃ l', (slots.foldl freeUnused t).Placed l' (fun p => out p ∧ p ∉ slots) ∧
      (slots.foldl freeUnused t).proc = t.proc ∧
      (slots.foldl freeUnused t).timeToReset = t.timeToReset := by
  induction slots generalizing t l out with
  | nil => exact ⟨l, by simpa using placed, rfl, rfl⟩
  | cons p rest ih =>
    obtain ⟨notLater, distinct⟩ := List.nodup_cons.mp distinct
    have step : freeUnused t p = (t.addFreeList (some p)).2 := by simp [freeUnused, unused p]
    have sameProc : (freeUnused t p).proc = t.proc := by rw [step, PTable.addFreeList_some]
    have sameTime : (freeUnused t p).timeToReset = t.timeToReset := by
      rw [step, PTable.addFreeList_some]
    have placed₁ : (freeUnused t p).Placed { l with free := p :: l.free }
        fun q => out q ∧ q ≠ p := by
      rw [step]
      exact placed.addFreeList (unused p) (outside p List.mem_cons_self) (by simp)
        fun q different => by simp [different]
    obtain ⟨l', placed', proc', time'⟩ := ih placed₁ (by simpa [sameProc] using unused)
      (fun q member => ⟨outside q (List.mem_cons_of_mem p member), by
        rintro rfl
        exact notLater member⟩) distinct
    refine ⟨l', ?_, proc'.trans sameProc, time'.trans sameTime⟩
    simpa [and_assoc] using placed'

/-- The state after `userinit`. -/
structure Booted (k : Kernel Cpu) (l : Lists) : Prop where
  inv : k.Inv l
  runnable : (k.ptable.proc k.initproc).state = .runnable
  pid : (k.ptable.proc k.initproc).pid = 1
  parent : (k.ptable.proc k.initproc).parent = none
  others : ∀ p ≠ k.initproc, k.ptable.proc p = zeroed.proc p
  time : k.ptable.timeToReset = 0
  whole : ∀ p, k.forking p = none
  spared : (k.ptable.proc k.initproc).killed = false

/-- `userinit` succeeds.  The first process is then the only one, with pid 1
and runnable, and the invariant holds. -/
theorem userinit_inv : ∃ (k : Kernel Cpu) (l : Lists), userinit = some k ∧ Booted k l := by
  have zero : zeroed.Placed ⟨[], fun _ => []⟩ fun _ => True := by
    refine ⟨⟨rfl, fun _ => rfl, by simp, by simp⟩, ?_, ?_, ?_⟩
    · simp
    · simp [zeroed]
    · exact fun p => ⟨0, by simp [zeroed]⟩
  obtain ⟨l, placed, procs, time⟩ := freeUnused_placed (List.finRange nproc) zero (fun _ => rfl)
    (by simp) (List.nodup_finRange nproc)
  obtain ⟨p, t, removed⟩ : ∃ p t,
      ((List.finRange nproc).foldl freeUnused zeroed).removeFreeList = (some p, t) := by
    cases free : l.free with
    | nil =>
      have member : (0 : Slot) ∈ l.free := (placed.mem_free 0).mpr ⟨by rw [procs]; rfl, by simp⟩
      simp [free] at member
    | cons p rest =>
      obtain ⟨t, popped, -⟩ := PTable.removeFreeList_cons placed.rep free
      exact ⟨p, t, popped⟩
  obtain ⟨-, -, proc₁, time₁, rest, placed₁⟩ := placed.allocate removed
    (fun q => { q with state := .embryo, pid := 1 }) (fun _ => rfl) fun _ => rfl
  have off := placed₁.off (p := p) (by simp) (by simp)
  have placed₂ : ((t.modify p _).modify p fun q => { q with priority := 1 }).Placed
      ⟨rest, l.ready⟩ fun _ => False :=
    placed₁.modify_off p _ off (by simp) (by simp) ⟨1, by simp⟩ (by simp)
  obtain ⟨t', i, made, placed', proc', time'⟩ :=
    placed₂.makeRunnable (p := p) (by simp) (by simp)
  have here : t'.proc p =
      { zeroed.proc p with state := .runnable, pid := 1, priority := 1 } := by
    simp [proc', PTable.setState, proc₁, procs]
  have elsewhere : ∀ {q : Slot}, q ≠ p → t'.proc q = zeroed.proc q := fun different => by
    simp [proc', PTable.setState, PTable.modify_proc_of_ne _ _ different, proc₁, procs]
  have zeroPid : ∀ {q : Slot}, q ≠ p → (t'.proc q).pid = 0 := fun different => by
    rw [elsewhere different]
    rfl
  have booted : userinit =
      some (⟨t', none, fun _ => none, 2, p, fun _ => .run, fun _ => none⟩ : Kernel Cpu) := by
    unfold userinit
    rw [removed]
    change Option.bind (PTable.makeRunnable _ p) _ = _
    rw [made]
    rfl
  refine ⟨_, Lists.enqueue ⟨rest, l.ready⟩ i p, booted, ⟨?_, ?_, ?_, ?_, ?_, ?_, ?_, ?_, ?_⟩,
    by simp [here], by simp [here], by simp [here, zeroed], fun q => elsewhere, ?_,
    fun _ => rfl, by simp [here, zeroed]⟩
  · convert placed' using 1
    funext q
    simp [Discarded]
  · intro q
    by_cases same : q = p
    · simp [same, here]
    · simp [elsewhere same, zeroed]
  · simp
  · simp
  · simp
  · simp
  · intro q r equal nonzero
    by_cases sameQ : q = p <;> by_cases sameR : r = p
    · rw [sameQ, sameR]
    · exact absurd (equal.trans (zeroPid sameR)) nonzero
    · exact absurd (zeroPid sameQ) nonzero
    · exact absurd (zeroPid sameQ) nonzero
  · intro q
    by_cases same : q = p
    · simp [same, here]
    · simp [zeroPid same]
  · intro q used
    by_cases same : q = p
    · simp [same, here]
    · rw [elsewhere same] at used
      exact absurd rfl used
  · exact (time'.trans (time₁.trans time))

theorem Booted.of_userinit (booted : userinit = some k) : ∃ l, Booted k l := by
  obtain ⟨first, l, same, start⟩ := @userinit_inv Cpu
  obtain rfl : k = first := by simpa using booted.symm.trans same
  exact ⟨l, start⟩

/-- The invariant holds in every state of every run. -/
theorem Reachable.inv [DecidableEq Cpu] (reachable : k.Reachable) : ∃ l, k.Inv l := by
  obtain ⟨events, start, booted, run⟩ := reachable
  obtain ⟨l, first⟩ := Booted.of_userinit booted
  refine run.invariant (fun _ k => ∃ l, k.Inv l) ⟨l, first.inv⟩ ?_
  rintro events event middle last ⟨l, inv⟩ edge
  obtain ⟨l', inv', -⟩ := inv.move (step_move edge)
  exact ⟨l', inv'⟩

end Kernel

end Xv6.Process
