import Xv6.Process.ExitWait

/-!
# `kill` and the `killed` field

`kill` looks for a slot with the given pid in any state.  A slot that was never used
or has been reaped has pid 0, and one that a failed `fork` gave back keeps its pid; so
`kill` affects exactly the named live process if and only if no unused slot has the pid.

`allocproc` does not clear `killed`, only `wait` does.  A mark that an unused slot
carries passes to the next process of the slot.  Along a run in which `kill` never hits
an unused slot and no `fork` fails after its new process was marked, a process is marked
only by a `kill` of its pid or by its own fault.
-/

namespace Xv6.Process

open Linked Labelled Function

/-! ## One call of `kill` -/

namespace PTable

variable {t : PTable} {l : Lists} {out : Slot → Prop} {p : Slot} {pid : Int}

theorem pid_of_slotOfPid (found : t.slotOfPid pid = some p) : (t.proc p).pid = pid := by
  simpa using List.find?_some found

theorem kill_of_slotOfPid_eq_none (absent : t.slotOfPid pid = none) :
    t.kill pid = some (-1, t) := by
  simp [kill, absent]

end PTable

namespace Kernel

variable {Cpu : Type} {k k' : Kernel Cpu} {l : Lists}

/-- What a run shows of the calls that bear on `killed`. -/
inductive Call
  /-- `allocproc` handed out the pid. -/
  | allocated (pid : Int)
  /-- `kill` was called with the pid. -/
  | killed (pid : Int)
  /-- The process with the pid faulted. -/
  | trapped (pid : Int)
  | other
  deriving DecidableEq

/-- The process with the pid has been killed or has faulted since it got its pid. -/
def Call.since (pid : Int) : List Call → Bool
  | [] => false
  | .allocated new :: older => new ≠ pid && Call.since pid older
  | .killed named :: older => named = pid || Call.since pid older
  | .trapped faulty :: older => faulty = pid || Call.since pid older
  | .other :: older => Call.since pid older

/-- The call that an action makes. -/
def call (k : Kernel Cpu) : Action Cpu → Call
  | .allocproc _ => if k.ptable.pFreeList = none then .other else .allocated k.nextpid
  | .kill pid => .killed pid
  | .trap c =>
    match k.caller c with
    | some p => .trapped (k.ptable.proc p).pid
    | none => .other
  | _ => .other

/-- The step relation, labelled by the call. -/
def CallStep [DecidableEq Cpu] (k : Kernel Cpu) (call : Call) (k' : Kernel Cpu) : Prop :=
  ∃ action event, k.step action = some (event, k') ∧ call = k.call action

/-- `kill` is not called with the pid of an unused slot, and no `fork` fails after its new process
was marked. -/
def careful [DecidableEq Cpu] (k : Kernel Cpu) : Action Cpu → Bool
  | .kill pid => ∀ p, (k.ptable.proc p).state = .unused → (k.ptable.proc p).pid ≠ pid
  | .kalloc c false | .copyuvm c false =>
    (k.forker c).all fun (_, _, np) => !(k.ptable.proc np).killed
  | _ => true

/-- The steps of a careful run. -/
def CarefulStep [DecidableEq Cpu] (k : Kernel Cpu) (call : Call) (k' : Kernel Cpu) : Prop :=
  ∃ action event, k.step action = some (event, k') ∧ call = k.call action ∧ k.careful action = true

/-- No unused slot is marked, and every marked process was killed or has faulted. -/
structure Marked (k : Kernel Cpu) (calls : List Call) : Prop where
  unused : ∀ p, (k.ptable.proc p).state = .unused → (k.ptable.proc p).killed = false
  since : ∀ p, (k.ptable.proc p).state ≠ .unused → (k.ptable.proc p).killed = true →
    Call.since (k.ptable.proc p).pid calls = true

end Kernel

namespace Proc

/-- A change of a slot that marks nobody. -/
def Unmarked (q q' : Proc) : Prop :=
  q'.killed = false ∨
    q'.killed = q.killed ∧ q'.pid = q.pid ∧ (q'.state = .unused ↔ q.state = .unused)

@[simp]
theorem woken_killed (chan : Option Chan) (q : Proc) : (q.woken chan).killed = q.killed := by
  unfold woken
  split <;> rfl

@[simp]
theorem adopted_killed (self initproc : Slot) (q : Proc) :
    (q.adopted self initproc).killed = q.killed := by
  unfold adopted
  split <;> rfl

theorem unmarked_woken (chan : Option Chan) (q : Proc) : q.Unmarked (q.woken chan) := by
  refine .inr ⟨q.woken_killed chan, q.woken_pid chan, ?_⟩
  rcases q.woken_state chan with same | ⟨asleep, awake⟩
  · rw [same]
  · simp [asleep, awake]

end Proc

theorem PTable.unmarked_exited (t : PTable) {self : Slot} (initproc q : Slot)
    (running : (t.proc self).state = .running) :
    (t.proc q).Unmarked (t.exited self initproc q) := by
  have killed : (t.exited self initproc q).killed = (t.proc q).killed := by
    unfold exited
    by_cases zombie : ∃ r, (t.proc r).parent = some self ∧ (t.proc r).state = .zombie <;>
      by_cases same : q = self <;> simp [zombie, same]
  refine .inr ⟨killed, t.exited_pid self initproc q, ?_⟩
  by_cases same : q = self
  · subst same
    simp [running]
  · rcases t.exited_state_of_ne initproc same with kept | ⟨asleep, awake⟩
    · rw [kept]
    · simp [asleep, awake]

namespace Kernel

variable {Cpu : Type} {k k' : Kernel Cpu} {l : Lists} {p : Slot} {c : Cpu} {event : Event}
  {calls : List Call}

theorem Marked.unmarked (marked : k.Marked calls)
    (unmarked : ∀ q, (k.ptable.proc q).Unmarked (k'.ptable.proc q)) :
    k'.Marked (.other :: calls) := by
  constructor
  · intro p unused
    rcases unmarked p with clear | ⟨same, -, state⟩
    · exact clear
    · rw [same]
      exact marked.unused p (state.mp unused)
  · intro p used isMarked
    rcases unmarked p with clear | ⟨same, pid, state⟩
    · simp [clear] at isMarked
    · rw [same] at isMarked
      rw [pid]
      exact marked.since p (fun unused => used (state.mpr unused)) isMarked

/-- A step that writes one slot, without marking it. -/
theorem unmarked_modify {f : Proc → Proc} (p : Slot)
    (table : k'.ptable.proc = (k.ptable.modify p f).proc)
    (here : (k.ptable.proc p).Unmarked (f (k.ptable.proc p))) (q : Slot) :
    (k.ptable.proc q).Unmarked (k'.ptable.proc q) := by
  rw [table]
  by_cases same : q = p
  · subst same
    rwa [PTable.modify_proc_self]
  · rw [PTable.modify_proc_of_ne _ _ same]
    exact .inr ⟨rfl, rfl, .rfl⟩

theorem unmarked_of_eq (table : k'.ptable.proc = k.ptable.proc) (q : Slot) :
    (k.ptable.proc q).Unmarked (k'.ptable.proc q) := by
  rw [table]
  exact .inr ⟨rfl, rfl, .rfl⟩

/-- A call that marks one process, with the call that it shows. -/
theorem Marked.mark {named : Call} {new : Proc} (marked : k.Marked calls)
    (table : k'.ptable.proc = update k.ptable.proc p new) (stays : new.state ≠ .unused)
    (shown : named = .killed new.pid ∨ named = .trapped new.pid) : k'.Marked (named :: calls) := by
  have older : ∀ pid, Call.since pid calls = true → Call.since pid (named :: calls) = true := by
    intro pid since
    rcases shown with rfl | rfl <;> simp [Call.since, since]
  constructor
  · intro q unused
    rw [table] at unused ⊢
    by_cases same : q = p
    · subst same
      exact absurd (by simpa using unused) stays
    · rw [update_of_ne same] at unused ⊢
      exact marked.unused q unused
  · intro q used isMarked
    rw [table] at used isMarked ⊢
    by_cases same : q = p
    · subst same
      rw [update_self]
      rcases shown with rfl | rfl <;> simp [Call.since]
    · rw [update_of_ne same] at used isMarked ⊢
      exact older _ (marked.since q used isMarked)

/-- `allocproc` hands out a pid that no process has, on a slot that is not marked. -/
theorem Marked.alloc {t : PTable} {np : Slot} (marked : k.Marked calls) (inv : k.Inv l)
    (removed : k.ptable.removeFreeList = (some np, t))
    (forking : Slot → Option (ForkStage × Slot)) :
    Marked { k with
      ptable := t.modify np fun q => { q with state := .embryo, pid := k.nextpid }
      nextpid := k.nextpid + 1
      forking := forking } (.allocated k.nextpid :: calls) := by
  obtain ⟨unused, -, proc', -⟩ := inv.placed.allocate removed
    (fun q => { q with state := .embryo, pid := k.nextpid }) (fun _ => rfl) fun _ => rfl
  have clear := marked.unused np unused
  constructor
  · intro q isUnused
    by_cases same : q = np
    · subst same
      simp at isUnused
    · simp only [PTable.modify_proc_of_ne _ _ same, proc'] at isUnused ⊢
      exact marked.unused q isUnused
  · intro q used isMarked
    by_cases same : q = np
    · subst same
      simp [proc', clear] at isMarked
    · simp only [PTable.modify_proc_of_ne _ _ same, proc'] at used isMarked ⊢
      have old : k.nextpid ≠ (k.ptable.proc q).pid := (inv.pid_range q).2.ne'
      simp [Call.since, old, marked.since q used isMarked]

variable [DecidableEq Cpu]

attribute [local simp] Option.bind_eq_some_iff

/-- A turn of `wait` marks nobody. -/
theorem Inv.waitTurn_unmarked (inv : k.Inv l) (call : k.caller c = some p)
    (turn : k.waitTurn c p = (event, k')) (q : Slot) :
    (k.ptable.proc q).Unmarked (k'.ptable.proc q) := by
  obtain ⟨current, -⟩ := caller_eq_some call
  have running : (k.ptable.proc p).state = .running := (inv.running p).mpr ⟨c, current⟩
  unfold waitTurn at turn
  split at turn <;> rename_i scan <;> cases turn
  · obtain ⟨z, -, -, -, -, proc', -⟩ :=
      inv.placed.waitScan_reaped inv.zombie_not_discarded scan
    exact unmarked_modify z (f := fun q => { q with
      state := .unused, pid := 0, parent := none, killed := false }) proc' (.inl rfl) q
  · exact unmarked_of_eq rfl q
  · exact unmarked_modify p rfl (.inr ⟨rfl, rfl, by simp [running]⟩) q

variable {action : Action Cpu} {call : Call} {start : Kernel Cpu}

/-- A careful step that is not a call marks nobody. -/
theorem Inv.step_unmarked (inv : k.Inv l) (taken : k.step action = some (event, k'))
    (plain : k.call action = .other) (careful : k.careful action = true) (q : Slot) :
    (k.ptable.proc q).Unmarked (k'.ptable.proc q) := by
  have running : ∀ {c : Cpu} {p : Slot}, k.proc c = some p →
      (k.ptable.proc p).state = .running := fun current => (inv.running _).mpr ⟨_, current⟩
  cases action with
  | acquire c =>
    simp only [Kernel.step, Option.bind_eq_bind, Option.bind_eq_some_iff] at taken
    obtain ⟨-, -, taken⟩ := taken
    cases taken
    exact unmarked_of_eq rfl q
  | iterate c =>
    simp [Kernel.step] at taken
    obtain ⟨⟨-, -, ready⟩, p, t, dispatched, resumed⟩ := taken
    obtain ⟨p', i, t', -, taken, runnable, -, proc', -⟩ := inv.placed.dispatch ready
    obtain ⟨rfl, rfl⟩ : p = p' ∧ t = t' := by simpa using dispatched.symm.trans taken
    have ticked : ∀ q, (k.ptable.ticked q).killed = (k.ptable.proc q).killed := by
      intro q
      unfold PTable.ticked
      split <;> rfl
    have inner : ∀ f : Proc → Proc, (f = id ∨ f = fun q => { q with chan := none }) →
        (k.ptable.proc q).Unmarked ((t.modify p f).proc q) := by
      intro f isF
      refine .inr ?_
      by_cases same : q = p
      · subst same
        rcases isF with rfl | rfl <;> simp [proc', ticked, runnable]
      · simp [PTable.modify_proc_of_ne _ _ same, proc', same, ticked]
    split at resumed <;> cases resumed
    · simpa using inner id (.inl rfl)
    · exact inner _ (.inr rfl)
    · exact inner _ (.inr rfl)
  | release c =>
    simp [Kernel.step] at taken
    obtain ⟨-, -, rfl⟩ := taken
    exact unmarked_of_eq rfl q
  | rescan c | wait c =>
    simp [Kernel.step] at taken
    obtain ⟨-, p, call, turn⟩ := taken
    exact inv.waitTurn_unmarked call turn q
  | allocproc c =>
    have empty : k.ptable.pFreeList = none := by
      by_contra some
      simp [Kernel.call, some] at plain
    simp [Kernel.step, PTable.removeFreeList, empty] at taken
    obtain ⟨-, p, -, -, rfl⟩ := taken
    exact unmarked_of_eq rfl q
  | kalloc c ok | copyuvm c ok =>
    simp only [Kernel.step, Option.bind_eq_bind, Option.bind_eq_some_iff] at taken
    obtain ⟨⟨p, stage, np⟩, inProgress, -, -, taken⟩ := taken
    cases ok <;> cases taken
    · exact unmarked_modify np rfl (.inl (by simpa [Kernel.careful, inProgress] using careful)) q
    · exact unmarked_of_eq rfl q
  | setParent c | initPriority c =>
    simp [Kernel.step, Kernel.forker] at taken
    obtain ⟨p, np, -, -, rfl⟩ := taken
    exact unmarked_modify np rfl (.inr ⟨rfl, rfl, .rfl⟩) q
  | publish c =>
    simp [Kernel.step, Kernel.forker] at taken
    obtain ⟨-, p, np, ⟨-, -, stage⟩, t, made, -, rfl⟩ := taken
    have embryo : (k.ptable.proc np).state = .embryo := inv.stage p _ np stage
    obtain ⟨t', i, enqueued, -, proc', -⟩ :=
      inv.placed.makeRunnable (p := np) (by simp [embryo]) (by simp [embryo])
    obtain rfl : t = t' := by simpa using made.symm.trans enqueued
    exact unmarked_modify np proc' (.inr ⟨rfl, rfl, by simp [embryo]⟩) q
  | addFreeList c =>
    simp [Kernel.step, Kernel.forker] at taken
    obtain ⟨p, stage, np, -, -, -, rfl⟩ := taken
    exact unmarked_of_eq (by simp [setStage, PTable.addFreeList_some]) q
  | exit c =>
    simp [Kernel.step] at taken
    obtain ⟨-, p, call, -, t, done, -, rfl⟩ := taken
    have isRunning := running (caller_eq_some call).1
    obtain ⟨t', l', exited, -, -, proc', -⟩ := inv.placed.exitLocked k.initproc isRunning
    obtain rfl : t = t' := by simpa using done.symm.trans exited
    simp only [sched, proc']
    exact k.ptable.unmarked_exited k.initproc q isRunning
  | yield c =>
    simp [Kernel.step] at taken
    obtain ⟨-, p, current, t, made, -, rfl⟩ := taken
    have isRunning := running current
    obtain ⟨t', i, enqueued, -, proc', -⟩ :=
      inv.placed.makeRunnable (p := p) (by simp [isRunning]) (by simp [isRunning])
    obtain rfl : t = t' := by simpa using made.symm.trans enqueued
    exact unmarked_modify p proc' (.inr ⟨rfl, rfl, by simp [isRunning]⟩) q
  | sleep c address =>
    simp [Kernel.step] at taken
    obtain ⟨-, p, call, -, rfl⟩ := taken
    have isRunning := running (caller_eq_some call).1
    exact unmarked_modify p rfl (.inr ⟨rfl, rfl, by simp [isRunning]⟩) q
  | wakeup chan =>
    simp [Kernel.step] at taken
    obtain ⟨-, t, woke, -, rfl⟩ := taken
    obtain ⟨t', l', woken, -, -, proc', -⟩ := inv.placed.wakeup1 (some chan)
    obtain rfl : t = t' := by simpa using woke.symm.trans woken
    simp only [proc']
    exact (k.ptable.proc q).unmarked_woken (some chan)
  | kill pid => simp [Kernel.call] at plain
  | setpriority c priority =>
    simp [Kernel.step] at taken
    obtain ⟨-, p, call, -, rfl⟩ := taken
    have isRunning := running (caller_eq_some call).1
    have found := inv.slotOfPid (p := p) (by simp [isRunning])
    have table : (k.ptable.setpriority (k.ptable.proc p).pid priority).2.proc =
        (k.ptable.modify p fun q => { q with priority }).proc := by
      simp only [PTable.setpriority, found]
    exact unmarked_modify p table (.inr ⟨rfl, rfl, .rfl⟩) q
  | trap c =>
    simp [Kernel.step] at taken
    obtain ⟨-, p, call, -⟩ := taken
    simp [Kernel.call, call] at plain

/-- A careful step keeps the marks explained. -/
theorem Marked.step (marked : k.Marked calls) (inv : k.Inv l) (edge : CarefulStep k call k') :
    k'.Marked (call :: calls) := by
  obtain ⟨action, event, taken, rfl, careful⟩ := edge
  by_cases plain : k.call action = .other
  · rw [plain]
    exact marked.unmarked fun q => inv.step_unmarked taken plain careful q
  cases action with
  | allocproc c =>
    have head : k.ptable.pFreeList ≠ none := by
      intro empty
      simp [Kernel.call, empty] at plain
    rw [Kernel.call, if_neg head]
    obtain ⟨np, isHead⟩ := Option.ne_none_iff_exists'.mp head
    simp [Kernel.step, PTable.removeFreeList, isHead] at taken
    obtain ⟨-, p, -, -, -, rfl⟩ := taken
    exact marked.alloc inv (by simp [PTable.removeFreeList, isHead]) _
  | kill pid =>
    simp [Kernel.step] at taken
    obtain ⟨-, result, t, killed, -, rfl⟩ := taken
    cases found : k.ptable.slotOfPid pid with
    | none =>
      rw [PTable.kill_of_slotOfPid_eq_none found] at killed
      obtain ⟨-, rfl⟩ : -1 = result ∧ k.ptable = t := by simpa using killed
      refine ⟨marked.unused, fun q used isMarked => ?_⟩
      simp [Kernel.call, Call.since, marked.since q used isMarked]
    | some p =>
      obtain ⟨t', l', done, -, -, proc', -⟩ := inv.placed.kill_some found
      obtain ⟨-, rfl⟩ : result = 0 ∧ t = t' := by simpa using killed.symm.trans done
      have isPid := PTable.pid_of_slotOfPid found
      have used : (k.ptable.proc p).state ≠ .unused := by
        simp only [Kernel.careful, decide_eq_true_eq] at careful
        exact fun unused => careful p unused isPid
      refine marked.mark proc' ?_ (.inl ?_)
      · by_cases asleep : (k.ptable.proc p).state = .sleeping <;> simp [asleep, used]
      · simp [Kernel.call, isPid]
  | trap c =>
    simp [Kernel.step] at taken
    obtain ⟨-, p, call, -, rfl⟩ := taken
    have running : (k.ptable.proc p).state = .running :=
      (inv.running p).mpr ⟨c, (caller_eq_some call).1⟩
    refine marked.mark rfl (by simp [running]) (.inr ?_)
    simp [Kernel.call, call]
  | _ => exact absurd rfl plain

/-- A run with its calls is a run. -/
theorem inv_of_callRun (booted : userinit = some start) (run : Trace CallStep start calls k) :
    ∃ l, k.Inv l := by
  have events : ∃ events, Trace Step start events k := by
    induction run with
    | refl => exact ⟨[], Trace.refl⟩
    | step _ edge ih =>
      obtain ⟨events, sofar⟩ := ih
      obtain ⟨action, event, taken, -⟩ := edge
      exact ⟨event :: events, sofar.step ⟨action, taken⟩⟩
  obtain ⟨events, sofar⟩ := events
  exact Reachable.inv ⟨events, start, booted, sofar⟩

/-- Along a careful run the marks are explained. -/
theorem Marked.of_run (booted : userinit = some start) (run : Trace CarefulStep start calls k) :
    Trace CallStep start calls k ∧ k.Marked calls := by
  have clear : ∀ q, (start.ptable.proc q).killed = false := by
    obtain ⟨l, first⟩ := Booted.of_userinit booted
    intro q
    by_cases same : q = start.initproc
    · rw [same, first.spared]
    · rw [first.others q same]
      rfl
  induction run with
  | refl =>
    refine ⟨Trace.refl, fun q _ => clear q, fun q _ isMarked => ?_⟩
    simp [clear q] at isMarked
  | step _ edge ih =>
    obtain ⟨sofar, marked⟩ := ih
    obtain ⟨l, inv⟩ := inv_of_callRun booted sofar
    refine ⟨sofar.step ?_, marked.step inv edge⟩
    obtain ⟨action, event, taken, shown, -⟩ := edge
    exact ⟨action, event, taken, shown⟩

end Kernel

end Xv6.Process
