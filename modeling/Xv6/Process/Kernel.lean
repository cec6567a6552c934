import Xv6.Lib.Trace
import Xv6.Process.Table

/-!
# The kernel as a transition system

Any number of CPUs run processes over one process table.  A stretch of code
under `ptable.lock` is cut only where the processor switches between a process
and the scheduler, which happens with the lock held; each piece is one step,
and the holder of the lock is part of the state.  Code that touches the table
without the lock gives steps of its own that may fall anywhere, also between
the pieces of another CPU's locked stretch: the writes of `fork` to the new
slot, the write of `UNUSED` on its two failure paths, the `AddFreeList` call of
`allocproc`, and `setpriority`.

A process that is switched away from resumes where it was, so each slot records
that place (`Kont`) and how far a `fork` in progress has come (`ForkStage`).  A
`panic` stops the machine and has no step.  Signed overflow of `nextpid` is
undefined, hence not a step either.
-/

namespace Xv6.Process

open Labelled Function

/-- Where a process continues once the scheduler switches to it. -/
inductive Kont
  /-- In `yield` or at the start of `forkret`: release the lock. -/
  | run
  /-- In `sleep` with another lock: clear `chan`, release the lock. -/
  | sleep
  /-- In the `sleep` of `wait`: clear `chan` and scan the table again. -/
  | wait
  deriving DecidableEq

/-- How far a call of `fork` has come with its new slot. -/
inductive ForkStage
  /-- `allocproc` has taken the slot; `kalloc` is next. -/
  | allocated
  /-- The kernel stack is there; `copyuvm` is next. -/
  | stacked
  /-- The address space is copied; `np->parent` is next. -/
  | copied
  /-- `np->parent` is written; `np->priority` is next. -/
  | parented
  /-- `np->priority` is written; the locked part is next. -/
  | prepared
  /-- `UNUSED` is written; `AddFreeList` is next, under the lock or not. -/
  | discarded (locked : Bool)
  deriving DecidableEq

/-- What a run shows of a step. -/
inductive Event
  | internal
  | dispatched (p : Slot)
  | forked (parent child : Int)
  | exited (pid : Int)
  | waited (caller result : Int)
  deriving DecidableEq

/-- The steps of the kernel.  The argument is the CPU that takes the step. -/
inductive Action (Cpu : Type)
  | acquire (c : Cpu)
  | iterate (c : Cpu)
  | release (c : Cpu)
  | rescan (c : Cpu)
  | allocproc (c : Cpu)
  | kalloc (c : Cpu) (ok : Bool)
  | copyuvm (c : Cpu) (ok : Bool)
  | setParent (c : Cpu)
  | initPriority (c : Cpu)
  | publish (c : Cpu)
  | addFreeList (c : Cpu)
  | exit (c : Cpu)
  | wait (c : Cpu)
  | yield (c : Cpu)
  | sleep (c : Cpu) (address : Nat)
  | wakeup (chan : Chan)
  | kill (pid : Int)
  | setpriority (c : Cpu) (priority : Int)
  | trap (c : Cpu)

/-- The machine: the table, the holder of `ptable.lock`, the current process of
each CPU (`cpu->proc`), the globals of `proc.c`, and each process's place. -/
structure Kernel (Cpu : Type) where
  ptable : PTable
  lock : Option Cpu
  proc : Cpu → Option Slot
  nextpid : Int
  initproc : Slot
  kont : Slot → Kont
  forking : Slot → Option (ForkStage × Slot)

/-- The largest value of an `int`. -/
def intMax : Int := 2 ^ 31 - 1

namespace Kernel

variable {Cpu : Type} [DecidableEq Cpu]

/-- The process of CPU `c`, when it is not in the middle of a `fork`. -/
def caller (k : Kernel Cpu) (c : Cpu) : Option Slot :=
  (k.proc c).filter fun p => k.forking p = none

/-- The `fork` in progress on CPU `c`, outside any locked stretch of its own. -/
def forker (k : Kernel Cpu) (c : Cpu) : Option (Slot × ForkStage × Slot) := do
  guard (k.lock ≠ some c)
  let p ← k.proc c
  let (stage, np) ← k.forking p
  some (p, stage, np)

/-- Record how far the `fork` of `p` has come. -/
def setStage (k : Kernel Cpu) (p : Slot) (stage : Option (ForkStage × Slot)) : Kernel Cpu :=
  { k with forking := update k.forking p stage }

/-- `sched`: CPU `c` leaves its process, which will resume at `kont`, and is
back in the loop of `scheduler` with the lock held and `proc` cleared. -/
def sched (k : Kernel Cpu) (c : Cpu) (p : Slot) (kont : Kont) : Kernel Cpu :=
  { k with
    lock := some c
    proc := update k.proc c none
    kont := update k.kont p kont }

/-- One turn of the loop of `wait`, by the process `p` of the CPU `c` that
holds the lock. -/
def waitTurn (k : Kernel Cpu) (c : Cpu) (p : Slot) : Event × Kernel Cpu :=
  match k.ptable.waitScan p with
  | .reaped pid t =>
    (.waited (k.ptable.proc p).pid pid, { k with ptable := t, lock := none })
  | .failed => (.waited (k.ptable.proc p).pid (-1), { k with lock := none })
  | .sleep =>
    let t := k.ptable.modify p fun q => { q with chan := some (.proc p), state := .sleeping }
    (.internal, { k with ptable := t }.sched c p .wait)

/-- The transition function.  `none`: the step is not enabled, or it panics, or
its result is undefined. -/
def step (k : Kernel Cpu) : Action Cpu → Option (Event × Kernel Cpu)
  -- `scheduler`: acquire the lock, run the inner loop, release the lock
  | .acquire c => do
      guard (k.lock = none ∧ k.proc c = none)
      some (.internal, { k with lock := some c })
  | .iterate c => do
      guard (k.lock = some c ∧ k.proc c = none ∧ k.ptable.anyReady)
      let (p, t) ← k.ptable.dispatch
      let k := { k with proc := update k.proc c (some p) }
      match k.kont p with
      | .run => some (.dispatched p, { k with ptable := t, lock := none })
      | .sleep =>
        some (.dispatched p,
          { k with ptable := t.modify p fun q => { q with chan := none }, lock := none })
      | .wait =>
        some (.dispatched p, { k with ptable := t.modify p fun q => { q with chan := none } })
  | .release c => do
      guard (k.lock = some c ∧ k.proc c = none ∧ ¬ k.ptable.anyReady)
      some (.internal, { k with lock := none })
  | .rescan c => do
      guard (k.lock = some c)
      let p ← k.caller c
      some (k.waitTurn c p)
  -- `fork` and `allocproc`
  | .allocproc c => do
      guard (k.lock = none)
      let p ← k.caller c
      match k.ptable.removeFreeList with
      | (none, _) => some (.internal, k)
      | (some np, t) => do
          guard (k.nextpid < intMax)
          let t := t.modify np fun q => { q with state := .embryo, pid := k.nextpid }
          some (.internal,
            { k with ptable := t, nextpid := k.nextpid + 1 }.setStage p (some (.allocated, np)))
  | .kalloc c ok => do
      let (p, stage, np) ← k.forker c
      guard (stage = .allocated)
      if ok then
        some (.internal,
          { k with kont := update k.kont np .run }.setStage p (some (.stacked, np)))
      else
        some (.internal,
          { k with ptable := k.ptable.setState np .unused }.setStage p
            (some (.discarded false, np)))
  | .copyuvm c ok => do
      let (p, stage, np) ← k.forker c
      guard (stage = .stacked)
      if ok then some (.internal, k.setStage p (some (.copied, np)))
      else
        some (.internal,
          { k with ptable := k.ptable.setState np .unused }.setStage p
            (some (.discarded true, np)))
  | .setParent c => do
      let (p, stage, np) ← k.forker c
      guard (stage = .copied)
      let t := k.ptable.modify np fun q => { q with parent := some p }
      some (.internal, { k with ptable := t }.setStage p (some (.parented, np)))
  | .initPriority c => do
      let (p, stage, np) ← k.forker c
      guard (stage = .parented)
      let t := k.ptable.modify np fun q => { q with priority := 1 }
      some (.internal, { k with ptable := t }.setStage p (some (.prepared, np)))
  | .publish c => do
      guard (k.lock = none)
      let (p, stage, np) ← k.forker c
      guard (stage = .prepared)
      let t ← k.ptable.makeRunnable np
      some (.forked (k.ptable.proc p).pid (k.ptable.proc np).pid,
        { k with ptable := t }.setStage p none)
  | .addFreeList c => do
      let (p, stage, np) ← k.forker c
      guard (stage = .discarded false ∨ stage = .discarded true ∧ k.lock = none)
      some (.internal,
        { k with ptable := (k.ptable.addFreeList (some np)).2 }.setStage p none)
  -- calls of a running process
  | .exit c => do
      guard (k.lock = none)
      let p ← k.caller c
      guard (p ≠ k.initproc)
      let t ← k.ptable.exitLocked p k.initproc
      some (.exited (k.ptable.proc p).pid, { k with ptable := t }.sched c p .run)
  | .wait c => do
      guard (k.lock = none)
      let p ← k.caller c
      some (k.waitTurn c p)
  | .yield c => do
      guard (k.lock = none)
      let p ← k.proc c
      let t ← k.ptable.makeRunnable p
      some (.internal, { k with ptable := t }.sched c p .run)
  | .sleep c address => do
      guard (k.lock = none)
      let p ← k.caller c
      let t := k.ptable.modify p fun q =>
        { q with chan := some (.object address), state := .sleeping }
      some (.internal, { k with ptable := t }.sched c p .sleep)
  | .wakeup chan => do
      guard (k.lock = none)
      let t ← k.ptable.wakeup1 (some chan)
      some (.internal, { k with ptable := t })
  | .kill pid => do
      guard (k.lock = none)
      let (_, t) ← k.ptable.kill pid
      some (.internal, { k with ptable := t })
  -- a running process sets its own priority, without the lock
  | .setpriority c priority => do
      guard (k.lock ≠ some c ∧ 0 ≤ priority ∧ priority ≤ 2)
      let p ← k.caller c
      some (.internal,
        { k with ptable := (k.ptable.setpriority (k.ptable.proc p).pid priority).2 })
  -- `trap` marks a process that faults in user space
  | .trap c => do
      guard (k.lock ≠ some c)
      let p ← k.caller c
      some (.internal, { k with ptable := k.ptable.modify p fun q => { q with killed := true } })

/-- The step relation, labelled by what the step shows. -/
def Step (k : Kernel Cpu) (event : Event) (k' : Kernel Cpu) : Prop :=
  ∃ action, k.step action = some (event, k')

/-! ## What a step can do -/

/-- The successful steps, one constructor for each way through the code. -/
inductive Move (k : Kernel Cpu) : Event → Kernel Cpu → Prop
  | acquire (c : Cpu) : Move k .internal { k with lock := some c }
  | release : Move k .internal { k with lock := none }
  | dispatch (c : Cpu) (p : Slot) (t : PTable) (lock : Option Cpu) (f : Proc → Proc) :
      k.proc c = none → k.ptable.anyReady = true → k.ptable.dispatch = some (p, t) →
      (f = id ∧ k.kont p = .run ∨
        (f = fun q => { q with chan := none }) ∧ (k.kont p = .sleep ∨ k.kont p = .wait)) →
      (k.kont p = .wait → lock = some c) → (k.kont p ≠ .wait → lock = none) →
      Move k (.dispatched p)
        { k with
          ptable := t.modify p f, lock := lock, proc := update k.proc c (some p) }
  | reap (c : Cpu) (p : Slot) (pid : Int) (t : PTable) :
      k.proc c = some p → k.ptable.waitScan p = .reaped pid t →
      Move k (.waited (k.ptable.proc p).pid pid) { k with ptable := t, lock := none }
  | waitFail (c : Cpu) (p : Slot) :
      k.proc c = some p → k.ptable.waitScan p = .failed →
      Move k (.waited (k.ptable.proc p).pid (-1)) { k with lock := none }
  | waitSleep (c : Cpu) (p : Slot) :
      k.proc c = some p → k.forking p = none → k.ptable.waitScan p = .sleep →
      Move k .internal
        ({ k with
            ptable := k.ptable.modify p fun q =>
              { q with chan := some (.proc p), state := .sleeping } }.sched c p .wait)
  | forkFull : Move k .internal k
  | alloc (c : Cpu) (p np : Slot) (t : PTable) :
      k.proc c = some p → k.forking p = none → k.ptable.removeFreeList = (some np, t) →
      k.nextpid < intMax →
      Move k .internal
        ({ k with
            ptable := t.modify np fun q => { q with state := .embryo, pid := k.nextpid }
            nextpid := k.nextpid + 1 }.setStage p (some (.allocated, np)))
  | advance (c : Cpu) (p np : Slot) (kont : Slot → Kont) (f : Proc → Proc)
      (stage stage' : ForkStage) :
      k.proc c = some p → k.forking p = some (stage, np) →
      (stage = .allocated ∧ stage' = .stacked ∧ f = id ∧
          kont = update k.kont np .run ∨
        stage = .stacked ∧ stage' = .copied ∧ f = id ∧ kont = k.kont ∨
        stage = .copied ∧ stage' = .parented ∧ (f = fun q => { q with parent := some p }) ∧
          kont = k.kont ∨
        stage = .parented ∧ stage' = .prepared ∧ (f = fun q => { q with priority := 1 }) ∧
          kont = k.kont) →
      Move k .internal
        ({ k with ptable := k.ptable.modify np f, kont := kont }.setStage p (some (stage', np)))
  | discard (c : Cpu) (p np : Slot) (stage : ForkStage) (locked : Bool) :
      k.proc c = some p → k.forking p = some (stage, np) →
      stage = .allocated ∧ locked = false ∨ stage = .stacked ∧ locked = true →
      Move k .internal
        ({ k with ptable := k.ptable.setState np .unused }.setStage p
          (some (.discarded locked, np)))
  | publish (c : Cpu) (p np : Slot) (t : PTable) :
      k.proc c = some p → k.forking p = some (.prepared, np) →
      k.ptable.makeRunnable np = some t →
      Move k (.forked (k.ptable.proc p).pid (k.ptable.proc np).pid)
        ({ k with ptable := t }.setStage p none)
  | addFreeList (c : Cpu) (p np : Slot) (locked : Bool) :
      k.proc c = some p → k.forking p = some (.discarded locked, np) →
      Move k .internal
        ({ k with ptable := (k.ptable.addFreeList (some np)).2 }.setStage p none)
  | exit (c : Cpu) (p : Slot) (t : PTable) :
      k.proc c = some p → k.forking p = none → p ≠ k.initproc →
      k.ptable.exitLocked p k.initproc = some t →
      Move k (.exited (k.ptable.proc p).pid) ({ k with ptable := t }.sched c p .run)
  | yield (c : Cpu) (p : Slot) (t : PTable) :
      k.proc c = some p → k.ptable.makeRunnable p = some t →
      Move k .internal ({ k with ptable := t }.sched c p .run)
  | sleep (c : Cpu) (p : Slot) (address : Nat) :
      k.proc c = some p → k.forking p = none →
      Move k .internal
        ({ k with
            ptable := k.ptable.modify p fun q =>
              { q with chan := some (.object address), state := .sleeping } }.sched c p .sleep)
  | wakeup (chan : Chan) (t : PTable) :
      k.ptable.wakeup1 (some chan) = some t → Move k .internal { k with ptable := t }
  | kill (pid result : Int) (t : PTable) :
      k.ptable.kill pid = some (result, t) → Move k .internal { k with ptable := t }
  | setpriority (c : Cpu) (p : Slot) (priority : Int) :
      k.proc c = some p → 0 ≤ priority → priority ≤ 2 →
      Move k .internal
        { k with ptable := (k.ptable.setpriority (k.ptable.proc p).pid priority).2 }
  | trap (c : Cpu) (p : Slot) :
      k.proc c = some p →
      Move k .internal { k with ptable := k.ptable.modify p fun q => { q with killed := true } }

variable {c : Cpu} {k : Kernel Cpu} {p : Slot} {event : Event}

omit [DecidableEq Cpu] in
theorem caller_eq_some (call : k.caller c = some p) : k.proc c = some p ∧ k.forking p = none := by
  simpa [caller, Option.filter_eq_some_iff] using call

/-- A turn of `wait` is one of its three moves. -/
theorem waitTurn_move {k' : Kernel Cpu} (call : k.caller c = some p)
    (turn : k.waitTurn c p = (event, k')) : Move k event k' := by
  obtain ⟨current, whole⟩ := caller_eq_some call
  unfold waitTurn at turn
  split at turn <;> rename_i scan <;> cases turn
  · exact Move.reap c p _ _ current scan
  · exact Move.waitFail c p current scan
  · exact Move.waitSleep c p current whole scan

attribute [local simp] Option.bind_eq_some_iff

/-- Every step is one of the moves. -/
theorem step_move {k' : Kernel Cpu} (step : Step k event k') : Move k event k' := by
  obtain ⟨action, taken⟩ := step
  cases action with
  | acquire c =>
    simp only [Kernel.step, Option.bind_eq_bind, Option.bind_eq_some_iff] at taken
    obtain ⟨-, -, taken⟩ := taken
    cases taken
    exact Move.acquire c
  | iterate c =>
    simp [Kernel.step] at taken
    obtain ⟨⟨held, idle, ready⟩, p, t, dispatched, resumed⟩ := taken
    split at resumed <;> rename_i kont <;> cases resumed
    · have moved := Move.dispatch c p t none id idle ready dispatched (.inl ⟨rfl, kont⟩)
        (by simp [kont]) fun _ => rfl
      simpa using moved
    · exact Move.dispatch c p t none _ idle ready dispatched (.inr ⟨rfl, .inl kont⟩)
        (by simp [kont]) fun _ => rfl
    · exact Move.dispatch c p t k.lock _ idle ready dispatched (.inr ⟨rfl, .inr kont⟩)
        (fun _ => held) (by simp [kont])
  | release c =>
    simp [Kernel.step] at taken
    obtain ⟨-, rfl, rfl⟩ := taken
    exact Move.release
  | rescan | wait =>
    simp [Kernel.step] at taken
    obtain ⟨-, p, call, turn⟩ := taken
    exact waitTurn_move call turn
  | allocproc c =>
    simp [Kernel.step] at taken
    obtain ⟨-, p, call, taken⟩ := taken
    obtain ⟨current, whole⟩ := caller_eq_some call
    split at taken <;> rename_i removed
    · cases taken
      exact Move.forkFull
    · simp at taken
      obtain ⟨room, rfl, rfl⟩ := taken
      exact Move.alloc c p _ _ current whole removed room
  | kalloc c ok =>
    simp [Kernel.step, forker] at taken
    obtain ⟨p, np, ⟨-, current, stage⟩, taken⟩ := taken
    cases ok <;> cases taken
    · exact Move.discard c p np .allocated false current stage (.inl ⟨rfl, rfl⟩)
    · have moved := Move.advance (k := k) c p np _ id .allocated .stacked current stage
        (.inl ⟨rfl, rfl, rfl, rfl⟩)
      simpa using moved
  | copyuvm c ok =>
    simp [Kernel.step, forker] at taken
    obtain ⟨p, np, ⟨-, current, stage⟩, taken⟩ := taken
    cases ok <;> cases taken
    · exact Move.discard c p np .stacked true current stage (.inr ⟨rfl, rfl⟩)
    · have moved := Move.advance (k := k) c p np _ id .stacked .copied current stage
        (.inr (.inl ⟨rfl, rfl, rfl, rfl⟩))
      simpa using moved
  | setParent c =>
    simp [Kernel.step, forker] at taken
    obtain ⟨p, np, ⟨-, current, stage⟩, rfl, rfl⟩ := taken
    exact Move.advance c p np k.kont _ .copied .parented current stage
      (.inr (.inr (.inl ⟨rfl, rfl, rfl, rfl⟩)))
  | initPriority c =>
    simp [Kernel.step, forker] at taken
    obtain ⟨p, np, ⟨-, current, stage⟩, rfl, rfl⟩ := taken
    exact Move.advance c p np k.kont _ .parented .prepared current stage
      (.inr (.inr (.inr ⟨rfl, rfl, rfl, rfl⟩)))
  | publish c =>
    simp [Kernel.step, forker] at taken
    obtain ⟨-, p, np, ⟨-, current, stage⟩, t, made, rfl, rfl⟩ := taken
    exact Move.publish c p np t current stage made
  | addFreeList c =>
    simp [Kernel.step, forker] at taken
    obtain ⟨p, stage, np, ⟨-, current, inProgress⟩, discarded, rfl, rfl⟩ := taken
    rcases discarded with rfl | ⟨rfl, -⟩
    · exact Move.addFreeList c p np false current inProgress
    · exact Move.addFreeList c p np true current inProgress
  | exit c =>
    simp [Kernel.step] at taken
    obtain ⟨-, p, call, notInit, t, done, rfl, rfl⟩ := taken
    obtain ⟨current, whole⟩ := caller_eq_some call
    exact Move.exit c p t current whole notInit done
  | yield c =>
    simp [Kernel.step] at taken
    obtain ⟨-, p, current, t, made, rfl, rfl⟩ := taken
    exact Move.yield c p t current made
  | sleep c address =>
    simp [Kernel.step] at taken
    obtain ⟨-, p, call, rfl, rfl⟩ := taken
    obtain ⟨current, whole⟩ := caller_eq_some call
    exact Move.sleep c p address current whole
  | wakeup chan =>
    simp [Kernel.step] at taken
    obtain ⟨-, t, woke, rfl, rfl⟩ := taken
    exact Move.wakeup chan t woke
  | kill pid =>
    simp [Kernel.step] at taken
    obtain ⟨-, result, t, killed, rfl, rfl⟩ := taken
    exact Move.kill pid result t killed
  | setpriority c priority =>
    simp [Kernel.step] at taken
    obtain ⟨⟨-, low, high⟩, p, call, rfl, rfl⟩ := taken
    exact Move.setpriority c p priority (caller_eq_some call).1 low high
  | trap c =>
    simp [Kernel.step] at taken
    obtain ⟨-, p, call, rfl, rfl⟩ := taken
    exact Move.trap c p (caller_eq_some call).1

/-! ## Boot -/

/-- The table in zeroed memory, after `userinit` has cleared the list heads. -/
def zeroed : PTable where
  proc _ :=
    { state := .unused, pid := 0, priority := 0, parent := none, chan := none, killed := false }
  next _ := none
  pReadyList _ := none
  pFreeList := none
  timeToReset := 0

/-- The body of the loop of `userinit`. -/
def freeUnused (t : PTable) (p : Slot) : PTable :=
  if (t.proc p).state = .unused then (t.addFreeList (some p)).2 else t

/-- `userinit`: fill the free list, then allocate and publish the first
process. `kalloc` and `setupkvm` succeed, else the kernel stops there. -/
def userinit : Option (Kernel Cpu) :=
  match ((List.finRange nproc).foldl freeUnused zeroed).removeFreeList with
  | (none, _) => none
  | (some p, t) => do
      let t := t.modify p fun q => { q with state := .embryo, pid := 1 }
      let t := t.modify p fun q => { q with priority := 1 }
      let t ← t.makeRunnable p
      some {
        ptable := t
        lock := none
        proc := fun _ => none
        nextpid := 2
        initproc := p
        kont := fun _ => .run
        forking := fun _ => none }

/-- A run from `userinit`, with what it showed, newest first. -/
def Run (events : List Event) (k : Kernel Cpu) : Prop :=
  ∃ start, userinit = some start ∧ Trace Step start events k

/-- A state of some run from `userinit`. -/
def Reachable (k : Kernel Cpu) : Prop :=
  ∃ events, Run events k

omit [DecidableEq Cpu] in
/-- Actions that can be taken after `userinit` give a run of any relation that allows them, and a
property that can be computed at its end holds there. -/
theorem exists_trace {ε : Type*} (next : Kernel Cpu → Action Cpu → Option (ε × Kernel Cpu))
    {step : Kernel Cpu → ε → Kernel Cpu → Prop} (actions : List (Action Cpu))
    (sound : ∀ {k a e k'}, next k a = some (e, k') → step k e k') (p : List ε → Kernel Cpu → Prop)
    [∀ events k, Decidable (p events k)]
    (computed : userinit.any (fun k => (execute next k [] actions).any
      fun (events, k) => decide (p events k)) = true) :
    ∃ start events k, userinit = some start ∧ Trace step start events k ∧ p events k := by
  cases booted : (userinit : Option (Kernel Cpu)) with
  | none => simp [booted] at computed
  | some start =>
    rw [booted] at computed
    obtain ⟨events, k, run, found⟩ := Trace.exists_of_execute next actions sound computed
    exact ⟨start, events, k, rfl, run, found⟩

/-- A sequence of steps that can be taken after `userinit` is a run, and a
property that can be computed at its end holds there. -/
theorem exists_run (actions : List (Action Cpu)) (p : List Event → Kernel Cpu → Prop)
    [∀ events k, Decidable (p events k)]
    (computed : userinit.any (fun k => (execute step k [] actions).any
      fun (events, k) => decide (p events k)) = true) : ∃ events k, Run events k ∧ p events k := by
  obtain ⟨start, events, k, booted, run, found⟩ :=
    exists_trace step actions (fun taken => (⟨_, taken⟩ : Step _ _ _)) p computed
  exact ⟨events, k, ⟨start, booted, run⟩, found⟩

end Kernel

end Xv6.Process
