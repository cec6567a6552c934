import Mathlib

/-!
# Kernel threads, spinlocks and sleep

The steps that kernel threads of several processors take in `sleep`, `wakeup`,
`sched`, `yield` and `scheduler`: each `acquire`, `release`, change of a process
state and context switch is a step of its own, and the steps of different
processors interleave freely.  What the threads do besides is a `Program`: a
control flow graph whose instructions take and release locks, compute on shared
data, sleep and wake up sleepers.

A lock is held by a processor, as `lk->cpu` says, so that `ptable.lock` stays held
across a context switch.  `none` is `ptable.lock`.  An `acquire` of a lock that is
taken spins, so it is a step only once the lock is free.  The ready lists are not
kept: the scheduler may choose any process that is `RUNNABLE`.
-/

namespace Xv6.Sync

open Function (update)

/-- What a thread does at a point of its program. -/
inductive Instr (L Chan Data Loc : Type)
  | acquire (lk : Option L) (next : Loc)
  | release (lk : Option L) (next : Loc)
  | sleep (chan : Chan) (lk : Option L) (next : Loc)
  | wakeup (chan : Chan) (next : Loc)
  /-- `wakeup1`, for a caller that holds `ptable.lock`. -/
  | wakeup1 (chan : Chan) (next : Loc)
  /-- One of the outcomes, chosen freely: new data and where to go on. -/
  | compute (outcomes : Data → Set (Data × Loc))

/-- A program with the locks held at each of its points.  `acquire` panics on a
lock that the processor holds and `release` on one that it does not, and `sched`
panics unless `ptable.lock` is the only lock held. -/
structure Program (L Chan Data Loc : Type) where
  code : Loc → Instr L Chan Data Loc
  held : Loc → Set (Option L)
  held_acquire : ∀ {ℓ lk next}, code ℓ = .acquire lk next →
    lk ∉ held ℓ ∧ held next = insert lk (held ℓ)
  held_release : ∀ {ℓ lk next}, code ℓ = .release lk next →
    lk ∈ held ℓ ∧ held next = held ℓ \ {lk}
  held_sleep : ∀ {ℓ chan lk next}, code ℓ = .sleep chan lk next →
    held ℓ = {lk} ∧ held next = {lk}
  held_wakeup : ∀ {ℓ chan next}, code ℓ = .wakeup chan next →
    none ∉ held ℓ ∧ held next = held ℓ
  held_wakeup1 : ∀ {ℓ chan next}, code ℓ = .wakeup1 chan next →
    none ∈ held ℓ ∧ held next = held ℓ
  held_compute : ∀ {ℓ outcomes d d' next}, code ℓ = .compute outcomes →
    (d', next) ∈ outcomes d → held next = held ℓ

/-- Where a thread is.  Inside `sleep`, `wakeup` and `yield` the constructors name
the step that comes next. -/
inductive Ctl (L Chan Loc Thread : Type)
  /-- At a point of the program. -/
  | run (ℓ : Loc)
  /-- `release(lk)` in `sleep` -/
  | sleepUnlock (chan : Chan) (lk : L) (next : Loc)
  /-- `proc->chan = chan` -/
  | sleepChan (chan : Chan) (lk : Option L) (next : Loc)
  /-- `proc->state = SLEEPING` -/
  | sleepState (chan : Chan) (lk : Option L) (next : Loc)
  /-- `swtch` in `sched` -/
  | sleepSwitch (lk : Option L) (next : Loc)
  /-- `proc->chan = 0` -/
  | sleepTidy (lk : Option L) (next : Loc)
  /-- `release(&ptable.lock)` in `sleep` -/
  | sleepRelease (lk : L) (next : Loc)
  /-- `acquire(lk)` in `sleep` -/
  | sleepReacquire (lk : L) (next : Loc)
  /-- The loop of `wakeup1` over the slots that are left; `unlock` tells whether
  `wakeup` has called it. -/
  | wakeScan (chan : Chan) (todo : List Thread) (unlock : Bool) (next : Loc)
  /-- `release(&ptable.lock)` in `wakeup` -/
  | wakeRelease (next : Loc)
  /-- `proc->state = RUNNABLE` in `yield`, called by a timer interrupt -/
  | yieldState (back : Ctl L Chan Loc Thread)
  | yieldSwitch (back : Ctl L Chan Loc Thread)
  | yieldRelease (back : Ctl L Chan Loc Thread)

/-- The states of a process that matter here. -/
inductive RunState
  | runnable
  | running
  | sleeping
  deriving DecidableEq

/-- Where the loop of `scheduler` is. -/
inductive SchedPc (Thread : Type)
  /-- `acquire(&ptable.lock)` -/
  | acquire
  /-- At the test of the inner loop, where control also returns from a process. -/
  | loop
  /-- `swtch` to the chosen process -/
  | switch (p : Thread)

/-- Processors, threads, locks and the data that the program computes on. -/
structure System (Cpu Thread L Chan Data Loc : Type) where
  data : Data
  ctl : Thread → Ctl L Chan Loc Thread
  state : Thread → RunState
  chan : Thread → Option Chan
  /-- The thread that a processor runs, when it is not in its scheduler. -/
  cur : Cpu → Option Thread
  sched : Cpu → SchedPc Thread
  holder : Option L → Option Cpu

variable {Cpu Thread L Chan Data Loc : Type}
variable [DecidableEq Cpu] [DecidableEq Thread] [DecidableEq L] [DecidableEq Chan]

namespace System

def setCtl (s : System Cpu Thread L Chan Data Loc) (p : Thread) (x : Ctl L Chan Loc Thread) :
    System Cpu Thread L Chan Data Loc :=
  { s with ctl := update s.ctl p x }

def setState (s : System Cpu Thread L Chan Data Loc) (p : Thread) (state : RunState) :
    System Cpu Thread L Chan Data Loc :=
  { s with state := update s.state p state }

def setChan (s : System Cpu Thread L Chan Data Loc) (p : Thread) (chan : Option Chan) :
    System Cpu Thread L Chan Data Loc :=
  { s with chan := update s.chan p chan }

def setCur (s : System Cpu Thread L Chan Data Loc) (c : Cpu) (p : Option Thread) :
    System Cpu Thread L Chan Data Loc :=
  { s with cur := update s.cur c p }

def setSched (s : System Cpu Thread L Chan Data Loc) (c : Cpu) (pc : SchedPc Thread) :
    System Cpu Thread L Chan Data Loc :=
  { s with sched := update s.sched c pc }

def lock (s : System Cpu Thread L Chan Data Loc) (lk : Option L) (c : Cpu) :
    System Cpu Thread L Chan Data Loc :=
  { s with holder := update s.holder lk (some c) }

def unlock (s : System Cpu Thread L Chan Data Loc) (lk : Option L) :
    System Cpu Thread L Chan Data Loc :=
  { s with holder := update s.holder lk none }

/-- The body of the loop of `wakeup1`. -/
def wake (s : System Cpu Thread L Chan Data Loc) (chan : Chan) (t : Thread) :
    System Cpu Thread L Chan Data Loc :=
  if s.state t = .sleeping ∧ s.chan t = some chan then s.setState t .runnable else s

end System

namespace Ctl

/-- The point after `proc->chan = 0`: `sleep` gives back `ptable.lock` and takes the
caller's lock, unless they are the same. -/
def afterTidy (lk : Option L) (next : Loc) : Ctl L Chan Loc Thread :=
  match lk with
  | none => .run next
  | some lk => .sleepRelease lk next

/-- The point after the loop of `wakeup1`. -/
def afterScan (unlock : Bool) (next : Loc) : Ctl L Chan Loc Thread :=
  if unlock then .wakeRelease next else .run next

/-- The points at which a timer interrupt can find a thread that holds no lock. -/
inductive Interruptible : Ctl L Chan Loc Thread → Prop
  | run (ℓ : Loc) : Interruptible (.run ℓ)
  | sleepReacquire (lk : L) (next : Loc) : Interruptible (.sleepReacquire lk next)

end Ctl

variable (prog : Program L Chan Data Loc) (table : List Thread)

/-- The steps of a thread `p` on the processor `c`. -/
inductive ThreadStep (c : Cpu) (p : Thread) :
    System Cpu Thread L Chan Data Loc → System Cpu Thread L Chan Data Loc → Prop
  | acquire {s ℓ lk next} : s.ctl p = .run ℓ → prog.code ℓ = .acquire lk next →
      s.holder lk = none → ThreadStep c p s ((s.lock lk c).setCtl p (.run next))
  | release {s ℓ lk next} : s.ctl p = .run ℓ → prog.code ℓ = .release lk next →
      s.holder lk = some c → ThreadStep c p s ((s.unlock lk).setCtl p (.run next))
  | compute {s ℓ outcomes d next} : s.ctl p = .run ℓ → prog.code ℓ = .compute outcomes →
      (d, next) ∈ outcomes s.data →
      ThreadStep c p s (({ s with data := d } : System Cpu Thread L Chan Data Loc).setCtl p
        (.run next))
  | sleepLock {s ℓ chan lk next} : s.ctl p = .run ℓ →
      prog.code ℓ = .sleep chan (some lk) next → s.holder none = none →
      ThreadStep c p s ((s.lock none c).setCtl p (.sleepUnlock chan lk next))
  | sleepHeld {s ℓ chan next} : s.ctl p = .run ℓ → prog.code ℓ = .sleep chan none next →
      ThreadStep c p s (s.setCtl p (.sleepChan chan none next))
  | sleepUnlock {s chan lk next} : s.ctl p = .sleepUnlock chan lk next →
      s.holder (some lk) = some c →
      ThreadStep c p s ((s.unlock (some lk)).setCtl p (.sleepChan chan (some lk) next))
  | sleepChan {s chan lk next} : s.ctl p = .sleepChan chan lk next →
      ThreadStep c p s ((s.setChan p (some chan)).setCtl p (.sleepState chan lk next))
  | sleepState {s chan lk next} : s.ctl p = .sleepState chan lk next →
      ThreadStep c p s ((s.setState p .sleeping).setCtl p (.sleepSwitch lk next))
  | sleepSwitch {s lk next} : s.ctl p = .sleepSwitch lk next → s.holder none = some c →
      ThreadStep c p s ((s.setCur c none).setCtl p (.sleepTidy lk next))
  | sleepTidy {s lk next} : s.ctl p = .sleepTidy lk next →
      ThreadStep c p s ((s.setChan p none).setCtl p (.afterTidy lk next))
  | sleepRelease {s lk next} : s.ctl p = .sleepRelease lk next → s.holder none = some c →
      ThreadStep c p s ((s.unlock none).setCtl p (.sleepReacquire lk next))
  | sleepReacquire {s lk next} : s.ctl p = .sleepReacquire lk next →
      s.holder (some lk) = none →
      ThreadStep c p s ((s.lock (some lk) c).setCtl p (.run next))
  | wakeup {s ℓ chan next} : s.ctl p = .run ℓ → prog.code ℓ = .wakeup chan next →
      s.holder none = none →
      ThreadStep c p s ((s.lock none c).setCtl p (.wakeScan chan table true next))
  | wakeup1 {s ℓ chan next} : s.ctl p = .run ℓ → prog.code ℓ = .wakeup1 chan next →
      ThreadStep c p s (s.setCtl p (.wakeScan chan table false next))
  | wakeSlot {s chan t todo unlock next} : s.ctl p = .wakeScan chan (t :: todo) unlock next →
      ThreadStep c p s ((s.wake chan t).setCtl p (.wakeScan chan todo unlock next))
  | wakeDone {s chan unlock next} : s.ctl p = .wakeScan chan [] unlock next →
      ThreadStep c p s (s.setCtl p (.afterScan unlock next))
  | wakeRelease {s next} : s.ctl p = .wakeRelease next → s.holder none = some c →
      ThreadStep c p s ((s.unlock none).setCtl p (.run next))
  | yieldLock {s} : (s.ctl p).Interruptible → (∀ lk, s.holder lk ≠ some c) →
      s.holder none = none →
      ThreadStep c p s ((s.lock none c).setCtl p (.yieldState (s.ctl p)))
  | yieldState {s back} : s.ctl p = .yieldState back →
      ThreadStep c p s ((s.setState p .runnable).setCtl p (.yieldSwitch back))
  | yieldSwitch {s back} : s.ctl p = .yieldSwitch back → s.holder none = some c →
      ThreadStep c p s ((s.setCur c none).setCtl p (.yieldRelease back))
  | yieldRelease {s back} : s.ctl p = .yieldRelease back → s.holder none = some c →
      ThreadStep c p s ((s.unlock none).setCtl p back)

/-- The steps of the scheduler of the processor `c`. -/
inductive SchedStep (c : Cpu) :
    System Cpu Thread L Chan Data Loc → System Cpu Thread L Chan Data Loc → Prop
  | acquire {s} : s.sched c = .acquire → s.holder none = none →
      SchedStep c s ((s.lock none c).setSched c .loop)
  | choose {s p} : s.sched c = .loop → s.state p = .runnable →
      SchedStep c s ((s.setState p .running).setSched c (.switch p))
  | switch {s p} : s.sched c = .switch p →
      SchedStep c s ((s.setCur c (some p)).setSched c .loop)
  | release {s} : s.sched c = .loop → s.holder none = some c →
      SchedStep c s ((s.unlock none).setSched c .acquire)

/-- A step of some processor. -/
inductive Step : System Cpu Thread L Chan Data Loc → System Cpu Thread L Chan Data Loc → Prop
  | thread {c : Cpu} {p : Thread} {s s'} : s.cur c = some p → ThreadStep prog table c p s s' →
      Step s s'
  | sched {c : Cpu} {s s'} : s.cur c = none → SchedStep c s s' → Step s s'

/-- All processors are in their schedulers, all locks are free and every thread is
about to run from its point `start`.  A new process first gives back `ptable.lock`, in
`forkret`. -/
def System.boot (data : Data) (start : Thread → Loc) : System Cpu Thread L Chan Data Loc where
  data := data
  ctl p := .yieldRelease (.run (start p))
  state _ := .runnable
  chan _ := none
  cur _ := none
  sched _ := .acquire
  holder _ := none

/-- All threads start from the same point. -/
abbrev System.initial (data : Data) (start : Loc) : System Cpu Thread L Chan Data Loc :=
  System.boot data fun _ => start

/-- The states of all runs from `first`. -/
abbrev Reachable (first : System Cpu Thread L Chan Data Loc) :
    System Cpu Thread L Chan Data Loc → Prop :=
  Relation.ReflTransGen (Step prog table) first

end Xv6.Sync
