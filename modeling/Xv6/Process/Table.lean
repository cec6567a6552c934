import Xv6.Lib.Chain

/-!
# The process table and its four linked lists

`ptable` holds the process slots, the heads of three ready lists and of the
free list, and the counter of scheduler iterations until the next priority
reset.  All four lists run through the one `next` field of the slots.

A function that follows `next` may never return, and one that indexes
`pReadyList` with a slot's priority or dereferences a null pointer has no
defined result outside its range.  Both are the result `none`.  The traversals
are given `nproc` steps, which is exact: a walk over `nproc` slots that has not
met a null pointer by then is on a cycle.

The slot fields that no function here reads (address space, kernel stack, trap
frame, open files, name, user and group ids) are left out.
-/

namespace Xv6.Process

open Linked Function

/-- `NPROC`: the number of slots of the process table. -/
def nproc : Nat := 64

instance : NeZero nproc := ⟨by decide⟩

/-- The numerals of priorities go through this instance. -/
scoped instance queues_neZero : NeZero 3 := ⟨by decide⟩

/-- As do those of a single processor. -/
scoped instance cpu_neZero : NeZero 1 := ⟨by decide⟩

/-- `MaxTimeToReset`: scheduler iterations between two priority resets. -/
def maxTimeToReset : Nat := 100

/-- A non-null `struct proc *`, as an index into `ptable.proc`. -/
abbrev Slot := Fin nproc

instance slot_lawfulBEq : LawfulBEq Slot := inferInstance

/-- `enum procstate`. -/
inductive ProcState
  | unused
  | embryo
  | sleeping
  | runnable
  | running
  | zombie
  deriving DecidableEq, Repr

/-- A non-null sleep channel.  `wait` sleeps on the address of a slot; every
other channel of the kernel is the address of another object. -/
inductive Chan
  | proc (p : Slot)
  | object (address : Nat)
  deriving DecidableEq

/-- `struct proc`, less its `next` field. -/
structure Proc where
  state : ProcState
  pid : Int
  priority : Int
  parent : Option Slot
  chan : Option Chan
  killed : Bool
  deriving DecidableEq

/-- `ptable`, with the `next` fields of its slots kept beside the others. -/
structure PTable where
  proc : Slot → Proc
  next : Slot → Option Slot
  pReadyList : Fin 3 → Option Slot
  pFreeList : Option Slot
  timeToReset : Nat

namespace PTable

/-- Write some fields of one slot. -/
def modify (t : PTable) (p : Slot) (f : Proc → Proc) : PTable :=
  { t with proc := update t.proc p (f (t.proc p)) }

@[simp]
theorem modify_id (t : PTable) (p : Slot) : t.modify p id = t := by
  simp [modify]

/-- `p->state = state`. -/
def setState (t : PTable) (p : Slot) (state : ProcState) : PTable :=
  t.modify p fun q => { q with state }

/-- The first slot, in table order, whose pid is `pid`. -/
def slotOfPid (t : PTable) (pid : Int) : Option Slot :=
  (List.finRange nproc).find? fun p => (t.proc p).pid = pid

/-- The index `pReadyList[priority]`, defined for the priorities 0, 1 and 2. -/
def readyIndex : Int → Option (Fin 3)
  | 0 => some 0
  | 1 => some 1
  | 2 => some 2
  | _ => none

/-- `setpriority`: it takes no lock, looks at no state and accepts any
priority. -/
def setpriority (t : PTable) (pid priority : Int) : Int × PTable :=
  match t.slotOfPid pid with
  | some p => (0, t.modify p fun q => { q with priority })
  | none => (0, t)

/-- One half of `ResetPriority`: append ready list `i` to ready list 1. -/
def spliceReady (t : PTable) (i : Fin 3) : Option PTable :=
  match t.pReadyList i with
  | none => some t
  | some first =>
    match t.pReadyList 1 with
    | none =>
      some { t with
        pReadyList :=
          update (update t.pReadyList 1 (some first)) i none }
    | some head => do
        let temp ← lastNode t.next nproc head
        some { t with
          next := update t.next temp (some first)
          pReadyList := update t.pReadyList i none }

/-- `ResetPriority`: every slot gets priority 1, whatever its state, and the
lists 0 and 2 are moved to the end of list 1. -/
def resetPriority (t : PTable) : Option PTable := do
  let t ← spliceReady { t with proc := fun p => { t.proc p with priority := 1 } } 0
  spliceReady t 2

/-- `AddFreeList`: push a slot on the free list. -/
def addFreeList (t : PTable) : Option Slot → Int × PTable
  | none => (-1, t)
  | some toadd =>
    match t.pFreeList with
    | none =>
      (0, { t with pFreeList := some toadd, next := update t.next toadd none })
    | some restoflist =>
      (0, { t with
        pFreeList := some toadd
        next := update t.next toadd (some restoflist) })

/-- `RemoveFreeList`: pop the first slot of the free list. -/
def removeFreeList (t : PTable) : Option Slot × PTable :=
  match t.pFreeList with
  | none => (none, t)
  | some p => (some p, { t with pFreeList := t.next p })

/-- `AddReadyList`: append a runnable slot to the list of its priority. -/
def addReadyList (t : PTable) (toadd : Slot) : Option (Int × PTable) :=
  if (t.proc toadd).state ≠ .runnable then some (-1, t)
  else do
    let priority ← readyIndex (t.proc toadd).priority
    match t.pReadyList priority with
    | none =>
      some (0, { t with
        pReadyList := update t.pReadyList priority (some toadd)
        next := update t.next toadd none })
    | some first => do
        let temp ← lastNode t.next nproc first
        some (0, { t with
          next := update (update t.next toadd none) temp (some toadd) })

/-- `RemoveReadyList`: unlink a slot from the list of its priority.  A list of
one slot is emptied without a look at the argument. -/
def removeReadyList (t : PTable) (toremove : Slot) : Option (Int × PTable) := do
  let priority ← readyIndex (t.proc toremove).priority
  match t.pReadyList priority with
  | none => some (-1, t)
  | some first =>
    if t.next first = none then
      some (0, { t with pReadyList := update t.pReadyList priority none })
    else if first = toremove then
      some (0, { t with pReadyList := update t.pReadyList priority (t.next first) })
    else do
      let prev ← predecessor t.next toremove nproc first first
      some (0, { t with next := update t.next prev (t.next toremove) })

/-- `GetReady`: the head of the first non-empty ready list. -/
def getReady (t : PTable) : Option Slot :=
  match t.pReadyList 0 with
  | some p => some p
  | none =>
    match t.pReadyList 1 with
    | some p => some p
    | none => t.pReadyList 2

/-- Make a slot runnable and enqueue it, as `yield`, `wakeup1`, `kill`, `fork`
and `userinit` do. -/
def makeRunnable (t : PTable) (p : Slot) : Option PTable := do
  let (_, t) ← (t.setState p .runnable).addReadyList p
  some t

/-- The body of the loop of `wakeup1`. -/
def wakeSlot (chan : Option Chan) (t : PTable) (p : Slot) : Option PTable :=
  if (t.proc p).state = .sleeping ∧ (t.proc p).chan = chan then t.makeRunnable p else some t

/-- `wakeup1`: wake every process that sleeps on `chan`, in table order. -/
def wakeup1 (t : PTable) (chan : Option Chan) : Option PTable :=
  (List.finRange nproc).foldlM (wakeSlot chan) t

/-- The locked part of `kill`. -/
def kill (t : PTable) (pid : Int) : Option (Int × PTable) :=
  match t.slotOfPid pid with
  | none => some (-1, t)
  | some p => do
      let t := t.modify p fun q => { q with killed := true }
      if (t.proc p).state = .sleeping then
        let t ← t.makeRunnable p
        some (0, t)
      else some (0, t)

/-- The body of the loop of `exit` that passes children to `initproc`. -/
def reparentSlot (self initproc : Slot) (t : PTable) (p : Slot) : Option PTable :=
  if (t.proc p).parent = some self then
    let t := t.modify p fun q => { q with parent := some initproc }
    if (t.proc p).state = .zombie then t.wakeup1 (some (.proc initproc)) else some t
  else some t

/-- The locked part of `exit`, up to the call of `sched`. -/
def exitLocked (t : PTable) (self initproc : Slot) : Option PTable := do
  let t ← t.wakeup1 ((t.proc self).parent.map .proc)
  let t ← (List.finRange nproc).foldlM (reparentSlot self initproc) t
  some (t.setState self .zombie)

/-- What one scan of the table by `wait` leads to. -/
inductive WaitResult
  | reaped (pid : Int) (t : PTable)
  | failed
  | sleep

/-- One turn of the loop of `wait`: the scan for zombie children and the test
that follows it. -/
def waitScan (t : PTable) (self : Slot) : WaitResult :=
  let children := (List.finRange nproc).filter fun p => (t.proc p).parent = some self
  match children.find? fun p => (t.proc p).state = .zombie with
  | some p =>
    let t' := ((t.setState p .unused).addFreeList (some p)).2
    .reaped (t.proc p).pid
      (t'.modify p fun q => { q with pid := 0, parent := none, killed := false })
  | none => if children = [] ∨ (t.proc self).killed then .failed else .sleep

/-- The start of an iteration of the inner loop of `scheduler`: reset the
priorities, or count down to the next reset. -/
def countdown (t : PTable) : Option PTable :=
  if t.timeToReset = 0 then
    t.resetPriority.map fun t => { t with timeToReset := maxTimeToReset }
  else some { t with timeToReset := t.timeToReset - 1 }

/-- One iteration of the inner loop of `scheduler`, up to the context switch:
the slot that is switched to and the table then. -/
def dispatch (t : PTable) : Option (Slot × PTable) := do
  let t ← t.countdown
  let p ← t.getReady
  let (_, t) ← (t.setState p .running).removeReadyList p
  some (p, t)

/-- The condition of the inner loop of `scheduler`. -/
def anyReady (t : PTable) : Bool :=
  (t.pReadyList 0).isSome || (t.pReadyList 1).isSome || (t.pReadyList 2).isSome

end PTable

end Xv6.Process
