import Xv6.Process.Partition

/-!
# `setpriority` and the scheduler

`setpriority` writes the field that the list functions use as an index, for a
process in any state and without a look at the lists.  The exact condition
under which the scheduler stays sound afterwards is `Harmless`: a live target
gets a priority in range, and a runnable target the priority it already had.
Otherwise the next dispatch may leave the process it dispatches on a ready list.
-/

namespace Xv6.Process

open Linked

namespace PTable

variable {t : PTable} {l : Lists} {p : Slot} {pid priority : Int}

/-- The priority is an index of `pReadyList`. -/
def InRange (priority : Int) : Prop :=
  0 ≤ priority ∧ priority ≤ 2

theorem inRange_iff : InRange priority ↔ ∃ i, readyIndex priority = some i := by
  simp only [readyIndex_eq_some_iff, InRange]
  constructor
  · rintro ⟨low, high⟩
    refine ⟨⟨priority.toNat, by omega⟩, ?_⟩
    change priority = (priority.toNat : Int)
    omega
  · rintro ⟨i, equal⟩
    have bound := i.isLt
    omega

/-- The next iteration of the scheduler dispatches a slot of the ready lists and
takes that slot, and no other, off them. -/
def DispatchExact (t : PTable) : Prop :=
  t.anyReady = true → ∃ p t' l l', t.dispatch = some (p, t') ∧ t.Rep l ∧ t'.Rep l' ∧
    (∃ i, p ∈ l.ready i) ∧ ∀ q, (∃ i, q ∈ l'.ready i) ↔ (∃ i, q ∈ l.ready i) ∧ q ≠ p

/-- The scheduler can go on: every runnable slot is on exactly the ready list of
its priority, live slots have priorities in range, and the next dispatch is
exact. -/
structure Sound (t : PTable) : Prop where
  scheduled : ∃ l, t.Scheduled l
  inRange : ∀ p, (t.proc p).state ≠ .unused → InRange (t.proc p).priority
  dispatchExact : t.DispatchExact

/-- The calls of `setpriority` that do no harm. -/
structure Harmless (t : PTable) (pid priority : Int) : Prop where
  others : ∀ p, (t.proc p).state ≠ .unused → t.slotOfPid pid ≠ some p →
    InRange (t.proc p).priority
  target : ∀ p, t.slotOfPid pid = some p → (t.proc p).state ≠ .unused →
    InRange priority ∧ ((t.proc p).state = .runnable → priority = (t.proc p).priority)

/-- A countdown keeps the set of queued slots. -/
theorem mem_tick_ready_iff (timeToReset : Nat) :
    (∃ i, p ∈ (l.tick timeToReset).ready i) ↔ ∃ i, p ∈ l.ready i := by
  unfold Lists.tick
  split
  · simp [Lists.mem_reset_ready_iff]
  · rfl

/-- Dispatching is exact while the runnable slots are on the lists of their
priorities. -/
theorem Scheduled.dispatchExact (scheduled : t.Scheduled l) : t.DispatchExact := by
  intro ready
  obtain ⟨t₁, -, scheduled₁, -, -⟩ := scheduled.countdown
  obtain ⟨p, i, t', selected, dispatched, -, scheduled', -, -⟩ := scheduled.dispatch ready
  have member : p ∈ (l.tick t.timeToReset).ready i :=
    List.mem_of_head? (Lists.select_eq_some_iff.mp selected).1
  refine ⟨p, t', l, _, dispatched, scheduled.rep, scheduled'.rep,
    (mem_tick_ready_iff t.timeToReset).mp ⟨i, member⟩, fun q => ?_⟩
  rw [← mem_tick_ready_iff (l := l) t.timeToReset]
  simp only [scheduled₁.rep.mem_remove_ready_iff member, exists_and_right]

@[simp]
theorem setpriority_of_found (found : t.slotOfPid pid = some p) :
    (t.setpriority pid priority).2 = t.modify p fun q => { q with priority } := by
  simp [setpriority, found]

@[simp]
theorem setpriority_of_missing (missing : t.slotOfPid pid = none) :
    (t.setpriority pid priority).2 = t := by
  simp [setpriority, missing]

theorem setpriority_state (q : Slot) :
    ((t.setpriority pid priority).2.proc q).state = (t.proc q).state := by
  cases found : t.slotOfPid pid with
  | none => simp [found]
  | some p =>
    rw [setpriority_of_found found, modify_proc]
    split
    · rename_i same
      rw [same]
    · rfl

theorem setpriority_proc_of_ne {q : Slot} (different : t.slotOfPid pid ≠ some q) :
    (t.setpriority pid priority).2.proc q = t.proc q := by
  cases found : t.slotOfPid pid with
  | none => simp [found]
  | some p =>
    rw [setpriority_of_found found, modify_proc_of_ne]
    rintro rfl
    exact different found

theorem setpriority_priority (found : t.slotOfPid pid = some p) :
    ((t.setpriority pid priority).2.proc p).priority = priority := by
  rw [setpriority_of_found found, modify_proc_self]

/-- The lists are the same before and after, whatever becomes of the priorities. -/
theorem Rep.setpriority (rep : t.Rep l) : (t.setpriority pid priority).2.Rep l := by
  cases found : t.slotOfPid pid with
  | none => simpa [found] using rep
  | some p =>
    rw [setpriority_of_found found]
    exact rep.modify p _

/-- A runnable target must keep its priority. -/
theorem Scheduled.priority_eq (scheduled : t.Scheduled l) (found : t.slotOfPid pid = some p)
    (runnable : (t.proc p).state = .runnable)
    (after : ∃ l', (t.setpriority pid priority).2.Scheduled l') :
    priority = (t.proc p).priority := by
  obtain ⟨l', scheduled'⟩ := after
  obtain rfl : l' = l := scheduled'.rep.unique scheduled.rep.setpriority
  obtain ⟨i, index⟩ := scheduled.indexed p runnable
  have queued := (scheduled.mem_ready p i).mpr ⟨runnable, index⟩
  have index' := ((scheduled'.mem_ready p i).mp queued).2
  rw [setpriority_priority found] at index'
  rw [readyIndex_eq_some_iff] at index index'
  rw [index, index']

/-- A harmless call changes the priority of no runnable slot. -/
theorem Harmless.scheduled (harmless : t.Harmless pid priority) (scheduled : t.Scheduled l) :
    (t.setpriority pid priority).2.Scheduled l := by
  have same : ∀ q, (t.proc q).state = .runnable →
      ((t.setpriority pid priority).2.proc q).priority = (t.proc q).priority := by
    intro q runnable
    by_cases found : t.slotOfPid pid = some q
    · rw [setpriority_priority found]
      exact (harmless.target q found (by simp [runnable])).2 runnable
    · rw [setpriority_proc_of_ne found]
  refine ⟨scheduled.rep.setpriority, fun q i => ?_, fun q runnable => ?_⟩
  · rw [setpriority_state, scheduled.mem_ready q i]
    refine and_congr_right fun runnable => ?_
    rw [same q runnable]
  · rw [setpriority_state] at runnable
    rw [same q runnable]
    exact scheduled.indexed q runnable

end PTable

variable {Cpu : Type} {k : Kernel Cpu} {pending : Slot → Prop}

/-- A slot on a ready list is runnable, and the list is that of its priority. -/
theorem Located.ready {l : Lists} {p : Slot} {i : Fin 3} (located : Located k l pending p)
    (member : p ∈ l.ready i) :
    (k.ptable.proc p).state = .runnable ∧
      PTable.readyIndex (k.ptable.proc p).priority = some i ∧ p ∉ l.free := by
  unfold Located at located
  cases state : (k.ptable.proc p).state <;> simp only [state] at located
  case unused => exact absurd member (located.2.2.1 i)
  case runnable =>
    obtain ⟨⟨j, priority, -, elsewhere⟩, notFree, -⟩ := located
    obtain rfl : i = j := by
      by_contra different
      exact elsewhere i different member
    exact ⟨rfl, PTable.readyIndex_eq_some_iff.mpr priority, notFree⟩
  all_goals exact absurd member (located.1.2 i)

/-- In a partitioned state the runnable slots are on the lists of their
priorities. -/
theorem Partitioned.scheduled (partitioned : Partitioned k pending) :
    ∃ l, k.ptable.Scheduled l := by
  obtain ⟨l, freeChain, -, readyChain, located⟩ := partitioned
  have place : ∀ p, (k.ptable.proc p).state = .runnable →
      ∃ i : Fin 3, PTable.readyIndex (k.ptable.proc p).priority = some i ∧ p ∈ l.ready i := by
    intro p runnable
    have here := located p
    simp only [Located, runnable] at here
    obtain ⟨⟨i, priority, once, -⟩, -⟩ := here
    exact ⟨i, PTable.readyIndex_eq_some_iff.mpr priority, List.count_pos_iff.mp (by omega)⟩
  refine ⟨l, ⟨freeChain, fun i => (readyChain i).1, ?_, ?_⟩, ?_, ?_⟩
  · intro p free i member
    exact ((located p).ready member).2.2 free
  · intro p i j first second
    have indexI := ((located p).ready first).2.1
    have indexJ := ((located p).ready second).2.1
    exact Option.some.inj (indexI.symm.trans indexJ)
  · intro p i
    constructor
    · intro member
      obtain ⟨runnable, index, -⟩ := (located p).ready member
      exact ⟨runnable, index⟩
    · rintro ⟨runnable, index⟩
      obtain ⟨j, index', member⟩ := place p runnable
      obtain rfl : i = j := Option.some.inj (index.symm.trans index')
      exact member
  · intro p runnable
    obtain ⟨i, index, -⟩ := place p runnable
    exact ⟨i, index⟩

/-- In every state that satisfies the partition, for every pid and every
priority, the scheduler is sound after `setpriority` exactly if the call is
harmless. -/
theorem setpriority_sound_iff (partitioned : Partitioned k pending) (pid priority : Int) :
    (k.ptable.setpriority pid priority).2.Sound ↔ k.ptable.Harmless pid priority := by
  obtain ⟨l, scheduled⟩ := partitioned.scheduled
  constructor
  · intro sound
    refine ⟨fun p live other => ?_, fun p found live => ⟨?_, fun runnable => ?_⟩⟩
    · have inRange := sound.inRange p (by rwa [PTable.setpriority_state])
      rwa [PTable.setpriority_proc_of_ne other] at inRange
    · have inRange := sound.inRange p (by rwa [PTable.setpriority_state])
      rwa [PTable.setpriority_priority found] at inRange
    · exact scheduled.priority_eq found runnable sound.scheduled
  · intro harmless
    have scheduled' := harmless.scheduled scheduled
    refine ⟨⟨l, scheduled'⟩, fun p live => ?_, scheduled'.dispatchExact⟩
    rw [PTable.setpriority_state] at live
    by_cases found : k.ptable.slotOfPid pid = some p
    · rw [PTable.setpriority_priority found]
      exact (harmless.target p found live).1
    · rw [PTable.setpriority_proc_of_ne found]
      exact harmless.others p live found

/-- The first process forks: its child, with pid 2, is runnable on list 1. -/
def firstFork : List (Action (Fin 1)) :=
  [.acquire 0, .iterate 0, .allocproc 0, .kalloc 0 true, .copyuvm 0 true, .setParent 0,
    .initPriority 0, .publish 0]

/-- After a call `setpriority(2, 0)` the child is dispatched and stays on list 1,
where the next CPU would find it. -/
theorem exists_child : ∃ k : Kernel (Fin 1), k.Reachable ∧ k.lock = none ∧
    k.ptable.slotOfPid 2 = some 62 ∧ (k.ptable.proc 62).state = .runnable ∧
    (k.ptable.proc 62).priority = 1 ∧
    (k.ptable.setpriority 2 0).2.dispatch.map (fun (p, t) => (p, (t.proc p).state, t.getReady)) =
      some (62, .running, some 62) := by
  obtain ⟨events, k, run, seen⟩ := Kernel.exists_run firstFork
    (fun _ k => k.lock = none ∧ k.ptable.slotOfPid 2 = some 62 ∧
      (k.ptable.proc 62).state = .runnable ∧ (k.ptable.proc 62).priority = 1 ∧
      (k.ptable.setpriority 2 0).2.dispatch.map (fun (p, t) => (p, (t.proc p).state, t.getReady)) =
        some (62, .running, some 62))
    (by decide +kernel)
  exact ⟨k, ⟨events, run⟩, seen⟩

/-- A call that gives the child the priority it has is harmless. -/
theorem setpriority_sound_of_same : ∃ k : Kernel (Fin 1), k.Reachable ∧
    Partitioned k k.Discarded ∧ k.ptable.Harmless 2 1 ∧ (k.ptable.setpriority 2 1).2.Sound := by
  obtain ⟨k, reachable, -, found, -, priority, -⟩ := exists_child
  obtain ⟨l, inv⟩ := reachable.inv
  have partitioned : Partitioned k k.Discarded := inv.partitioned
  have harmless : k.ptable.Harmless 2 1 := by
    refine ⟨fun p _ _ => PTable.inRange_iff.mpr (inv.placed.valid p), fun p found' _ => ?_⟩
    obtain rfl : p = 62 := Option.some.inj (found'.symm.trans found)
    exact ⟨by simp [PTable.InRange], fun _ => priority.symm⟩
  exact ⟨k, reachable, partitioned, harmless, (setpriority_sound_iff partitioned 2 1).mpr harmless⟩

/-- A call that moves the runnable child to priority 0 leaves it on list 1: the
next dispatch runs it and does not take it off. -/
theorem setpriority_not_sound : ∃ k : Kernel (Fin 1), k.Reachable ∧ k.lock = none ∧
    Partitioned k k.Discarded ∧ ¬ (k.ptable.setpriority 2 0).2.Sound ∧
    (k.ptable.setpriority 2 0).2.dispatch.map (fun (p, t) => (p, (t.proc p).state, t.getReady)) =
      some (62, .running, some 62) := by
  obtain ⟨k, reachable, lock, found, runnable, priority, dispatched⟩ := exists_child
  obtain ⟨l, inv⟩ := reachable.inv
  refine ⟨k, reachable, lock, inv.partitioned, fun sound => ?_, dispatched⟩
  have kept := inv.placed.scheduled.priority_eq found runnable sound.scheduled
  rw [priority] at kept
  exact absurd kept (by decide)

end Xv6.Process
