import Xv6.Process.Preservation

/-!
# No process starves

A runnable process waits on one of the ready lists.  On list 1 it moves forward
whenever the head of that list is dispatched, which every iteration that resets
the priorities does; on the other lists it waits for the next reset, which moves
it to list 1.  Processes may be appended to any list at any time, also to list
0, which is served first.  The rank of the waiting process combines its position
on list 1 with the countdown to the next reset.  Each iteration that dispatches
another process decreases it and no other step changes it.
-/

namespace Xv6.Process

open Linked Labelled Function

namespace Lists

variable {l l' : Lists} {p x : Slot} {i : Fin 3} {timeToReset : Nat}

/-- The slot waits on a ready list. -/
def Queued (l : Lists) (x : Slot) : Prop :=
  ∃ i, x ∈ l.ready i

/-- The iterations left before `x` must have been dispatched. -/
def rank (l : Lists) (timeToReset : Nat) (x : Slot) : Nat :=
  timeToReset + (maxTimeToReset + 1) *
    if x ∈ l.ready 1 then (l.ready 1).idxOf x else nproc - 1

/-- Appending to the lists leaves the rank as it is. -/
theorem rank_append (timeToReset : Nat) (grows : ∀ i, l.ready i <+: l'.ready i)
    (apart : ∀ p i j, p ∈ l'.ready i → p ∈ l'.ready j → i = j) (queued : l.Queued x) :
    l'.Queued x ∧ l'.rank timeToReset x = l.rank timeToReset x := by
  obtain ⟨i, member⟩ := queued
  have member' : x ∈ l'.ready i := (grows i).subset member
  refine ⟨⟨i, member'⟩, ?_⟩
  by_cases one : x ∈ l.ready 1
  · obtain ⟨added, extended⟩ := grows 1
    have one' : x ∈ l'.ready 1 := (grows 1).subset one
    simp only [rank, one, one', if_true]
    rw [← extended, List.idxOf_append_of_mem one]
  · have one' : x ∉ l'.ready 1 := by
      intro here
      rw [apart x i 1 member' here] at member
      exact one member
    simp only [rank, one, one', if_false]

/-- Taking the head off a list moves every other slot of it one place forward. -/
theorem idxOf_erase_head {xs : List Slot} (head : xs.head? = some p) (other : p ≠ x) :
    xs.idxOf x = (xs.erase p).idxOf x + 1 := by
  obtain ⟨rest, rfl⟩ := List.head?_eq_some_iff.mp head
  simp [List.idxOf_cons_ne rest other]

/-- An iteration that resets the priorities takes the head of list 1, which by
then holds every queued slot. -/
theorem rank_dispatch_reset (short : (l.reset.ready 1).length ≤ nproc) (queued : l.Queued x)
    (selected : l.reset.select = some (i, p)) (other : p ≠ x) :
    (l.reset.remove i p).Queued x ∧
      (l.reset.remove i p).rank maxTimeToReset x < l.rank 0 x := by
  obtain ⟨head, -⟩ := select_eq_some_iff.mp selected
  obtain rfl : i = 1 := by
    have member := (mem_reset_ready_iff l p i).mp (List.mem_of_head? head)
    exact member.1
  have onOne : x ∈ l.reset.ready 1 := (mem_reset_ready_iff l x 1).mpr ⟨rfl, queued⟩
  have forward := idxOf_erase_head head other
  have position := List.idxOf_lt_length_of_mem onOne
  have stays : x ∈ (l.reset.remove 1 p).ready 1 := by
    simpa [remove] using (List.mem_erase_of_ne other.symm).mpr onOne
  have before : (l.reset.ready 1).idxOf x ≤
      if x ∈ l.ready 1 then (l.ready 1).idxOf x else nproc - 1 := by
    split
    · rename_i one
      rw [reset_ready_one, List.append_assoc, List.idxOf_append_of_mem one]
    · omega
  refine ⟨⟨1, stays⟩, ?_⟩
  have after : ((l.reset.remove 1 p).ready 1).idxOf x + 1 = (l.reset.ready 1).idxOf x := by
    simpa [remove] using forward.symm
  simp only [rank, stays, if_true]
  generalize (if x ∈ l.ready 1 then (l.ready 1).idxOf x else nproc - 1) = place at before
  have bound : ((l.reset.remove 1 p).ready 1).idxOf x + 1 ≤ place := by omega
  calc maxTimeToReset + (maxTimeToReset + 1) * ((l.reset.remove 1 p).ready 1).idxOf x
      < (maxTimeToReset + 1) * (((l.reset.remove 1 p).ready 1).idxOf x + 1) := by
        rw [Nat.mul_add]
        omega
    _ ≤ (maxTimeToReset + 1) * place := Nat.mul_le_mul_left _ bound
    _ = 0 + (maxTimeToReset + 1) * place := (Nat.zero_add _).symm

/-- Any other iteration counts down, and lets no slot overtake on list 1. -/
theorem rank_dispatch_countdown (queued : l.Queued x) (selected : l.select = some (i, p))
    (other : p ≠ x) (running : timeToReset ≠ 0) :
    (l.remove i p).Queued x ∧
      (l.remove i p).rank (timeToReset - 1) x < l.rank timeToReset x := by
  obtain ⟨head, -⟩ := select_eq_some_iff.mp selected
  have mem_iff : ∀ j, x ∈ (l.remove i p).ready j ↔ x ∈ l.ready j := by
    intro j
    by_cases same : j = i
    · subst same
      simp [remove, List.mem_erase_of_ne other.symm]
    · simp [remove, same]
  obtain ⟨j, member⟩ := queued
  refine ⟨⟨j, (mem_iff j).mpr member⟩, ?_⟩
  have forward : ((l.remove i p).ready 1).idxOf x ≤ (l.ready 1).idxOf x := by
    by_cases same : i = 1
    · subst same
      simp [remove, idxOf_erase_head head other]
    · simp [remove, update_of_ne (Ne.symm same)]
  have place : (if x ∈ (l.remove i p).ready 1 then ((l.remove i p).ready 1).idxOf x
      else nproc - 1) ≤
      if x ∈ l.ready 1 then (l.ready 1).idxOf x else nproc - 1 := by
    simp only [mem_iff 1]
    split
    · exact forward
    · exact Nat.le_refl _
  have scaled := Nat.mul_le_mul_left (maxTimeToReset + 1) place
  simp only [rank]
  omega

end Lists

/-- The event is an iteration of the scheduler's inner loop. -/
def Event.isDispatch : Event → Bool
  | .dispatched _ => true
  | _ => false

namespace Kernel

variable {Cpu : Type} [DecidableEq Cpu] {k k' : Kernel Cpu} {l : Lists} {x : Slot}

/-- `x` waits on the ready lists, with that many iterations to go at most. -/
def Ranked (x : Slot) (k : Kernel Cpu) (rank : Nat) : Prop :=
  ∃ l, k.Inv l ∧ l.Queued x ∧ l.rank k.ptable.timeToReset x = rank

/-- A step does not raise the rank of `x`, and the dispatch of another process
lowers it. -/
theorem Ranked.step {event : Event} {rank : Nat} (ranked : Ranked x k rank) (edge : Step k event k')
    (other : event ≠ .dispatched x) :
    ∃ rank', Ranked x k' rank' ∧ rank' + (if event.isDispatch then 1 else 0) ≤ rank := by
  obtain ⟨l, inv, queued, rfl⟩ := ranked
  obtain ⟨l', inv', evolves⟩ := inv.move (step_move edge)
  have appended : (∀ i, l.ready i <+: l'.ready i) →
      k'.ptable.timeToReset = k.ptable.timeToReset →
      ∃ rank', Ranked x k' rank' ∧ rank' + 0 ≤ l.rank k.ptable.timeToReset x := by
    intro grows time
    obtain ⟨queued', same⟩ := Lists.rank_append k.ptable.timeToReset grows
      inv'.placed.rep.ready_ready queued
    exact ⟨_, ⟨l', inv', queued', rfl⟩, by rw [time, same]; rfl⟩
  cases event with
  | dispatched p =>
    have different : p ≠ x := by
      rintro rfl
      exact other rfl
    obtain ⟨⟨i, selected, rfl⟩, time⟩ := evolves
    by_cases due : k.ptable.timeToReset = 0
    · obtain ⟨t, -, scheduled, -⟩ := inv.placed.scheduled.countdown
      simp only [Lists.tick, due, if_true] at selected inv' time scheduled
      obtain ⟨queued', drops⟩ := Lists.rank_dispatch_reset
        (PTable.length_le_nproc (scheduled.rep.ready 1)) queued selected different
      refine ⟨_, ⟨_, inv', queued', rfl⟩, ?_⟩
      rw [time, due]
      exact drops
    · simp only [Lists.tick, due, if_false] at selected inv' time
      obtain ⟨queued', drops⟩ := Lists.rank_dispatch_countdown queued selected different due
      refine ⟨_, ⟨_, inv', queued', rfl⟩, ?_⟩
      rw [time]
      exact drops
  | internal | forked | exited | waited => exact appended evolves.1 evolves.2

/-- The countdown never exceeds its start value. -/
theorem Reachable.timeToReset_le (reachable : k.Reachable) :
    k.ptable.timeToReset ≤ maxTimeToReset := by
  obtain ⟨events, start, booted, run⟩ := reachable
  obtain ⟨l, first⟩ := Booted.of_userinit booted
  have counted := run.invariant
    (fun _ k => ∃ l, k.Inv l ∧ k.ptable.timeToReset ≤ maxTimeToReset)
    ⟨l, first.inv, by rw [first.time]; exact Nat.zero_le _⟩ ?_
  · exact counted.choose_spec.2
  · rintro events event middle last ⟨l, inv, bound⟩ edge
    obtain ⟨l', inv', evolves⟩ := inv.move (step_move edge)
    refine ⟨l', inv', ?_⟩
    cases event with
    | dispatched p =>
      rw [evolves.2]
      split <;> omega
    | internal | forked | exited | waited => exact evolves.2.trans_le bound

/-- A runnable process is on a ready list, with a rank below
`(maxTimeToReset + 1) * nproc`. -/
theorem Reachable.ranked (reachable : k.Reachable)
    (runnable : (k.ptable.proc x).state = .runnable) :
    ∃ rank < (maxTimeToReset + 1) * nproc, Ranked x k rank := by
  obtain ⟨l, inv⟩ := reachable.inv
  obtain ⟨i, index⟩ := inv.placed.valid x
  have queued : l.Queued x := ⟨i, (inv.placed.mem_ready x i).mpr ⟨runnable, index⟩⟩
  refine ⟨l.rank k.ptable.timeToReset x, ?_, l, inv, queued, rfl⟩
  have countdown := reachable.timeToReset_le
  have place : (if x ∈ l.ready 1 then (l.ready 1).idxOf x else nproc - 1) ≤ nproc - 1 := by
    split
    · rename_i one
      have position := List.idxOf_lt_length_of_mem one
      have short := PTable.length_le_nproc (inv.placed.rep.ready 1)
      omega
    · exact Nat.le_refl _
  have scaled := Nat.mul_le_mul_left (maxTimeToReset + 1) place
  simp only [Lists.rank, maxTimeToReset, nproc] at *
  omega

/-- CPU `c` is in its scheduler with a process to run, and every process would
resume outside the locked stretches. -/
structure Spinning (c : Cpu) (k : Kernel Cpu) : Prop where
  reachable : k.Reachable
  lock : k.lock = some c
  idle : k.proc c = none
  ready : k.ptable.anyReady = true
  plain : ∀ p, k.kont p = .run

theorem Reachable.step {event : Event} (reachable : k.Reachable) (edge : Step k event k') :
    k'.Reachable := by
  obtain ⟨events, start, booted, run⟩ := reachable
  exact ⟨event :: events, start, booted, run.step edge⟩

/-- The scheduler dispatches a process, which yields. -/
theorem Spinning.turn {c : Cpu} (spinning : Spinning c k) :
    ∃ p k', Trace Step k [.internal, .dispatched p] k' ∧ Spinning c k' := by
  obtain ⟨l, inv⟩ := spinning.reachable.inv
  obtain ⟨p, i, t, -, dispatched, -⟩ := inv.placed.dispatch spinning.ready
  have iterated : Step k (.dispatched p)
      { k with ptable := t, lock := none, proc := update k.proc c (some p) } :=
    ⟨.iterate c, by simp [Kernel.step, spinning.lock, spinning.idle, spinning.ready, dispatched,
      spinning.plain]⟩
  have reachable₁ := spinning.reachable.step iterated
  obtain ⟨l₁, inv₁⟩ := reachable₁.inv
  have running : (t.proc p).state = .running := (inv₁.running p).mpr ⟨c, by simp⟩
  obtain ⟨t₂, j, made, placed₂, -⟩ :=
    inv₁.placed.makeRunnable (p := p) (by simp [running]) (by simp [running])
  have yielded : Step { k with
        ptable := t, lock := none, proc := update k.proc c (some p) } .internal
      ({ k with
        ptable := t₂, lock := none, proc := update k.proc c (some p) }.sched c p .run) :=
    ⟨.yield c, by simp [Kernel.step, made]⟩
  refine ⟨p, _, (Trace.refl.step iterated).step yielded, reachable₁.step yielded, rfl, ?_, ?_, ?_⟩
  · simp [sched]
  · refine (PTable.anyReady_iff placed₂.rep).mpr fun nothing => ?_
    have empty := Lists.select_eq_none_iff.mp nothing
    simpa [Lists.enqueue] using empty j
  · intro q
    by_cases same : q = p
    · simp [sched, same]
    · simp [sched, update_of_ne same, spinning.plain q]

/-- It can go on like that for any number of iterations. -/
theorem Spinning.turns {c : Cpu} (spinning : Spinning c k) (iterations : Nat) :
    ∃ events k', Trace Step k events k' ∧ events.countP Event.isDispatch = iterations ∧
      Spinning c k' := by
  induction iterations with
  | zero => exact ⟨[], k, Trace.refl, rfl, spinning⟩
  | succ n ih =>
    obtain ⟨events, middle, run, count, spinning'⟩ := ih
    obtain ⟨p, last, turn, spinning''⟩ := spinning'.turn
    refine ⟨_, last, run.append turn, ?_, spinning''⟩
    rw [List.countP_append, count]
    simp [Event.isDispatch]
    omega

end Kernel

end Xv6.Process
