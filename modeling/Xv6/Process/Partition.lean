import Xv6.Process.Preservation

/-!
# Every slot is in exactly one place

At every point of every run the four lists are null-terminated and acyclic, and
the state of a slot says where it is: on the free list, on the ready list of
its priority, on one CPU, or nowhere.  The one exception is a slot that a
failing `fork` has just marked unused: `fork` and `allocproc` do that before
they call `AddFreeList`, so for a moment it is on no list at all.
-/

namespace Xv6.Process

open Linked

/-- The one place of a slot, given the contents of the lists.  A slot in
`pending` is unused and still to be put on the free list. -/
def Located {Cpu : Type} (k : Kernel Cpu) (l : Lists) (pending : Slot → Prop) (p : Slot) : Prop :=
  match (k.ptable.proc p).state with
  | .unused =>
    (pending p → p ∉ l.free) ∧ (¬ pending p → l.free.count p = 1) ∧ (∀ i, p ∉ l.ready i) ∧
      ∀ c, k.proc c ≠ some p
  | .runnable =>
    (∃ i : Fin 3, (k.ptable.proc p).priority = (i : Nat) ∧ (l.ready i).count p = 1 ∧
      ∀ j ≠ i, p ∉ l.ready j) ∧ p ∉ l.free ∧ ∀ c, k.proc c ≠ some p
  | .running => l.Off p ∧ ∃! c, k.proc c = some p
  | _ => l.Off p ∧ ∀ c, k.proc c ≠ some p

/-- The four lists are acyclic and end in null, and every slot is in its one
place. -/
def Partitioned {Cpu : Type} (k : Kernel Cpu) (pending : Slot → Prop) : Prop :=
  ∃ l : Lists, Chain k.ptable.next k.ptable.pFreeList l.free ∧ l.free.Nodup ∧
    (∀ i, Chain k.ptable.next (k.ptable.pReadyList i) (l.ready i) ∧ (l.ready i).Nodup) ∧
    ∀ p, Located k l pending p

namespace Kernel

variable {Cpu : Type} {k : Kernel Cpu} {l : Lists} {p : Slot}

/-- The running processes are those that are current on some CPU. -/
theorem Inv.not_current (inv : k.Inv l) (notRunning : (k.ptable.proc p).state ≠ .running)
    (c : Cpu) : k.proc c ≠ some p :=
  fun current => notRunning ((inv.running p).mpr ⟨c, current⟩)

/-- Under the invariant every slot is in its place. -/
theorem Inv.located (inv : k.Inv l) (p : Slot) : Located k l k.Discarded p := by
  have placed := inv.placed
  unfold Located
  cases state : (k.ptable.proc p).state with
  | unused =>
    refine ⟨fun out member => ((placed.mem_free p).mp member).2 out, fun within => ?_, ?_,
      inv.not_current (by simp [state])⟩
    · exact List.count_eq_one_of_mem placed.rep.free.nodup ((placed.mem_free p).mpr ⟨state, within⟩)
    · intro i member
      simpa [state] using ((placed.mem_ready p i).mp member).1
  | runnable =>
    obtain ⟨i, index⟩ := placed.valid p
    have queued : p ∈ l.ready i := (placed.mem_ready p i).mpr ⟨state, index⟩
    refine ⟨⟨i, PTable.readyIndex_eq_some_iff.mp index,
      List.count_eq_one_of_mem (placed.rep.ready i).nodup queued, ?_⟩, ?_,
      inv.not_current (by simp [state])⟩
    · intro j different member
      exact different (placed.rep.ready_ready p j i member queued)
    · intro member
      simpa [state] using ((placed.mem_free p).mp member).1
  | running =>
    obtain ⟨c, current⟩ := (inv.running p).mp state
    refine ⟨placed.off (by simp [state]) (by simp [state]), c, current, fun d there => ?_⟩
    exact inv.single d c p there current
  | embryo | zombie =>
    exact ⟨placed.off (by simp [state]) (by simp [state]), inv.not_current (by simp [state])⟩
  | sleeping =>
    exact ⟨placed.off (by simp [state]) (by simp [state]), inv.not_current (by simp [state])⟩

theorem Inv.partitioned (inv : k.Inv l) : Partitioned k k.Discarded := by
  have rep := inv.placed.rep
  exact ⟨l, rep.free, rep.free.nodup, fun i => ⟨rep.ready i, (rep.ready i).nodup⟩, inv.located⟩

variable [DecidableEq Cpu]

/-- In every state of every run each slot is in exactly one place, except that a
slot which a failing `fork` or `allocproc` has marked unused is on no list until
its call of `AddFreeList`. -/
theorem partition_of_reachable (reachable : k.Reachable) : Partitioned k k.Discarded := by
  obtain ⟨l, inv⟩ := reachable.inv
  exact inv.partitioned

/-- A discarded slot is on no list, although it is unused. -/
theorem Reachable.not_partitioned (reachable : k.Reachable) (out : k.Discarded p) :
    ¬ Partitioned k fun _ => False := by
  rintro ⟨l', freeChain, -, -, located⟩
  obtain ⟨l, inv⟩ := reachable.inv
  have unused := inv.unused_of_discarded out
  have once : l'.free.count p = 1 := by
    have here := located p
    simp only [Located, unused] at here
    exact here.2.1 not_false
  have sameFree : l'.free = l.free := freeChain.unique inv.placed.rep.free
  have member : p ∈ l.free := by
    rw [← sameFree, ← List.count_pos_iff, once]
    exact Nat.one_pos
  exact ((inv.placed.mem_free p).mp member).2 out

/-- The first process is dispatched on the one CPU and forks, and `copyuvm`
fails: the new slot is marked unused, and the lock is free. -/
def failingFork : List (Action (Fin 1)) :=
  [.acquire 0, .iterate 0, .allocproc 0, .kalloc 0 true, .copyuvm 0 false]

theorem exists_discarded : ∃ k : Kernel (Fin 1), k.Reachable ∧ k.lock = none ∧ k.Discarded 62 := by
  obtain ⟨events, k, run, lock, forking⟩ := exists_run failingFork
    (fun _ k => k.lock = none ∧ k.forking 63 = some (.discarded true, 62)) (by decide +kernel)
  exact ⟨k, ⟨events, run⟩, lock, 63, true, forking⟩

/-- The partition holds at the end of the failing fork with its one pending
slot. -/
theorem partitioned_of_failingFork :
    ∃ k : Kernel (Fin 1), k.Reachable ∧ k.lock = none ∧ k.Discarded 62 ∧
      Partitioned k k.Discarded := by
  obtain ⟨k, reachable, lock, out⟩ := exists_discarded
  exact ⟨k, reachable, lock, out, partition_of_reachable reachable⟩

/-- The partition without that exception fails there. -/
theorem not_partitioned_of_failingFork :
    ∃ k : Kernel (Fin 1), k.Reachable ∧ k.lock = none ∧ ¬ Partitioned k fun _ => False := by
  obtain ⟨k, reachable, lock, out⟩ := exists_discarded
  exact ⟨k, reachable, lock, reachable.not_partitioned out⟩

end Kernel

end Xv6.Process
