import Xv6.Process.Queue

/-!
# Two list functions on their own

What `ResetPriority` and `RemoveReadyList` do to any table whose lists are
null-terminated and do not meet, whatever the states of the slots.

`ResetPriority` concatenates the ready lists.  `RemoveReadyList` removes its argument
if the argument is on the list of its priority.  If it is not, the function is right
only on an empty list: a list of one slot is emptied without a look at the argument,
and on a longer list the search runs into a null pointer.
-/

namespace Xv6.Process

open Linked

namespace PTable

variable {t : PTable} {l : Lists} {p : Slot} {i : Fin 3}

/-! ## `ResetPriority` -/

/-- Without processes to move, only the priorities are written. -/
theorem resetPriority_of_empty (zero : t.pReadyList 0 = none) (two : t.pReadyList 2 = none) :
    t.resetPriority = some { t with proc := fun p => { t.proc p with priority := 1 } } := by
  simp [resetPriority, spliceReady, zero, two]

/-- `ResetPriority` returns.  List 1 is then the old list 1, the old list 0 and the old
list 2, the other ready lists are empty, and the free list is the same.  Every
priority is 1 and no other field has changed, apart from the links of the ready lists.
A second call changes nothing. -/
theorem resetPriority_concatenates (rep : t.Rep l) :
    ∃ t', t.resetPriority = some t' ∧
      Chain t'.next (t'.pReadyList 1) (l.ready 1 ++ l.ready 0 ++ l.ready 2) ∧
      t'.pReadyList 0 = none ∧ t'.pReadyList 2 = none ∧ Chain t'.next t'.pFreeList l.free ∧
      (∀ p, t'.proc p = { t.proc p with priority := 1 }) ∧ t'.timeToReset = t.timeToReset ∧
      t'.pFreeList = t.pFreeList ∧ (∀ q, (∀ i, q ∉ l.ready i) → t'.next q = t.next q) ∧
      t'.resetPriority = some t' := by
  obtain ⟨t', returned, rep', proc, time, free, off⟩ := resetPriority_eq rep
  have one := rep'.ready 1
  rw [Lists.reset_ready_one] at one
  have zero : t'.pReadyList 0 = none := (rep'.ready 0).eq_nil_iff.mp l.reset_ready_zero
  have two : t'.pReadyList 2 = none := (rep'.ready 2).eq_nil_iff.mp l.reset_ready_two
  refine ⟨t', returned, one, zero, two, rep'.free, fun p => by rw [proc], time,
    free, off, ?_⟩
  rw [resetPriority_of_empty zero two, proc]
  exact congrArg some (by rw [← proc])

/-- A table with the slots 0 and 1 on ready list 0, slot 2 on ready list 1 and the slots
3 and 4 on the free list. -/
def threeReady : PTable where
  proc p := ⟨.runnable, p, if p < 2 then 0 else 1, none, none, false⟩
  next p := if p = 0 then some 1 else if p = 3 then some 4 else none
  pReadyList i := if i = 0 then some 0 else if i = 1 then some 2 else none
  pFreeList := some 3
  timeToReset := 0

theorem threeReady_rep : threeReady.Rep ⟨[3, 4], ![[0, 1], [2], []]⟩ := by
  refine ⟨by simp [threeReady], fun i => ?_, ?_, ?_⟩
  · fin_cases i <;> simp [threeReady, nproc]
  · simp [Fin.forall_fin_succ]
  · decide

/-- The reset moves both slots of list 0 behind the one of list 1. -/
theorem threeReady_reset : ∃ t', threeReady.resetPriority = some t' ∧
    Chain t'.next (t'.pReadyList 1) [2, 0, 1] := by
  obtain ⟨t', returned, one, -⟩ := resetPriority_concatenates threeReady_rep
  exact ⟨t', returned, one⟩

/-! ## `RemoveReadyList` -/

/-- The ready lists are null-terminated, and no slot is on two of them. -/
structure Ready (t : PTable) (ready : Fin 3 → List Slot) : Prop where
  chain : ∀ i, Chain t.next (t.pReadyList i) (ready i)
  disjoint : ∀ p i j, p ∈ ready i → p ∈ ready j → i = j

/-- `RemoveReadyList` of a slot with priority `i` returns.  It removes the slot if the slot is on
its list, and says whether it was; the other lists are the same. -/
def RemovesExactly (t : PTable) (ready : Fin 3 → List Slot) (i : Fin 3) (p : Slot) : Prop :=
  ∃ result t', t.removeReadyList p = some (result, t') ∧
    result = (if p ∈ ready i then 0 else -1) ∧
    (∀ j, Chain t'.next (t'.pReadyList j) (if j = i then (ready i).erase p else ready j)) ∧
    t'.pFreeList = t.pFreeList ∧ (∀ q, (∀ j, q ∉ ready j) → t'.next q = t.next q) ∧
    t'.proc = t.proc

variable {ready : Fin 3 → List Slot}

/-- The slot is on its list. -/
theorem Ready.removesExactly_of_mem (lists : t.Ready ready)
    (index : readyIndex (t.proc p).priority = some i) (queued : p ∈ ready i) :
    RemovesExactly t ready i p := by
  obtain ⟨t', removed, here, heads, elsewhere, free, proc, -⟩ :=
    removeReadyList_chain (lists.chain i) index queued
  refine ⟨0, t', removed, (if_pos queued).symm, fun j => ?_, free,
    fun q off => elsewhere q (off i), proc⟩
  by_cases same : j = i
  · subst same
    rwa [if_pos rfl]
  · rw [if_neg same, heads j same]
    refine (lists.chain j).congr fun q member => elsewhere q fun other => ?_
    exact same (lists.disjoint q j i member other)

/-- The list is empty. -/
theorem Ready.removesExactly_of_nil (lists : t.Ready ready)
    (index : readyIndex (t.proc p).priority = some i) (empty : ready i = []) :
    RemovesExactly t ready i p := by
  have null : t.pReadyList i = none := (lists.chain i).eq_nil_iff.mp empty
  refine ⟨-1, t, by simp [removeReadyList, index, null], by simp [empty], fun j => ?_, rfl,
    fun _ _ => rfl, rfl⟩
  by_cases same : j = i
  · subst same
    simpa [empty] using null
  · rw [if_neg same]
    exact lists.chain j

/-- The slot is not on its list, and the list is not empty: the list is emptied, or the
function does not return. -/
theorem Ready.not_removesExactly (lists : t.Ready ready)
    (index : readyIndex (t.proc p).priority = some i) (absent : p ∉ ready i)
    (nonempty : ready i ≠ []) : ¬ RemovesExactly t ready i p := by
  rintro ⟨result, t', removed, isResult, -⟩
  rw [if_neg absent] at isResult
  have chain := lists.chain i
  cases nodes : ready i with
  | nil => exact nonempty nodes
  | cons first rest =>
    rw [nodes] at chain absent
    have head : t.pReadyList i = some first := chain.1
    have notFirst : first ≠ p := by
      rintro rfl
      exact absent List.mem_cons_self
    cases successor : t.next first with
    | none =>
      simp only [removeReadyList, index, Option.bind_eq_bind, Option.bind_some, head, successor,
        if_true, Option.some.injEq, Prod.mk.injEq] at removed
      rw [isResult] at removed
      exact absurd removed.1 (by decide)
    | some second =>
      have lost : predecessor t.next p nproc first first = none := by
        have onward : Chain t.next (some first) (first :: rest) := ⟨rfl, chain.2⟩
        exact predecessor_eq_none onward absent nproc
      simp [removeReadyList, index, head, successor, notFirst, lost] at removed

/-- `RemoveReadyList` removes exactly its argument if and only if the argument is on the
list of its priority or that list is empty. -/
theorem removesExactly_iff (lists : t.Ready ready) (index : (t.proc p).priority = (i : Nat)) :
    RemovesExactly t ready i p ↔ p ∈ ready i ∨ ready i = [] := by
  have isIndex := readyIndex_eq_some_iff.mpr index
  constructor
  · intro exactly
    by_contra neither
    rw [not_or] at neither
    exact lists.not_removesExactly isIndex neither.1 neither.2 exactly
  · rintro (queued | empty)
    · exact lists.removesExactly_of_mem isIndex queued
    · exact lists.removesExactly_of_nil isIndex empty

theorem threeReady_ready : threeReady.Ready ![[0, 1], [2], []] :=
  ⟨threeReady_rep.ready, threeReady_rep.ready_ready⟩

/-- Slot 1 is the last one on list 0, and it is removed. -/
theorem threeReady_removes_last : RemovesExactly threeReady ![[0, 1], [2], []] 0 1 := by
  rw [removesExactly_iff threeReady_ready rfl]
  exact .inl (by simp)

/-- Slot 5 has priority 1 and is not on list 1, where slot 2 is alone.  The call removes
slot 2. -/
theorem threeReady_removes_other : threeReady.Ready ![[0, 1], [2], []] ∧
    (threeReady.proc 5).priority = 1 ∧ (threeReady.removeReadyList 5).map (·.1) = some 0 ∧
    (threeReady.removeReadyList 5).map (·.2.pReadyList 1) = some none ∧
    ¬ RemovesExactly threeReady ![[0, 1], [2], []] 1 5 := by
  refine ⟨threeReady_ready, rfl, rfl, rfl, ?_⟩
  exact threeReady_ready.not_removesExactly rfl (by simp) (by simp)

end PTable

end Xv6.Process
