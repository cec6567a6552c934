import Xv6.Process.Preservation

/-!
# Priority and order of service

The scheduler takes the head of the first non-empty ready list.  So no runnable
process has a smaller priority than the one dispatched.  And two processes on the
same list stay in order: other steps append to the lists, a reset concatenates them,
and an iteration removes one process.  The one behind is not dispatched first.
-/

namespace Xv6.Process

open Linked Labelled

namespace Lists

variable {l l' : Lists} {a b p : Slot} {i : Fin 3}

/-- The two slots are on one ready list, `a` ahead of `b`. -/
def Ahead (l : Lists) (a b : Slot) : Prop :=
  ∃ i, [a, b].Sublist (l.ready i)

theorem Ahead.append (ahead : l.Ahead a b) (grows : ∀ i, l.ready i <+: l'.ready i) :
    l'.Ahead a b := by
  obtain ⟨i, order⟩ := ahead
  exact ⟨i, order.trans (grows i).sublist⟩

/-- A reset keeps each list as a part of list 1. -/
theorem ready_sublist_reset (l : Lists) (i : Fin 3) : (l.ready i).Sublist (l.reset.ready 1) := by
  rw [reset_ready_one]
  fin_cases i
  · exact (List.sublist_append_right (l.ready 1) (l.ready 0)).trans
      (List.sublist_append_left _ _)
  · exact (List.sublist_append_left (l.ready 1) (l.ready 0)).trans
      (List.sublist_append_left _ _)
  · exact List.sublist_append_right _ _

theorem Ahead.tick (ahead : l.Ahead a b) (timeToReset : Nat) : (l.tick timeToReset).Ahead a b := by
  obtain ⟨i, order⟩ := ahead
  unfold Lists.tick
  split
  · exact ⟨1, order.trans (l.ready_sublist_reset i)⟩
  · exact ⟨i, order⟩

/-- Removing another slot leaves the two in order. -/
theorem Ahead.remove (ahead : l.Ahead a b) (notFirst : p ≠ a) (notSecond : p ≠ b) :
    (l.remove i p).Ahead a b := by
  obtain ⟨j, order⟩ := ahead
  refine ⟨j, ?_⟩
  by_cases same : j = i
  · subst same
    have kept : [a, b].erase p = [a, b] := List.erase_of_not_mem (by simp [notFirst, notSecond])
    simpa [Lists.remove, kept] using order.erase p
  · simpa [Lists.remove, same] using order

/-- The slot behind does not head its list. -/
theorem Ahead.not_select (ahead : l.Ahead a b) (nodup : ∀ i, (l.ready i).Nodup)
    (apart : ∀ p i j, p ∈ l.ready i → p ∈ l.ready j → i = j) : l.select ≠ some (i, b) := by
  intro selected
  obtain ⟨j, order⟩ := ahead
  obtain ⟨rest, split⟩ := List.head?_eq_some_iff.mp (select_eq_some_iff.mp selected).1
  have here : b ∈ l.ready i := by simp [split]
  have there : b ∈ l.ready j := order.subset (by simp)
  obtain rfl := apart b i j here there
  have distinct := nodup i
  rw [split] at order distinct
  have pair : [a, b].Nodup := order.nodup distinct
  have behind : [a, b].Sublist rest := by
    refine (List.sublist_cons_iff.mp order).resolve_right ?_
    rintro ⟨tail, equal, -⟩
    have same : a = b := (List.cons.inj equal).1
    simp [same] at pair
  exact (List.nodup_cons.mp distinct).1 (behind.subset (by simp))

end Lists

namespace PTable

/-- The two slots are on one ready list of the table, `a` ahead of `b`. -/
def Ahead (t : PTable) (a b : Slot) : Prop :=
  ∃ i nodes, Chain t.next (t.pReadyList i) nodes ∧ [a, b].Sublist nodes

variable {t : PTable} {l : Lists} {p q : Slot} {i : Fin 3}

theorem Ahead.lists {a b : Slot} (ahead : t.Ahead a b) (rep : t.Rep l) : l.Ahead a b := by
  obtain ⟨i, nodes, chain, order⟩ := ahead
  obtain rfl := chain.unique (rep.ready i)
  exact ⟨i, order⟩

end PTable

namespace Kernel

variable {Cpu : Type} [DecidableEq Cpu] {k k' : Kernel Cpu} {l : Lists} {a b p : Slot}
  {event : Event}

/-! ## One step -/

/-- `a` waits ahead of `b`. -/
def Waits (a b : Slot) (k : Kernel Cpu) : Prop :=
  ∃ l, k.Inv l ∧ l.Ahead a b

/-- While `a` waits ahead of `b`, a step does not dispatch `b`, and `a` goes on waiting ahead
of `b` unless the step dispatches it. -/
theorem Waits.step (waits : Waits a b k) (edge : Step k event k') :
    event ≠ .dispatched b ∧ (event ≠ .dispatched a → Waits a b k') := by
  obtain ⟨l, inv, ahead⟩ := waits
  obtain ⟨l', inv', evolves⟩ := inv.move (step_move edge)
  cases event with
  | dispatched p =>
    obtain ⟨⟨i, selected, rfl⟩, -⟩ := evolves
    have ticked := ahead.tick k.ptable.timeToReset
    obtain ⟨t, -, scheduled, -⟩ := inv.placed.scheduled.countdown
    have notSecond : p ≠ b := by
      rintro rfl
      exact ticked.not_select (fun i => (scheduled.rep.ready i).nodup) scheduled.rep.ready_ready
        selected
    refine ⟨by simpa using notSecond, fun other => ⟨_, inv', ticked.remove ?_ notSecond⟩⟩
    simpa using other
  | internal | forked | exited | waited =>
    exact ⟨by simp, fun _ => ⟨l', inv', ahead.append evolves.1⟩⟩

/-! ## Runs -/

/-- Along a run `a` waits ahead of `b` until it is dispatched. -/
theorem Waits.run {events : List Event} (waits : Waits a b k) (run : Trace Step k events k') :
    .dispatched a ∈ events ∨ Waits a b k' := by
  induction run with
  | refl => exact .inr waits
  | @step events event middle last _ edge ih =>
    rcases ih with found | here
    · exact .inl (List.mem_cons_of_mem event found)
    · by_cases same : event = .dispatched a
      · exact .inl (by simp [same])
      · exact .inr ((here.step edge).2 same)

end Kernel

end Xv6.Process
