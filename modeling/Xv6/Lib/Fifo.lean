import Mathlib

/-!
# Bounded queues with free running counters

A queue in an array of `cap` cells with two counters, of the elements taken out and
of the elements put in.  The counters run freely modulo `M` and the array is indexed
modulo `cap`, which divides `M`.  Everything that ever went in and came out is kept as
two lists, of which the counters and the cells show a part.
-/

namespace Fifo

variable {α : Type*} {cap M : Nat} [NeZero cap] {cell : Fin cap → α} {r w : Nat}
variable {out inp : List α}

/-- The cells and counters hold the queue with the given history. -/
structure Holds (cap M : Nat) [NeZero cap] (cell : Fin cap → α) (r w : Nat) (out inp : List α) :
    Prop where
  read : r = out.length % M
  written : w = inp.length % M
  behind : out <+: inp
  room : inp.length ≤ out.length + cap
  stored : ∀ k, out.length ≤ k → (bound : k < inp.length) → cell (Fin.ofNat cap k) = inp[k]

namespace Holds

omit [NeZero cap] in
/-- Counters that differ by at most `cap < M` are equal when they are equal modulo `M`. -/
theorem eq_of_mod_eq {a b : Nat} (small : cap < M) (le : a ≤ b) (close : b ≤ a + cap)
    (same : a % M = b % M) : a = b := by
  obtain ⟨k, rfl⟩ := Nat.exists_eq_add_of_le le
  have multiple : M ∣ k := (Nat.modEq_iff_dvd' le).mp same |>.trans (by simp)
  have zero : k = 0 := Nat.eq_zero_of_dvd_of_lt multiple (by omega)
  omega

variable (holds : Holds cap M cell r w out inp)
include holds

theorem length_le : out.length ≤ inp.length :=
  holds.behind.length_le

/-- The counters are equal when the queue is empty. -/
theorem eq_iff (small : cap < M) : r = w ↔ out = inp := by
  rw [holds.read, holds.written]
  constructor
  · intro same
    have lengths := eq_of_mod_eq small holds.length_le holds.room same
    exact holds.behind.eq_of_length lengths
  · rintro rfl
    rfl

/-- The counters differ by `cap` when the queue is full. -/
theorem eq_add_iff (small : cap < M) : w = (r + cap) % M ↔ inp.length = out.length + cap := by
  rw [holds.read, holds.written, Nat.mod_add_mod]
  constructor
  · intro same
    exact eq_of_mod_eq small holds.room (by have := holds.length_le; omega) same
  · intro same
    rw [same]

/-- The difference of the counters is the number of elements in the queue. -/
theorem sub_mod (small : cap < M) : (M - r + w) % M = inp.length - out.length := by
  have le := holds.length_le
  have room := holds.room
  have bound : r < M := by
    rw [holds.read]
    exact Nat.mod_lt _ (by omega)
  have total : (M - r + w + out.length) % M = (inp.length - out.length + out.length) % M := by
    calc
      (M - r + w + out.length) % M = (M - r + inp.length % M + out.length % M) % M := by
        rw [← holds.written, Nat.add_mod_mod]
      _ = (M + inp.length % M) % M := by rw [← holds.read]; congr 1; omega
      _ = inp.length % M := by rw [Nat.add_mod_left, Nat.mod_mod]
      _ = (inp.length - out.length + out.length) % M := by congr 1; omega
  have cancel : (M - r + w) % M = (inp.length - out.length) % M :=
    Nat.ModEq.add_right_cancel' _ total
  rw [cancel, Nat.mod_eq_of_lt (by omega)]

variable (divides : cap ∣ M)
include divides

/-- The cells between the counters hold the elements in the queue, in order. -/
theorem contents :
    ((List.range (inp.length - out.length)).map fun k => cell (Fin.ofNat cap (r + k))) =
      inp.drop out.length := by
  apply List.ext_getElem
  · simp
  · intro k first second
    rw [List.length_map, List.length_range] at first
    have index : Fin.ofNat cap (r + k) = Fin.ofNat cap (out.length + k) := by
      apply Fin.ext
      change (r + k) % cap = (out.length + k) % cap
      rw [holds.read, ← Nat.mod_add_mod, Nat.mod_mod_of_dvd _ divides, Nat.mod_add_mod]
    rw [List.getElem_map, List.getElem_range, index, List.getElem_drop]
    exact holds.stored _ (by omega) (by omega)

/-- What came out and what is in the queue is what went in. -/
theorem append :
    out ++ ((List.range (inp.length - out.length)).map fun k => cell (Fin.ofNat cap (r + k))) =
      inp := by
  rw [holds.contents divides]
  obtain ⟨rest, rfl⟩ := holds.behind
  rw [List.drop_left]

/-- Put an element into a queue that is not full. -/
theorem push (room : inp.length < out.length + cap) (x : α) :
    Holds cap M (Function.update cell (Fin.ofNat cap w) x) r ((w + 1) % M) out (inp ++ [x]) := by
  have le := holds.length_le
  have slot : Fin.ofNat cap w = Fin.ofNat cap inp.length := by
    apply Fin.ext
    change w % cap = inp.length % cap
    rw [holds.written, Nat.mod_mod_of_dvd _ divides]
  refine ⟨holds.read, ?_, holds.behind.trans (List.prefix_append _ _), ?_, ?_⟩
  · rw [holds.written, Nat.mod_add_mod, List.length_append, List.length_singleton]
  · rw [List.length_append, List.length_singleton]
    exact room
  · intro k low bound
    rw [slot]
    by_cases last : k = inp.length
    · subst last
      simp
    · have inside : k < inp.length := by
        rw [List.length_append, List.length_singleton] at bound
        omega
      have other : Fin.ofNat cap k ≠ Fin.ofNat cap inp.length := by
        intro same
        have mods : k % cap = inp.length % cap := congrArg Fin.val same
        have divisor : cap ∣ inp.length - k := (Nat.modEq_iff_dvd' inside.le).mp mods
        have zero := Nat.eq_zero_of_dvd_of_lt divisor (by omega)
        omega
      rw [Function.update_of_ne other, List.getElem_append_left inside]
      exact holds.stored k low inside

/-- Take the first element out of a queue that is not empty. -/
theorem pop (some : out.length < inp.length) :
    Holds cap M cell ((r + 1) % M) w (out ++ [cell (Fin.ofNat cap r)]) inp := by
  have slot : Fin.ofNat cap r = Fin.ofNat cap out.length := by
    apply Fin.ext
    change r % cap = out.length % cap
    rw [holds.read, Nat.mod_mod_of_dvd _ divides]
  have first : cell (Fin.ofNat cap r) = inp[out.length] := by
    rw [slot]
    exact holds.stored _ le_rfl some
  have length : (out ++ [cell (Fin.ofNat cap r)]).length = out.length + 1 := by
    rw [List.length_append, List.length_singleton]
  refine ⟨?_, holds.written, ?_, ?_, ?_⟩
  · rw [length, holds.read, Nat.mod_add_mod]
  · rw [first]
    obtain ⟨rest, rfl⟩ := holds.behind
    cases rest with
    | nil => simp at some
    | cons x rest =>
      refine ⟨rest, ?_⟩
      simp
  · rw [length]
    have := holds.room
    omega
  · intro k low bound
    rw [length] at low
    exact holds.stored k (by omega) bound

end Holds

section Undo

variable {x : α}

/-- The last element is in the cell before the counter. -/
theorem Holds.last (holds : Holds cap M cell r w out (inp ++ [x])) (divides : cap ∣ M)
    (positive : 0 < M) (behind : out.length ≤ inp.length) :
    cell (Fin.ofNat cap ((M - 1 + w) % M)) = x := by
  have slot : Fin.ofNat cap ((M - 1 + w) % M) = Fin.ofNat cap inp.length := by
    apply Fin.ext
    change (M - 1 + w) % M % cap = inp.length % cap
    rw [holds.written, List.length_append, List.length_singleton, Nat.add_mod_mod,
      show M - 1 + (inp.length + 1) = M + inp.length by omega, Nat.add_mod_left,
      Nat.mod_mod_of_dvd _ divides]
  rw [slot, holds.stored inp.length behind (by simp)]
  simp

/-- Take the last element back. -/
theorem Holds.unpush (holds : Holds cap M cell r w out (inp ++ [x])) (positive : 0 < M)
    (behind : out.length ≤ inp.length) : Holds cap M cell r ((M - 1 + w) % M) out inp := by
  refine ⟨holds.read, ?_, ?_, ?_, fun k low bound => ?_⟩
  · rw [holds.written, List.length_append, List.length_singleton, Nat.add_mod_mod,
      show M - 1 + (inp.length + 1) = M + inp.length by omega, Nat.add_mod_left]
  · exact List.prefix_of_prefix_length_le holds.behind (List.prefix_append _ _) behind
  · have room := holds.room
    rw [List.length_append] at room
    omega
  · rw [holds.stored k low (by simp; omega), List.getElem_append_left bound]

end Undo

end Fifo
