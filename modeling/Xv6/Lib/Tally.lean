import Mathlib

/-!
# Counting references

How many places of a finite table hold a given value, and how the count changes when
one place is written.
-/

namespace Tally

open Function

variable {ι τ : Type*} [Fintype ι]

section

variable [DecidableEq τ]

/-- The number of places that hold `k`. -/
def tally (f : ι → τ) (k : τ) : Nat :=
  (Finset.univ.filter fun i => f i = k).card

theorem tally_eq_sum (f : ι → τ) (k : τ) : tally f k = ∑ i, if f i = k then 1 else 0 := by
  rw [tally, Finset.card_filter]

theorem tally_eq_zero_iff {f : ι → τ} {k : τ} : tally f k = 0 ↔ ∀ i, f i ≠ k := by
  rw [tally, Finset.card_eq_zero, Finset.filter_eq_empty_iff]
  exact ⟨fun none i => none (Finset.mem_univ i), fun none i _ => none i⟩

theorem tally_pos {f : ι → τ} {k : τ} {i : ι} (here : f i = k) : 0 < tally f k := by
  rw [Nat.pos_iff_ne_zero]
  exact fun none => tally_eq_zero_iff.mp none i here

end

variable [DecidableEq ι]

/-- Writing one place replaces its part of a sum. -/
theorem sum_update (f : ι → τ) (i : ι) (x : τ) (weight : τ → Nat) :
    ∑ j, weight (update f i x j) + weight (f i) = ∑ j, weight (f j) + weight x := by
  have rest : ∑ j ∈ Finset.univ.erase i, weight (update f i x j) =
      ∑ j ∈ Finset.univ.erase i, weight (f j) := by
    apply Finset.sum_congr rfl
    intro j member
    rw [update_of_ne (Finset.ne_of_mem_erase member)]
  rw [← Finset.add_sum_erase _ _ (Finset.mem_univ i),
    ← Finset.add_sum_erase _ (fun j => weight (f j)) (Finset.mem_univ i), rest,
    update_self]
  omega

/-- Writing one place takes one from the count of its old value and adds one to that of
the new. -/
theorem tally_update [DecidableEq τ] (f : ι → τ) (i : ι) (x k : τ) :
    tally (update f i x) k + (if f i = k then 1 else 0) =
      tally f k + (if x = k then 1 else 0) := by
  rw [tally_eq_sum, tally_eq_sum]
  exact sum_update f i x fun y => if y = k then 1 else 0

end Tally
