import Mathlib

/-!
# Exclusive ownership

Places that may each hold a resource.  A ledger is exact if every resource that
is held is in use and held once, and every resource in use is held somewhere:
nothing is shared and nothing is lost.  Assigning a free resource to a vacant
place and releasing a held one keep it exact.
-/

namespace Ledger

open Function

universe u v

variable {P : Type u} {B : Type v} {holds holds' : P → Option B} {inUse inUse' : B → Prop}

structure Exact (holds : P → Option B) (inUse : B → Prop) : Prop where
  marked : ∀ {p b}, holds p = some b → inUse b
  unique : ∀ {p q b}, holds p = some b → holds q = some b → p = q
  held : ∀ {b}, inUse b → ∃ p, holds p = some b

namespace Exact

theorem congr (ledger : Exact holds inUse) (sameHolds : ∀ p, holds' p = holds p)
    (sameUse : ∀ b, inUse' b ↔ inUse b) : Exact holds' inUse' := by
  have holdsEq : holds' = holds := funext sameHolds
  have useEq : inUse' = inUse := funext fun b => propext (sameUse b)
  rw [holdsEq, useEq]
  exact ledger

variable [DecidableEq P]

/-- A vacant place takes a free resource. -/
theorem assign (ledger : Exact holds inUse) {p : P} {b : B} (vacant : holds p = none)
    (free : ¬ inUse b) : Exact (update holds p (some b)) fun x => x = b ∨ inUse x := by
  have elsewhere : ∀ {q x}, update holds p (some b) q = some x →
      (q = p ∧ x = b) ∨ (q ≠ p ∧ holds q = some x) := by
    intro q x held
    by_cases same : q = p
    · subst same
      rw [update_self] at held
      exact .inl ⟨rfl, (Option.some.inj held).symm⟩
    · rw [update_of_ne same] at held
      exact .inr ⟨same, held⟩
  constructor
  · intro q x held
    rcases elsewhere held with ⟨-, rfl⟩ | ⟨-, old⟩
    · exact .inl rfl
    · exact .inr (ledger.marked old)
  · intro q r x first second
    rcases elsewhere first with ⟨rfl, rfl⟩ | ⟨-, old⟩ <;>
      rcases elsewhere second with ⟨rfl, same⟩ | ⟨-, old'⟩
    · rfl
    · exact absurd (ledger.marked old') free
    · subst same
      exact absurd (ledger.marked old) free
    · exact ledger.unique old old'
  · rintro x (rfl | before)
    · exact ⟨p, update_self ..⟩
    · obtain ⟨q, held⟩ := ledger.held before
      refine ⟨q, ?_⟩
      rw [update_of_ne]
      · exact held
      · rintro rfl
        rw [vacant] at held
        cases held

end Exact

end Ledger
