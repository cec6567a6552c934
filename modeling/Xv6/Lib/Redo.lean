import Mathlib

/-!
# Sequences of writes

A store is a function; a transaction is a list of writes to it.  `apply` makes
the writes of one transaction in order, `replay` those of several.
-/

namespace Redo

universe u v

variable {α : Type u} {β : Type v} [DecidableEq α]

/-- The store after the given writes. -/
def apply (store : α → β) (writes : List (α × β)) : α → β :=
  writes.foldl (fun store write => Function.update store write.1 write.2) store

/-- The store after the given transactions. -/
def replay (store : α → β) (transactions : List (List (α × β))) : α → β :=
  transactions.foldl apply store

@[simp]
theorem apply_nil (store : α → β) : apply store [] = store :=
  rfl

@[simp]
theorem apply_concat (store : α → β) (writes : List (α × β)) (a : α) (b : β) :
    apply store (writes ++ [(a, b)]) = Function.update (apply store writes) a b := by
  simp [apply]

@[simp]
theorem replay_nil (store : α → β) : replay store [] = store :=
  rfl

@[simp]
theorem replay_concat (store : α → β) (transactions : List (List (α × β))) (writes : List (α × β)) :
    replay store (transactions ++ [writes]) = apply (replay store transactions) writes := by
  simp [replay]

end Redo
