import Mathlib

/-!
# Routes through links

Every node has a link to a node.  `Route next a nodes b` says that from the pointer `a` the
links visit `nodes` and then reach `b`, which is not visited once more.  A circular list
through `a` is a route from `a` to `a`.
-/

namespace Linked

universe u

variable {α : Type u}

/-- From `a` the links visit `nodes` and then reach `b`. -/
def Route (next : α → α) : α → List α → α → Prop
  | a, [], b => a = b
  | a, c :: nodes, b => a = c ∧ Route next (next c) nodes b

@[simp]
theorem route_nil {next : α → α} {a b : α} : Route next a [] b ↔ a = b :=
  Iff.rfl

@[simp]
theorem route_cons {next : α → α} {a b c : α} {nodes : List α} :
    Route next a (c :: nodes) b ↔ a = c ∧ Route next (next c) nodes b :=
  Iff.rfl

theorem route_append {next : α → α} {a b : α} {left right : List α} :
    Route next a (left ++ right) b ↔ ∃ c, Route next a left c ∧ Route next c right b := by
  induction left generalizing a with
  | nil => simp
  | cons d left ih => simp [ih, and_assoc]

/-- A node splits the route. -/
theorem route_append_cons {next : α → α} {a b c : α} {left right : List α} :
    Route next a (left ++ c :: right) b ↔
      Route next a left c ∧ Route next (next c) right b := by
  rw [route_append]
  constructor
  · rintro ⟨_, before, rfl, after⟩
    exact ⟨before, after⟩
  · rintro ⟨before, after⟩
    exact ⟨c, before, rfl, after⟩

namespace Route

variable {next next' : α → α} {a b c : α} {nodes left right : List α}

/-- A route depends on the links of the nodes it visits only. -/
theorem congr (route : Route next a nodes b) (agree : ∀ c ∈ nodes, next' c = next c) :
    Route next' a nodes b := by
  induction nodes generalizing a with
  | nil => exact route
  | cons c nodes ih =>
    rw [List.forall_mem_cons] at agree
    refine ⟨route.1, ?_⟩
    rw [agree.1]
    exact ih route.2 agree.2

/-- A circular list may be entered at any of its nodes. -/
theorem rotate (route : Route next a (left ++ c :: right) a) :
    Route next c (c :: (right ++ left)) c := by
  rw [route_append_cons] at route
  refine ⟨rfl, ?_⟩
  rw [route_append]
  exact ⟨a, route.2, route.1⟩

end Route

end Linked
