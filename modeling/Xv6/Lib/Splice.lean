import Mathlib

/-!
# Flat arrays that grow

A file as its user sees it: a list of cells.  `splice` overwrites a range and
extends the list where the range goes beyond its end.
-/

namespace Splice

universe u

variable {α : Type u}

/-- Overwrite the cells `off` to `off + n` of `a` by `src`.  A gap before the range
would be filled. -/
def splice (fill : α) (a : List α) (off n : Nat) (src : Nat → α) : List α :=
  (List.range (max a.length (off + n))).map fun x =>
    if off ≤ x ∧ x < off + n then src (x - off) else a.getD x fill

variable {fill : α} {a : List α} {off n : Nat} {src : Nat → α}

@[simp]
theorem length_splice : (splice fill a off n src).length = max a.length (off + n) := by
  simp [splice]

theorem getD_map_range (f : Nat → α) (len x : Nat) :
    ((List.range len).map f).getD x fill = if x < len then f x else fill := by
  by_cases inside : x < len
  · simp [inside, List.getD_eq_getElem?_getD]
  · rw [if_neg inside, List.getD_eq_default _ _ (by simpa using inside)]

/-- The cells of the range are those of the source, the others are as before. -/
theorem getD_splice (x : Nat) : (splice fill a off n src).getD x fill =
    if off ≤ x ∧ x < off + n then src (x - off) else a.getD x fill := by
  unfold splice
  rw [getD_map_range]
  by_cases inside : x < max a.length (off + n)
  · rw [if_pos inside]
  · have beyond : a.length ≤ x := by omega
    rw [if_neg inside, if_neg (by omega), List.getD_eq_default _ _ beyond]

/-- Lists with the same cells are the same. -/
theorem ext_getD (fill : α) {b : List α} (length : a.length = b.length)
    (cells : ∀ x < a.length, a.getD x fill = b.getD x fill) : a = b := by
  apply List.ext_getElem length
  intro x inside inside'
  have same := cells x inside
  rwa [List.getD_eq_getElem _ _ inside, List.getD_eq_getElem _ _ inside'] at same

/-- The cells of a range. -/
theorem take_drop_eq_map (a : List α) (fill : α) (off n : Nat) :
    (a.drop off).take n =
      (List.range (min n (a.length - off))).map fun j => a.getD (off + j) fill := by
  apply ext_getD fill
  · simp
  · intro x inside
    rw [List.length_take, List.length_drop] at inside
    rw [getD_map_range, if_pos inside]
    simp only [List.getD_eq_getElem?_getD, List.getElem?_take, List.getElem?_drop]
    rw [if_pos (by omega)]

end Splice
