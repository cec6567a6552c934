import Mathlib

/-!
# Strings in character arrays

The string that an array holds ends before the first NUL.  The copying loop here is
the one that stops at the NUL and does not copy it: what the destination then holds
depends on what it held before.
-/

namespace CString

/-- The characters before the first NUL. -/
def text (bytes : List UInt8) : List UInt8 :=
  bytes.takeWhile (· ≠ 0)

/-- The array holds a string: it has a NUL. -/
def Terminated (bytes : List UInt8) : Prop :=
  0 ∈ bytes

instance (bytes : List UInt8) : Decidable (Terminated bytes) :=
  inferInstanceAs (Decidable (0 ∈ bytes))

/-- `while(src[c] != 0){ dst[c] = src[c]; c++; }`.  No result when one of the arrays ends
before the loop does. -/
def copy : List UInt8 → List UInt8 → Option (List UInt8)
  | [], _ => none
  | a :: src, dst =>
    if a = 0 then some dst
    else
      match dst with
      | [] => none
      | _ :: dst => (copy src dst).map (a :: ·)

theorem text_cons (a : UInt8) (bytes : List UInt8) :
    text (a :: bytes) = if a = 0 then [] else a :: text bytes := by
  by_cases zero : a = 0 <;> simp [text, zero]

theorem ne_zero_of_mem_text {bytes : List UInt8} {a : UInt8} (member : a ∈ text bytes) : a ≠ 0 := by
  simpa using List.mem_takeWhile_imp member

/-- The text of a terminated array is shorter than the array. -/
theorem length_text_lt {bytes : List UInt8} (terminated : Terminated bytes) :
    (text bytes).length < bytes.length := by
  induction bytes with
  | nil => cases terminated
  | cons a bytes ih =>
    by_cases zero : a = 0
    · simp [text_cons, zero]
    · have rest : Terminated bytes := (List.mem_cons.mp terminated).resolve_left (Ne.symm zero)
      simpa [text_cons, zero] using ih rest

/-- The loop writes the text of the source over the beginning of the destination. -/
theorem copy_eq_some {src dst : List UInt8} (terminated : Terminated src)
    (room : (text src).length ≤ dst.length) :
    copy src dst = some (text src ++ dst.drop (text src).length) := by
  induction src generalizing dst with
  | nil => cases terminated
  | cons a src ih =>
    by_cases zero : a = 0
    · simp [copy, text_cons, zero]
    · have rest : Terminated src := (List.mem_cons.mp terminated).resolve_left (Ne.symm zero)
      simp only [text_cons, if_neg zero, List.length_cons] at room ⊢
      cases dst with
      | nil => simp at room
      | cons b dst =>
        have copied := ih rest (Nat.le_of_succ_le_succ room)
        simp [copy, zero, copied]

/-- The loop does not change the size of the destination. -/
theorem length_of_copy {src dst bytes : List UInt8} (copied : copy src dst = some bytes) :
    bytes.length = dst.length := by
  induction src generalizing dst bytes with
  | nil => simp [copy] at copied
  | cons a src ih =>
    by_cases zero : a = 0
    · obtain rfl : dst = bytes := by simpa [copy, zero] using copied
      rfl
    · cases dst with
      | nil => simp [copy, zero] at copied
      | cons b dst =>
        simp only [copy, if_neg zero, Option.map_eq_some_iff] at copied
        obtain ⟨rest, inner, rfl⟩ := copied
        simpa using ih inner

/-- What the loop writes is a string of its own exactly if a NUL follows it. -/
theorem text_append_iff {word rest : List UInt8} (nonzero : ∀ a ∈ word, a ≠ 0) :
    Terminated (word ++ rest) ∧ text (word ++ rest) = word ↔ rest.head? = some 0 := by
  induction word with
  | nil =>
    cases rest with
    | nil => simp [Terminated]
    | cons a rest =>
      by_cases zero : a = 0 <;> simp [Terminated, text_cons, zero]
  | cons a word ih =>
    have head : a ≠ 0 := nonzero a List.mem_cons_self
    have tail := ih fun b member => nonzero b (List.mem_cons_of_mem a member)
    simpa [Terminated, text_cons, head, head.symm] using tail

end CString
