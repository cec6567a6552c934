import Xv6.Log.State

/-!
# The header block

What `write_head` stores in the header block, `read_head` finds there.
-/

namespace Xv6.Log

/-- The words of the header block after `write_head` has stored a part of the
list. -/
theorem word_storeEntries (block : Block) (entries : Nat → Nat) (count j : Nat)
    (fits : ∀ i < count, entries i < 2 ^ 32) (room : count < 128) :
    ((List.range count).foldl (fun block i => block.setWord (i + 1) (entries i)) block).word j =
      if 1 ≤ j ∧ j ≤ count then entries (j - 1) else block.word j := by
  induction count with
  | zero =>
    rw [if_neg (by omega)]
    rfl
  | succ count ih =>
    rw [List.range_succ, List.foldl_append]
    simp only [List.foldl_cons, List.foldl_nil]
    by_cases last : j = count + 1
    · subst last
      rw [Block.word_setWord (by omega) (fits count (by omega))]
      simp
    · rw [Block.word_setWord_of_ne last, ih (fun i bound => fits i (by omega)) (by omega)]
      have same : (1 ≤ j ∧ j ≤ count + 1) ↔ (1 ≤ j ∧ j ≤ count) := by omega
      simp only [same]

/-- `read_head` reads back the list that `write_head` stored. -/
theorem readHead_writeHead (block : Block) {lh : List Nat} (short : lh.length ≤ logSize)
    (fits : ∀ b ∈ lh, b < 2 ^ 32) : readHead (writeHead block lh) = some lh := by
  have room : lh.length < 128 := by
    unfold logSize maxOpBlocks at short
    omega
  have entryFits : ∀ i < lh.length, lh.getD i 0 < 2 ^ 32 := by
    intro i bound
    simpa [bound] using fits _ (List.getElem_mem bound)
  have words := fun j => word_storeEntries (block.setWord 0 lh.length) (fun i => lh.getD i 0)
    lh.length j entryFits room
  have first : (writeHead block lh).word 0 = lh.length := by
    unfold writeHead
    rw [words 0, if_neg (by omega), Block.word_setWord (by omega) (by omega)]
  have count : headCount (writeHead block lh) = lh.length := by
    unfold headCount
    rw [first, if_pos (by omega)]
  unfold readHead
  rw [count, if_pos short, Option.some.injEq]
  apply List.ext_getElem
  · simp
  · intro i bound bound'
    simp only [List.getElem_map, List.getElem_range]
    unfold writeHead
    rw [words (i + 1), if_pos (by omega)]
    simp [bound']

/-- A header that can be read fits into `log.lh`. -/
theorem readHead_length {block : Block} {lh : List Nat} (found : readHead block = some lh) :
    lh.length ≤ logSize := by
  unfold readHead at found
  split at found
  · rename_i short
    cases found
    simpa using short
  · cases found

end Xv6.Log
