import Xv6.Lib.Bytes

/-!
# Disk blocks

A block of `BSIZE` bytes, and its view as an array of 32-bit words, which the
log header and the indirect blocks use.
-/

namespace Xv6

/-- `BSIZE`: the size of a disk block in bytes. -/
def bsize : Nat := 512

/-- The contents of a disk block. -/
abbrev Block := Fin bsize → UInt8

namespace Block

/-- Word `i` of a block. -/
def word (block : Block) (i : Nat) : Nat :=
  Bytes.readLE block (4 * i) 4

/-- Replace word `i` of a block. -/
def setWord (block : Block) (i value : Nat) : Block :=
  Bytes.writeLE block (4 * i) 4 value

theorem word_setWord {block : Block} {i value : Nat} (inside : i < 128) (fits : value < 2 ^ 32) :
    (block.setWord i value).word i = value := by
  unfold word setWord
  rw [Bytes.readLE_writeLE (by unfold bsize; omega)]
  exact Nat.mod_eq_of_lt (by omega)

theorem word_setWord_of_ne {block : Block} {i j value : Nat} (different : i ≠ j) :
    (block.setWord j value).word i = block.word i := by
  unfold word setWord
  apply Bytes.readLE_writeLE_of_disjoint
  omega

end Block

end Xv6
