import Xv6.Fs.State

/-!
# Directories and paths

The code of `fs.c` and `sysfile.c` that works on one locked directory, and the
elements of a path.  A C string is the list of its bytes without the final NUL; a
`char name[DIRSIZ]` is the list of the bytes that the code reads from it.
-/

namespace Xv6.Fs

open Stateful

/-- `DIRSIZ` -/
def dirsiz : Nat := 14

/-- `sizeof(struct dirent)` -/
def direntSize : Nat := 16

/-- `struct dirent`. -/
structure Dirent where
  inum : UInt16
  name : Fin dirsiz → UInt8
  deriving DecidableEq

namespace Dirent

/-- The bytes of an entry. -/
def byte (de : Dirent) (j : Nat) : UInt8 :=
  if j < 2 then UInt8.ofNat (de.inum.toNat / 256 ^ j)
  else if bound : j - 2 < dirsiz then de.name ⟨j - 2, bound⟩ else 0

/-- The entry whose bytes are given. -/
def ofBytes (bytes : Nat → UInt8) : Dirent where
  inum := UInt16.ofNat ((bytes 0).toNat + 256 * (bytes 1).toNat)
  name k := bytes (2 + k)

theorem ofBytes_byte (de : Dirent) : ofBytes de.byte = de := by
  have low : (de.byte 0).toNat = de.inum.toNat % 256 := by simp [byte]
  have high : (de.byte 1).toNat = de.inum.toNat / 256 % 256 := by simp [byte]
  have bound := de.inum.toNat_lt
  have whole : de.inum.toNat % 256 + 256 * (de.inum.toNat / 256 % 256) = de.inum.toNat := by omega
  have inum : (ofBytes de.byte).inum = de.inum := by
    simp only [ofBytes, low, high, whole, UInt16.ofNat_toNat]
  have name : (ofBytes de.byte).name = de.name := by
    funext k
    have late : ¬ 2 + (k : Nat) < 2 := by omega
    simp only [ofBytes, byte, if_neg late, Nat.add_sub_cancel_left, dif_pos k.isLt]
  calc
    ofBytes de.byte = ⟨(ofBytes de.byte).inum, (ofBytes de.byte).name⟩ := rfl
    _ = de := by rw [inum, name]

/-- Only the bytes of the entry count. -/
theorem ofBytes_congr {bytes bytes' : Nat → UInt8} (same : ∀ x < direntSize, bytes x = bytes' x) :
    ofBytes bytes = ofBytes bytes' := by
  unfold ofBytes
  rw [same 0 (by decide), same 1 (by decide)]
  congr 1
  funext k
  exact same _ (by have := k.isLt; unfold dirsiz at this; unfold direntSize; omega)

/-- An entry is determined by its bytes. -/
theorem ofBytes_eq {de : Dirent} {bytes : Nat → UInt8}
    (same : ∀ x < direntSize, bytes x = de.byte x) : ofBytes bytes = de :=
  (ofBytes_congr same).trans de.ofBytes_byte

end Dirent

/-! ## Strings -/

def strncmp : Nat → List UInt8 → List UInt8 → Int
  | 0, _, _ => 0
  | n + 1, p, q =>
    if p.headD 0 ≠ 0 ∧ p.headD 0 = q.headD 0 then strncmp n p.tail q.tail
    else (p.headD 0).toNat - (q.headD 0).toNat

/-- The `n` bytes that `strncpy` stores. -/
def strncpy : Nat → List UInt8 → List UInt8
  | 0, _ => []
  | n + 1, t =>
    if t.headD 0 = 0 then List.replicate (n + 1) 0 else t.headD 0 :: strncpy n t.tail

def namecmp (s t : List UInt8) : Int :=
  strncmp dirsiz s t

/-- The string `"."`. -/
def dot : List UInt8 := [46]

/-- The string `".."`. -/
def dotdot : List UInt8 := [46, 46]

/-! ## Directories -/

/-- Read the entry at `off`, as the loops over a directory do. -/
def readDirent (halt : Halt) (e : Entry) (off : Nat) : M Dirent := do
  match ← readi e (UInt32.ofNat off) (UInt32.ofNat direntSize) with
  | none => throw halt
  | some bytes =>
    if bytes.length ≠ direntSize then throw halt
    else return Dirent.ofBytes fun j => bytes.getD j 0

/-- The loop of `dirlookup`; `turns` bounds the number of entries. -/
def dirlookupLoop (e : Entry) (name : List UInt8) : Nat → Nat → M (Option (Entry × Nat))
  | 0, _ => return none
  | turns + 1, off => do
      if off < ((← get).icache e).copy.size.toNat then
        let de ← readDirent .dirlinkRead e off
        if de.inum = 0 then
          dirlookupLoop e name turns (off + direntSize)
        else if namecmp name (List.ofFn de.name) = 0 then
          let found ← iget ((← get).icache e).dev de.inum.toNat
          return some (found, off)
        else
          dirlookupLoop e name turns (off + direntSize)
      else
        return none

/-- `dirlookup`: the inode of the entry, and `*poff`. -/
def dirlookup (e : Entry) (name : List UInt8) : M (Option (Entry × Nat)) := do
  let d := ((← get).icache e).copy
  if d.type ≠ tDir then
    throw .notDir
  else
    dirlookupLoop e name (d.size.toNat / direntSize + 1) 0

/-- The entry that `dirlink` writes. -/
def Dirent.named (name : List UInt8) (inum : Nat) : Dirent where
  inum := UInt16.ofNat inum
  name k := (strncpy dirsiz name).getD k 0

/-! ## Paths -/

/-- The byte `'/'`. -/
def slash : UInt8 := 47

/-- `skipelem`: the next element of the path, cut to `DIRSIZ` bytes, and the rest
of the path. -/
def skipelem (path : List UInt8) : Option (List UInt8 × List UInt8) :=
  match path.dropWhile (· = slash) with
  | [] => none
  | path =>
    some ((path.takeWhile (· ≠ slash)).take dirsiz,
      (path.dropWhile (· ≠ slash)).dropWhile (· = slash))

theorem length_lt_of_skipelem {path name rest : List UInt8}
    (next : skipelem path = some (name, rest)) : rest.length < path.length := by
  have shorter (p : UInt8 → Bool) (l : List UInt8) : (l.dropWhile p).length ≤ l.length :=
    (List.dropWhile_suffix p).length_le
  apply Nat.lt_of_lt_of_le _ (shorter (· = slash) path)
  unfold skipelem at next
  cases isRest : path.dropWhile (· = slash) with
  | nil => simp [isRest] at next
  | cons b tail =>
    simp only [isRest, Option.some.injEq, Prod.mk.injEq] at next
    rw [← next.2, List.length_cons, Nat.lt_succ_iff]
    by_cases first : b = slash
    · simp [first, shorter]
    · simpa [List.dropWhile_cons, first] using (shorter _ _).trans (shorter _ _)

end Xv6.Fs
