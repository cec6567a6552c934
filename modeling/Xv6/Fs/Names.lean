import Xv6.Fs.Dir

/-!
# Names in directory entries

A name in an entry is cut to `DIRSIZ` bytes and padded with NULs, and names are
compared up to the first NUL or the `DIRSIZ`-th byte.  So two names are the same
for the file system if the strings in their first `DIRSIZ` bytes are.
-/

namespace Xv6.Fs

/-- The string in the first `n` bytes. -/
def cstr (n : Nat) (t : List UInt8) : List UInt8 :=
  (t.take n).takeWhile (· ≠ 0)

@[simp]
theorem cstr_zero (t : List UInt8) : cstr 0 t = [] := rfl

theorem cstr_succ (n : Nat) (t : List UInt8) :
    cstr (n + 1) t = if t.headD 0 = 0 then [] else t.headD 0 :: cstr n t.tail := by
  cases t with
  | nil => simp [cstr]
  | cons c t => by_cases stop : c = 0 <;> simp [cstr, stop]

/-- A string without NULs is only cut. -/
theorem cstr_eq_take {t : List UInt8} (noNul : 0 ∉ t) (n : Nat) : cstr n t = t.take n := by
  rw [cstr, List.takeWhile_eq_self_iff]
  intro c member
  have different : c ≠ 0 := by
    rintro rfl
    exact noNul (List.mem_of_mem_take member)
  simpa using different

/-- `strncmp` compares strings. -/
theorem strncmp_eq_zero_iff (n : Nat) (p q : List UInt8) :
    strncmp n p q = 0 ↔ cstr n p = cstr n q := by
  induction n generalizing p q with
  | zero => simp [strncmp]
  | succ n ih =>
    have difference : (p.headD 0).toNat - ((q.headD 0).toNat : Int) = 0 ↔
        p.headD 0 = q.headD 0 := by
      rw [← UInt8.toNat_inj]
      omega
    rw [strncmp, cstr_succ, cstr_succ]
    by_cases same : p.headD 0 = q.headD 0
    · rw [same] at difference ⊢
      by_cases stop : q.headD 0 = 0
      · rw [if_neg (fun both => both.1 stop), difference, if_pos stop, if_pos stop]
        exact iff_of_true rfl rfl
      · rw [if_pos ⟨stop, rfl⟩, if_neg stop, if_neg stop, ih]
        exact ⟨congrArg _, fun equal => (List.cons.inj equal).2⟩
    · rw [if_neg (fun both => same both.2), difference]
      refine iff_of_false same ?_
      intro equal
      split at equal <;> split at equal
      · rename_i first second
        exact same (first.trans second.symm)
      · cases equal
      · cases equal
      · exact same (List.cons.inj equal).1

/-- `strncpy` keeps the string. -/
theorem cstr_strncpy (n : Nat) (t : List UInt8) : cstr n (strncpy n t) = cstr n t := by
  induction n generalizing t with
  | zero => rfl
  | succ n ih =>
    rw [strncpy, cstr_succ n t]
    by_cases stop : t.headD 0 = 0
    · rw [if_pos stop, if_pos stop, List.replicate_succ, cstr_succ]
      rfl
    · rw [if_neg stop, if_neg stop, cstr_succ, List.headD_cons, if_neg stop, List.tail_cons, ih]

theorem length_strncpy (n : Nat) (t : List UInt8) : (strncpy n t).length = n := by
  induction n generalizing t with
  | zero => rfl
  | succ n ih =>
    rw [strncpy]
    split
    · simp
    · simp [ih]

/-- The bytes of a name in an entry. -/
theorem ofFn_named (name : List UInt8) (inum : Nat) :
    List.ofFn (Dirent.named name inum).name = strncpy dirsiz name := by
  apply List.ext_getElem
  · rw [List.length_ofFn, length_strncpy]
  · intro k _ inside
    rw [List.getElem_ofFn]
    exact List.getD_eq_getElem _ _ inside

/-- An entry has the name that is looked for. -/
theorem namecmp_named (name t : List UInt8) (inum : Nat) :
    namecmp name (List.ofFn (Dirent.named t inum).name) = 0 ↔
      cstr dirsiz name = cstr dirsiz t := by
  rw [namecmp, strncmp_eq_zero_iff, ofFn_named, cstr_strncpy]

end Xv6.Fs
