import Xv6.Vm.Copyout

/-!
# The arguments of a program

`exec` copies the argument strings and the words that `main` finds on its stack to the new
address space, from the top down.  `copyout` refuses the guard page, and the ranges follow
each other without a gap, so that all of them are in the page above it.
-/

namespace Xv6.Vm

open Stateful

variable {link : Link} {s s' s₁ : Machine} {V V' : View} {d p sp sz va v nullWord argc : Nat}
  {bytes : List UInt8} {argv : List (List UInt8)} {pushed ptrs : List Nat}

/-! ## The new stack -/

/-- The bytes are at the address. -/
def Machine.Shows (s : Machine) (d va : Nat) (bytes : List UInt8) : Prop :=
  ∀ i b, bytes[i]? = some b → s.load d (va + i) = some b.toNat

/-- The strings are at the pointers, each of them below the one before it, between the
addresses `sp` and `top`. -/
inductive Placed (s : Machine) (d : Nat) : Nat → List (List UInt8) → List Nat → Nat → Prop
  | nil {top : Nat} : Placed s d top [] [] top
  | cons {top p sp : Nat} {arg : List UInt8} {argv : List (List UInt8)} {ptrs : List Nat}
      (string : s.Shows d p (arg ++ [0])) (below : p + (arg.length + 1) ≤ top)
      (rest : Placed s d p argv ptrs sp) : Placed s d top (arg :: argv) (p :: ptrs) sp

/-- What `main` finds: below the strings the words are a return address, the number of the
strings and a pointer to the array of their pointers, and then the array. -/
structure ArgFrame (d sz esp : Nat) (argv : List (List UInt8)) (ptrs : List Nat) (s : Machine) :
    Prop where
  strings : Placed s d sz argv ptrs (esp + 4 * (argv.length + 4))
  words : s.Shows d esp (([0xffffffff, argv.length, esp + 12] ++ ptrs ++ [0]).flatMap wordBytes)
  inside : sz - pgsize ≤ esp

/-- The bytes that the strings take up on the stack, each of them in whole words. -/
def argBytes : List (List UInt8) → Nat
  | [] => 0
  | arg :: argv => (arg.length + 4) / 4 * 4 + argBytes argv

/-- The strings and the words below them fit into the stack page. -/
def Room (argv : List (List UInt8)) : Prop :=
  argv.length ≤ maxarg ∧ argBytes argv + 4 * (argv.length + 4) ≤ pgsize

namespace Placed

theorem le {top : Nat} (placed : Placed s d top argv ptrs sp) : sp ≤ top := by
  induction placed with
  | nil => exact Nat.le_refl _
  | cons _ below _ ih => omega

theorem length {top : Nat} (placed : Placed s d top argv ptrs sp) : ptrs.length = argv.length := by
  induction placed with
  | nil => rfl
  | cons _ _ _ ih => rw [List.length_cons, List.length_cons, ih]

/-- Stores below the strings leave them alone. -/
theorem congr {top : Nat} (placed : Placed s d top argv ptrs sp)
    (same : ∀ va, sp ≤ va → va < top → s'.load d va = s.load d va) :
    Placed s' d top argv ptrs sp := by
  induction placed with
  | nil => exact .nil
  | @cons top p sp arg argv ptrs string below rest ih =>
    have le := rest.le
    refine .cons (fun i b isByte => ?_) below
      (ih fun va after before => same va after (by omega))
    have small : i < (arg ++ [0]).length := (List.getElem?_eq_some_iff.mp isByte).1
    rw [List.length_append, List.length_singleton] at small
    rw [same _ (by omega) (by omega)]
    exact string i b isByte

end Placed

/-! ## One copy -/

/-- The entries are not written. -/
theorem Filled.entry (filled : Filled link d sz s V s') (models : Models link s V)
    (high : v < 2 ^ 20) : s'.entry d v = s.entry d v := by
  have isDirectory := filled.space.directory
  apply models.entry_congr isDirectory (filled.mem d (by simp [isDirectory])) _ high
  intro t i table
  exact filled.mem t (by simp [table])

theorem Filled.guarded (filled : Filled link d sz s V s') (guarded : Guarded link d sz s V) :
    Guarded link d sz s' V := by
  have below := pages_le guarded.low
  refine ⟨filled.space, guarded.whole, guarded.two, ?_, ?_⟩
  · rw [filled.entry guarded.models (by omega)]
    exact guarded.guard
  · rw [filled.entry guarded.models (by omega)]
    exact guarded.stack

/-- Other addresses of the user show the same. -/
theorem Written.load_other (written : Written d va bytes s s') (models : Models link s V)
    (isDirectory : V.role d = .directory) (inside : va + bytes.length ≤ kernbase) {va' : Nat}
    (low : va' < kernbase) (outside : va' < va ∨ va + bytes.length ≤ va') :
    s'.load d va' = s.load d va' := by
  have below : kernbase ≤ 2 ^ 32 := by decide
  apply Machine.load_congr (written.mapping va' (by omega))
  intro q mapsTo
  apply written.others q _ (Nat.mod_lt _ (by decide))
  rintro i small ⟨mapsTo', offset⟩
  rw [models.mapsTo_iff isDirectory low] at mapsTo
  rw [models.mapsTo_iff isDirectory (by omega), mapsTo] at mapsTo'
  injection mapsTo' with _ page
  unfold pgsize at page offset
  omega

variable (guarded : Guarded link d sz s V)
include guarded

omit guarded in
/-- `copyout` to the kernel's half. -/
theorem copyout_refused (space : Space link d sz s V) (some : bytes ≠ []) (high : kernbase ≤ va)
    (below : va < 2 ^ 32) (near : 2 ^ 32 ≤ va + reach nullWord) :
    (copyout nullWord d va bytes).run s = .ok (false, s) := by
  have page : va / pgsize < 2 ^ 20 ∧ 2 ^ 19 ≤ va / pgsize := by
    unfold kernbase at high
    unfold pgsize
    omega
  have supervisor := space.kernel.kernelHalf.supervisor _ page.2 page.1
  have found : (uva2ka nullWord d (va / pgsize * pgsize)).run s = .ok (none, s) := by
    rw [uva2ka_run page.1, Machine.accessible, supervisor, Bool.and_false]
    split
    · rfl
    · rename_i missing
      rw [if_neg]
      intro gives
      rw [reach, if_pos gives] at near
      apply missing
      rw [space.tables, spaceTables, kernelTables]
      unfold pgsize
      simp only [Bool.or_eq_true, Bool.and_eq_true, decide_eq_true_eq]
      omega
  obtain ⟨fuel, isFuel⟩ := Nat.exists_eq_succ_of_ne_zero (List.length_pos_of_ne_nil some).ne'
  rw [copyout, isFuel, copyLoopOut_stop some found]

/-- `copyout` below the stack pointer.  It succeeds if the bytes are above the guard page. -/
theorem copyout_spec (some : bytes ≠ []) (stack : sz - pgsize ≤ sp) (top : sp ≤ sz)
    (pointer : va = (sp + 2 ^ 32 - bytes.length) % 2 ^ 32 / 4 * 4)
    (room : bytes.length ≤ sp + reach nullWord) :
    Wp (copyout nullWord d va bytes) (fun _ => False) (fun r s' => Filled link d sz s V s' ∧
      (r = true ↔ sz - pgsize ≤ va ∧ va + bytes.length ≤ sp) ∧ (r = true → s'.Shows d va bytes ∧
        ∀ va' < kernbase, va' < va ∨ va + bytes.length ≤ va' →
          s'.load d va' = s.load d va')) s := by
  have nonempty := List.length_pos_of_ne_nil some
  have whole := guarded.whole
  have two := guarded.two
  have low := guarded.low
  unfold kernbase at low
  by_cases wraps : sp < bytes.length
  · have far : reach nullWord ≤ 2 ^ 31 := by
      unfold reach
      split <;> omega
    have aligned : reach nullWord % 4 = 0 := by
      unfold reach
      split <;> rfl
    exact Wp.of_ok (copyout_refused guarded.toSpace some (by unfold kernbase; omega) (by omega)
      (by omega)) ⟨.refl guarded.toSpace, iff_of_false nofun (by unfold pgsize; omega), nofun⟩
  have inside : va + bytes.length ≤ sp := by omega
  have close : sp ≤ va + bytes.length + 3 := by omega
  have tabulated : s.Tabulated d va bytes.length := by
    rintro v ⟨i, small, rfl⟩ -
    rw [guarded.tables]
    apply spaceTables_of_lt
    unfold pgsize at whole ⊢
    omega
  obtain ⟨r, s', run, returned, written⟩ := copyLoopOut_exact guarded.sane (by omega)
    (Nat.le_refl _) tabulated
  have filled : Wp (copyout nullWord d va bytes) _ _ s :=
    copyLoopOut_spec guarded.toSpace (by omega)
  have returns : (copyout nullWord d va bytes).run s = .ok (r, s') := run nullWord
  unfold Wp
  rw [returns]
  refine ⟨filled.ok returns, ⟨fun success => ⟨?_, inside⟩, fun above => ?_⟩, fun success =>
    ⟨(written success).stored, fun va' below outside => (written success).load_other
      guarded.models guarded.directory (by unfold kernbase; omega) below outside⟩⟩
  · by_contra under
    -- a byte just below the stack page would be in the guard page
    have access := returned.mp success (pages sz - 2)
      ⟨min (bytes.length - 1) (sz - pgsize - 1 - va), by omega, by unfold pgsize at *; omega⟩
    rw [Machine.accessible, guarded.guard, Bool.and_false] at access
    cases access
  · rw [returned]
    rintro v ⟨i, small, rfl⟩
    have page : (va + i) / pgsize = pages sz - 1 := by
      unfold pgsize at *
      omega
    obtain ⟨p, user⟩ := (guarded.mapped (pages sz - 1)).mpr (by omega)
    rw [page, Machine.accessible, (guarded.models.entry_user user).1, guarded.stack]
    rfl

/-! ## All arguments -/

theorem pushArgs_places (stack : sz - pgsize ≤ sp) (top : sp ≤ sz) (aligned : sp % 4 = 0)
    (few : argc ≤ maxarg) (fit : ArgsFit nullWord argv sz) :
    Wp (Link.pushArgs nullWord d argv argc pushed sp) (fun _ => False) (fun r s' =>
      Filled link d sz s V s' ∧
        (r.isSome ↔ argc + argv.length ≤ maxarg ∧ sz - pgsize + argBytes argv ≤ sp) ∧
        ∀ pushed' sp', r = some (pushed', sp') → sp' % 4 = 0 ∧ sp' + argBytes argv = sp ∧
          ∃ ptrs, pushed' = ptrs.reverse ++ pushed ∧ Placed s' d sp argv ptrs sp' ∧
            ∀ va < kernbase, va < sp' ∨ sp ≤ va → s'.load d va = s.load d va) s := by
  have low := guarded.low
  induction argv generalizing argc pushed sp s with
  | nil =>
    rw [argBytes, Nat.add_zero]
    refine ⟨.refl guarded.toSpace, iff_of_true rfl ⟨few, stack⟩, fun pushed' sp' isResult => ?_⟩
    cases isResult
    exact ⟨aligned, rfl, [], rfl, .nil, fun _ _ _ => rfl⟩
  | cons arg argv ih =>
    rw [ArgsFit, List.forall_mem_cons] at fit
    rw [Link.pushArgs]
    rw [List.length_cons, argBytes]
    split
    · exact ⟨.refl guarded.toSpace, iff_of_false (by simp) (by omega),
        fun _ _ isResult => by cases isResult⟩
    have length : (arg ++ [0]).length = arg.length + 1 := by simp
    dsimp only
    generalize pointer : (sp + 2 ^ 32 - (arg.length + 1)) % 2 ^ 32 / 4 * 4 = p
    have down : arg.length + 1 ≤ sp → p + (arg.length + 4) / 4 * 4 = sp := by
      unfold kernbase at low
      omega
    apply (copyout_spec guarded (by simp) stack top (by rw [length, pointer])
      (by omega)).seq
    rintro copied s₁ ⟨filled, succeeds, success⟩
    rw [length] at succeeds
    split
    · rename_i isCopied
      obtain ⟨stack', below⟩ := succeeds.mp isCopied
      have down := down (by omega)
      obtain ⟨string, others⟩ := success isCopied
      rw [length] at others
      apply (ih (filled.guarded guarded) stack' (by omega) (by omega) (by omega) fit.2).imp
      rintro r s' ⟨filled', returned, ending⟩
      refine ⟨filled.trans filled', returned.trans (by omega), fun pushed' sp' isResult => ?_⟩
      obtain ⟨aligned', isSum, ptrs, isPushed, placed, others'⟩ := ending pushed' sp' isResult
      have le := placed.le
      refine ⟨aligned', by omega, p :: ptrs, ?_, .cons ?_ below placed, ?_⟩
      · rw [isPushed, List.reverse_cons, List.append_assoc]
        rfl
      · intro i b isByte
        have small : i < (arg ++ [0]).length := (List.getElem?_eq_some_iff.mp isByte).1
        rw [others' _ (by omega) (by omega)]
        exact string i b isByte
      · intro va high outside
        rw [others' va high (by omega), others va high (by omega)]
    · rename_i notCopied
      rw [succeeds] at notCopied
      exact ⟨filled, iff_of_false (by simp) (by omega), fun _ _ isResult => by cases isResult⟩

/-- The arguments are copied if there is room for them, and then `main` finds them, and nothing
below the stack page has been written. -/
theorem copyArgs_places (fit : ArgsFit nullWord argv sz) :
    Wp (Link.copyArgs nullWord d argv sz) (fun _ => False) (fun r s' =>
      Filled link d sz s V s' ∧ (r.isSome ↔ Room argv) ∧
        ∀ esp, r = some esp → (∃ ptrs, ArgFrame d sz esp argv ptrs s') ∧
        ∀ va < sz - pgsize, s'.load d va = s.load d va) s := by
  have whole := guarded.whole
  have two := guarded.two
  have low := guarded.low
  have stack : sz - pgsize ≤ sz := Nat.sub_le _ _
  have aligned : sz % 4 = 0 := by
    unfold pgsize at whole
    omega
  unfold Link.copyArgs
  apply (pushArgs_places guarded stack (Nat.le_refl _) aligned (Nat.zero_le _) fit).seq
  rintro (_ | ⟨pushed, sp⟩) s₁ ⟨filled, returned, ending⟩
  · refine ⟨filled, iff_of_false nofun fun room => ?_, nofun⟩
    cases returned.mpr ⟨by unfold Room at room; omega, by unfold Room pgsize at *; omega⟩
  obtain ⟨few, above⟩ := returned.mp rfl
  obtain ⟨aligned₁, isSum, ptrs, rfl, placed, others⟩ := ending pushed sp rfl
  have stack₁ : sz - pgsize ≤ sp := by omega
  have le := placed.le
  unfold kernbase at low
  unfold maxarg at few
  obtain ⟨esp, rfl⟩ : ∃ esp, sp = esp + 4 * (argv.length + 4) := by
    refine ⟨sp - 4 * (argv.length + 4), ?_⟩
    unfold pgsize at whole stack₁
    omega
  have pointer : (esp + 4 * (argv.length + 4) + 2 ^ 32 - (3 + argv.length + 1) * 4) % 2 ^ 32 =
      esp := by omega
  have array : (esp + 4 * (argv.length + 4) + 2 ^ 32 - (argv.length + 1) * 4) % 2 ^ 32 =
      esp + 12 := by omega
  dsimp only
  rw [pointer, array, List.append_nil, List.reverse_reverse]
  have length : (([0xffffffff, argv.length, esp + 12] ++ ptrs ++ [0]).flatMap wordBytes).length =
      4 * (argv.length + 4) := by
    rw [length_flatMap_wordBytes]
    simp only [List.length_append, List.length_cons, List.length_nil, placed.length]
    omega
  generalize isWords : ([0xffffffff, argv.length, esp + 12] ++ ptrs ++ [0]).flatMap wordBytes =
    words at length ⊢
  apply (copyout_spec (filled.guarded guarded) (by rintro rfl; simp at length) stack₁ le
    (by omega) (by omega)).seq
  rintro copied s₂ ⟨filled₂, succeeds, success⟩
  split
  · rename_i isCopied
    obtain ⟨stack₂, -⟩ := succeeds.mp isCopied
    obtain ⟨shown, others₂⟩ := success isCopied
    refine ⟨filled.trans filled₂, iff_of_true rfl ?_, fun esp' isResult => ?_⟩
    · unfold Room maxarg pgsize at *
      omega
    cases isResult
    refine ⟨⟨ptrs, placed.congr fun va after before => ?_, ?_, stack₂⟩, fun va below => ?_⟩
    · exact others₂ va (by unfold kernbase; omega) (by omega)
    · rw [isWords]
      exact shown
    · rw [others₂ va (by unfold kernbase; omega) (by omega),
        others va (by unfold kernbase; omega) (by omega)]
  · refine ⟨filled.trans filled₂, iff_of_false nofun fun room => ?_, nofun⟩
    rename_i notCopied
    refine notCopied (succeeds.mpr ?_)
    unfold Room pgsize at *
    omega

end Xv6.Vm
