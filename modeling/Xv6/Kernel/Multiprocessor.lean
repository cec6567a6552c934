import Xv6.Kernel.Memmove

/-!
# The MP configuration table

`mpinit` goes through the entries of the table that the BIOS has left.  An entry of a type that
it does not know leaves the cursor where it is, so that the loop does not end, and nothing keeps
the number of processors below the size of `cpus`.
-/

namespace Xv6.Kernel

/-- `NCPU` -/
def ncpuMax : Nat := 8

/-- The types of entries that `mpinit` knows. -/
inductive EntryType
  | mpproc
  | mpbus
  | mpioapic
  | mpiointr
  | mplintr
  deriving DecidableEq

/-- The cases of `switch(*p)` -/
def EntryType.ofByte? (type : UInt8) : Option EntryType :=
  if type = 0x00 then some .mpproc
  else if type = 0x01 then some .mpbus
  else if type = 0x02 then some .mpioapic
  else if type = 0x03 then some .mpiointr
  else if type = 0x04 then some .mplintr
  else none

/-- The distance to the next entry: `sizeof(struct mpproc)`, `sizeof(struct mpioapic)` or 8. -/
def EntryType.size : EntryType → Nat
  | .mpproc => 20
  | _ => 8

/-- The fields of `struct mp` that are used. -/
structure Mp where
  physaddr : Nat
  imcrp : UInt8

/-- The variables of `mp.c`, with `cpus[i].id` for each `i` and `bcpu` as an index. -/
structure MpVars where
  id : Nat → UInt8
  bcpu : Nat
  ismp : Bool
  ncpu : Nat
  lapic : Nat
  ioapicid : UInt8

/-- Why `mpinit` does not return. -/
inductive MpStop
  /-- A write to `cpus[i]` for an `i` that is not below `NCPU`. -/
  | outside (i : Nat)
  /-- The loop does not end within the bound on its rounds. -/
  | fuel

/-- `sum` -/
def sum (mem : Memory) (addr len : Nat) : Nat :=
  ((List.range len).map fun i => (mem (addr + i)).toNat).sum % 2 ^ 8

/-- The little-endian number of `n` bytes. -/
def field (mem : Memory) (addr : Nat) : Nat → Nat
  | 0 => 0
  | n + 1 => (mem addr).toNat + 2 ^ 8 * field mem (addr + 1) n

/-- `conf->length` -/
def confLength (mem : Memory) (conf : Nat) : Nat :=
  field mem (conf + 4) 2

/-- `mpconfig`, for the structure that `mpsearch` has found. -/
def mpconfig (mem : Memory) : Option Mp → Option Nat
  | none => none
  | some mp =>
    if mp.physaddr = 0 then none
    else
      let conf := mp.physaddr
      if [mem conf, mem (conf + 1), mem (conf + 2), mem (conf + 3)] ≠ [0x50, 0x43, 0x4D, 0x50] then
        none
      else if mem (conf + 6) ≠ 1 ∧ mem (conf + 6) ≠ 4 then none
      else if sum mem conf (confLength mem conf) ≠ 0 then none
      else some conf

variable {mem : Memory} {conf p e fuel : Nat} {mp : Option Mp} {s s' : MpVars}

/-- One round of the loop of `mpinit`. -/
def mpEntry (mem : Memory) (p : Nat) (s : MpVars) : Except MpStop (Nat × MpVars) :=
  match EntryType.ofByte? (mem p) with
  | some .mpproc =>
    if s.ncpu < ncpuMax then
      .ok (p + 20, { s with
        ismp := if s.ncpu ≠ (mem (p + 1)).toNat then false else s.ismp
        bcpu := if mem (p + 3) &&& 0x02 ≠ 0 then s.ncpu else s.bcpu
        id := Function.update s.id s.ncpu (UInt8.ofNat s.ncpu)
        ncpu := s.ncpu + 1 })
    else
      .error (.outside s.ncpu)
  | some .mpioapic => .ok (p + 8, { s with ioapicid := mem (p + 1) })
  | some _ => .ok (p + 8, s)
  | none => .ok (p, { s with ismp := false })

/-- The loop of `mpinit`. -/
def mpLoop (mem : Memory) (e : Nat) : Nat → Nat → MpVars → Except MpStop MpVars
  | 0, _, _ => .error .fuel
  | fuel + 1, p, s =>
    if p < e then do
      let (p, s) ← mpEntry mem p s
      mpLoop mem e fuel p s
    else
      .ok s

/-- `mpinit` -/
def mpinit (fuel : Nat) (mem : Memory) (mp : Option Mp) (s : MpVars) : Except MpStop MpVars :=
  let s := { s with bcpu := 0 }
  match mpconfig mem mp with
  | none => .ok s
  | some conf => do
      let s := { s with ismp := true, lapic := field mem (conf + 36) 4 }
      let s ← mpLoop mem (conf + confLength mem conf) fuel (conf + 44) s
      if s.ismp then return s
      else return { s with ncpu := 1, lapic := 0, ioapicid := 0 }

/-! ## The entries of a table -/

/-- The table has these entries from `p` up to `e`. -/
inductive Entries (mem : Memory) (e : Nat) : Nat → List EntryType → Prop
  | nil {p : Nat} : e ≤ p → Entries mem e p []
  | cons {p : Nat} {type : EntryType} {types : List EntryType} : p < e →
      EntryType.ofByte? (mem p) = some type → Entries mem e (p + type.size) types →
      Entries mem e p (type :: types)

/-- An entry of a known type is passed, unless `cpus` is full. -/
theorem mpEntry_ok {type : EntryType} (known : EntryType.ofByte? (mem p) = some type)
    (room : s.ncpu + [type].count .mpproc ≤ ncpuMax) :
    ∃ s', mpEntry mem p s = .ok (p + type.size, s') ∧
      s'.ncpu = s.ncpu + [type].count .mpproc := by
  unfold mpEntry
  rw [known]
  cases type with
  | mpproc =>
    have below : s.ncpu < ncpuMax := room
    exact ⟨_, if_pos below, rfl⟩
  | mpbus | mpiointr | mplintr => exact ⟨s, rfl, rfl⟩
  | mpioapic => exact ⟨_, rfl, rfl⟩

/-- The next processor would be outside of `cpus`. -/
theorem mpEntry_full {type : EntryType} (known : EntryType.ofByte? (mem p) = some type)
    (few : s.ncpu ≤ ncpuMax) (full : ¬ s.ncpu + [type].count .mpproc ≤ ncpuMax) :
    mpEntry mem p s = .error (.outside s.ncpu) := by
  unfold mpEntry
  rw [known]
  cases type with
  | mpproc =>
    have above : ¬ s.ncpu < ncpuMax := full
    exact if_neg above
  | mpbus | mpioapic | mpiointr | mplintr => exact absurd few full

/-! ## The loop -/

theorem entries_of_mpLoop (few : s.ncpu ≤ ncpuMax) (returned : mpLoop mem e fuel p s = .ok s') :
    ∃ types, Entries mem e p types ∧ s.ncpu + types.count .mpproc ≤ ncpuMax := by
  induction fuel generalizing p s with
  | zero => cases returned
  | succ fuel ih =>
    by_cases more : p < e
    · rw [mpLoop, if_pos more] at returned
      cases known : EntryType.ofByte? (mem p) with
      | none =>
        have stays : mpEntry mem p s = .ok (p, { s with ismp := false }) := by
          rw [mpEntry, known]
        rw [stays] at returned
        exact ih (s := { s with ismp := false }) few returned
      | some type =>
        by_cases room : s.ncpu + [type].count .mpproc ≤ ncpuMax
        · obtain ⟨s₁, passed, count⟩ := mpEntry_ok known room
          rw [passed] at returned
          obtain ⟨types, entries, bound⟩ := ih (count ▸ room) returned
          refine ⟨type :: types, .cons more known entries, ?_⟩
          rw [← List.singleton_append, List.count_append]
          omega
        · rw [mpEntry_full known few room] at returned
          cases returned
    · exact ⟨[], .nil (Nat.not_lt.mp more), few⟩

theorem mpLoop_of_entries {types : List EntryType} (entries : Entries mem e p types)
    (room : s.ncpu + types.count .mpproc ≤ ncpuMax) :
    ∃ s', mpLoop mem e (types.length + 1) p s = .ok s' := by
  induction entries generalizing s with
  | nil done => exact ⟨s, if_neg (Nat.not_lt.mpr done)⟩
  | @cons p type types more known _ ih =>
    rw [← List.singleton_append, List.count_append] at room
    obtain ⟨s₁, passed, count⟩ := mpEntry_ok (s := s) known (by omega)
    obtain ⟨s', returned⟩ := ih (s := s₁) (by omega)
    refine ⟨s', ?_⟩
    rw [List.length_cons, mpLoop, if_pos more, passed]
    exact returned

theorem mpinit_ok_iff (accepted : mpconfig mem mp = some conf) :
    (∃ s', mpinit fuel mem mp s = .ok s') ↔ ∃ s',
      mpLoop mem (conf + confLength mem conf) fuel (conf + 44)
        { s with bcpu := 0, ismp := true, lapic := field mem (conf + 36) 4 } = .ok s' := by
  unfold mpinit
  rw [accepted]
  dsimp only
  generalize mpLoop mem _ fuel _ _ = result
  cases result with
  | error reason => simp [bind, Except.bind]
  | ok s' => cases isSet : s'.ismp <;> simp [bind, Except.bind, pure, Except.pure, isSet]

/-- The first call of `mpinit` returns, without a write outside of `cpus`, just when each entry
of the table has a known type and at most `NCPU` of them are processors. -/
theorem mpinit_bounded_iff (accepted : mpconfig mem mp = some conf) (first : s.ncpu = 0) :
    (∃ fuel s', mpinit fuel mem mp s = .ok s') ↔
      ∃ types, Entries mem (conf + confLength mem conf) (conf + 44) types ∧
        types.count .mpproc ≤ ncpuMax := by
  constructor
  · rintro ⟨fuel, returned⟩
    obtain ⟨s', returned⟩ := (mpinit_ok_iff accepted).mp returned
    obtain ⟨types, entries, bound⟩ := entries_of_mpLoop (by simp [first]) returned
    exact ⟨types, entries, by simpa [first] using bound⟩
  · rintro ⟨types, entries, bound⟩
    exact ⟨_, (mpinit_ok_iff accepted).mpr
      (mpLoop_of_entries entries (by simpa [first] using bound))⟩

/-- A table at address 1 with the given checksum and bytes after the header. -/
def table (checksum : UInt8) (entries : List UInt8) : Memory := fun a =>
  ([0, 0x50, 0x43, 0x4D, 0x50, 44 + UInt8.ofNat entries.length, 0, 1, checksum] ++
    List.replicate 36 0 ++ entries).getD a 0

/-- The variables before the call. -/
def zeroVars : MpVars :=
  ⟨fun _ => 0, 0, false, 0, 0, 0⟩

/-- With an entry of type 5 the loop does not end. -/
theorem mpinit_unknown_entry :
    mpconfig (table 157 [5]) (some ⟨1, 0⟩) = some 1 ∧
      ¬ ∃ fuel s', mpinit fuel (table 157 [5]) (some ⟨1, 0⟩) zeroVars = .ok s' := by
  have accepted : mpconfig (table 157 [5]) (some ⟨1, 0⟩) = some 1 := by decide
  refine ⟨accepted, ?_⟩
  rintro ⟨fuel, returned⟩
  obtain ⟨s', returned⟩ := (mpinit_ok_iff accepted).mp returned
  obtain ⟨types, entries, -⟩ := entries_of_mpLoop (by decide) returned
  have unknown : EntryType.ofByte? (table 157 [5] 45) = none := by decide
  cases entries with
  | nil done => exact absurd done (by decide)
  | cons _ known => cases unknown.symm.trans known

/-- A table with one processor. -/
theorem mpinit_one_processor : ∃ fuel s',
    mpinit fuel (table 143 (List.replicate 20 0)) (some ⟨1, 0⟩) zeroVars = .ok s' := by
  have accepted : mpconfig (table 143 (List.replicate 20 0)) (some ⟨1, 0⟩) = some 1 := by decide
  exact (mpinit_bounded_iff accepted rfl).mpr
    ⟨[.mpproc], .cons (by decide) (by decide) (.nil (by decide)), by decide⟩

end Xv6.Kernel
