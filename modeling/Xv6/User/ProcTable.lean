import Xv6.Lib.CString
import Xv6.User.Handlers

/-!
# The table that `getprocs` fills

`getProcInfo` at the level of the caller's array: entry `i` of the array is the
`struct uproc` at `table + i`, also for an `i` beyond the array.  Reading the pid of a
null parent has no result.

It copies an entry for each slot in use and only then looks at the size of the array.
It copies name and state without their NULs.  And it does not look whether there is a
parent.  It reports the processes faithfully exactly when none of these matters.
-/

namespace Xv6.User.ProcTable

open Process (ProcState Slot nproc)

/-! ## Entries -/

/-- `char [16]` -/
structure Chars where
  bytes : List UInt8
  sixteen : bytes.length = 16
  deriving DecidableEq

/-- `struct uproc` -/
structure Uproc where
  pid : Int
  uid : Int
  gid : Int
  ppid : Int
  priority : Int
  state : Chars
  size : UInt32
  name : Chars

/-- The fields of `struct proc` that `getProcInfo` reads. -/
structure ProcRecord where
  sz : UInt32
  state : ProcState
  pid : Int
  uid : Int
  gid : Int
  priority : Int
  parent : Option Slot
  name : Chars
  named : CString.Terminated name.bytes

/-- `ptable.proc` -/
abbrev Records := Slot → ProcRecord

/-- The array `states[state]`, with its NUL. -/
def label (state : ProcState) : List UInt8 :=
  textBytes (stateText state) ++ [0]

/-- The array at `table`, and which of its entries have been written. -/
structure UprocArray where
  entry : Nat → Uproc
  written : List Nat

namespace UprocArray

/-- Write one entry. -/
def store (table : UprocArray) (i : Nat) (e : Uproc) : UprocArray where
  entry := Function.update table.entry i e
  written := table.written ++ [i]

@[simp]
theorem store_entry_self (table : UprocArray) (i : Nat) (e : Uproc) :
    (table.store i e).entry i = e := by
  simp [store]

theorem store_entry_of_ne {table : UprocArray} {i j : Nat} {e : Uproc} (other : j ≠ i) :
    (table.store i e).entry j = table.entry j := by
  simp [store, other]

end UprocArray

namespace Chars

/-- The array holds the string `word`. -/
def Holds (c : Chars) (word : List UInt8) : Prop :=
  CString.Terminated c.bytes ∧ CString.text c.bytes = word

/-- The copying loop of `getProcInfo`. -/
def copy (dst : Chars) (src : List UInt8) : Option Chars :=
  (CString.copy src dst.bytes).pmap Chars.mk fun _ copied =>
    (CString.length_of_copy copied).trans dst.sixteen

/-- The loop copies a short string, and the destination then holds it if and only if it had a NUL
at the place behind it. -/
theorem copy_spec {src : List UInt8} (dst : Chars) (terminated : CString.Terminated src)
    (short : (CString.text src).length < 16) :
    ∃ c, dst.copy src = some c ∧
      (c.Holds (CString.text src) ↔ dst.bytes[(CString.text src).length]? = some 0) := by
  have room : (CString.text src).length ≤ dst.bytes.length := by
    rw [dst.sixteen]
    omega
  have copied := CString.copy_eq_some terminated room
  refine ⟨⟨_, (CString.length_of_copy copied).trans dst.sixteen⟩, ?_, ?_⟩
  · simp [copy, copied]
  · rw [Holds, CString.text_append_iff fun a => CString.ne_zero_of_mem_text, List.head?_drop]

end Chars

theorem label_terminated (state : ProcState) : CString.Terminated (label state) := by
  cases state <;> decide

theorem text_label (state : ProcState) :
    CString.text (label state) = textBytes (stateText state) := by
  cases state <;> rfl

/-! ## The loop -/

/-- The entry of slot `p`, written over `e`. -/
def describe (t : Records) (p : Slot) (e : Uproc) : Option Uproc := do
  let parent ← (t p).parent
  let name ← e.name.copy (t p).name.bytes
  let state ← e.state.copy (label (t p).state)
  some {
    pid := (t p).pid
    uid := (t p).uid
    gid := (t p).gid
    ppid := (t parent).pid
    priority := (t p).priority
    state
    size := (t p).sz
    name }

/-- The loop of `getProcInfo`: `i` is the number of entries so far. -/
def getProcInfoLoop (t : Records) : List Slot → Nat → UprocArray → Option (Nat × UprocArray)
  | [], i, table => some (i, table)
  | p :: slots, i, table =>
    if (t p).state = .unused then getProcInfoLoop t slots i table
    else do
      let e ← describe t p (table.entry i)
      getProcInfoLoop t slots (i + 1) (table.store i e)

/-- `getProcInfo` -/
def getProcInfo (t : Records) (max : Int) (table : Nat → Uproc) : Option (Int × UprocArray) := do
  let (i, table) ← getProcInfoLoop t (List.finRange nproc) 0 ⟨table, []⟩
  if i > max then some (-1, table) else some (i, table)

/-- The slots in use, in table order. -/
def slotsInUse (t : Records) (slots : List Slot) : List Slot :=
  slots.filter fun p => (t p).state ≠ .unused

/-- The entry says what the process table says about slot `p`.  The parent's pid of a process
without parent may be any. -/
structure Describes (t : Records) (p : Slot) (e : Uproc) : Prop where
  pid : e.pid = (t p).pid
  uid : e.uid = (t p).uid
  gid : e.gid = (t p).gid
  ppid : ∀ parent, (t p).parent = some parent → e.ppid = (t parent).pid
  priority : e.priority = (t p).priority
  size : e.size = (t p).sz
  name : e.name.Holds (CString.text (t p).name.bytes)
  state : e.state.Holds (textBytes (stateText (t p).state))

/-- The entry has NULs where the name and the state of slot `p` end. -/
def Cleared (t : Records) (p : Slot) (e : Uproc) : Prop :=
  e.name.bytes[(CString.text (t p).name.bytes).length]? = some 0 ∧ e.state.bytes[7]? = some 0

variable {p : Slot} {t : Records} {slots : List Slot}

/-- The entry of a process with a parent is written, and describes the process exactly if the
NULs were there before. -/
theorem describe_spec (e : Uproc) (child : (t p).parent ≠ none) :
    ∃ e', describe t p e = some e' ∧ (Describes t p e' ↔ Cleared t p e) := by
  obtain ⟨parent, isParent⟩ := Option.ne_none_iff_exists'.mp child
  have nameShort : (CString.text (t p).name.bytes).length < 16 := by
    rw [← (t p).name.sixteen]
    exact CString.length_text_lt (t p).named
  have stateLength : (CString.text (label (t p).state)).length = 7 := by
    cases (t p).state <;> rfl
  obtain ⟨name, copiedName, nameHolds⟩ := e.name.copy_spec (t p).named nameShort
  obtain ⟨state, copiedState, stateHolds⟩ :=
    e.state.copy_spec (label_terminated (t p).state) (by omega)
  rw [stateLength, text_label] at stateHolds
  have described : describe t p e = some {
      pid := (t p).pid, uid := (t p).uid, gid := (t p).gid, ppid := (t parent).pid,
      priority := (t p).priority, state, size := (t p).sz, name } := by
    simp only [describe, isParent, copiedName, copiedState, Option.bind_eq_bind, Option.bind_some]
  refine ⟨_, described, ?_⟩
  constructor
  · intro described
    exact ⟨nameHolds.mp described.name, stateHolds.mp described.state⟩
  · rintro ⟨nameCleared, stateCleared⟩
    refine ⟨rfl, rfl, rfl, fun parent' isParent' => ?_, rfl, rfl, nameHolds.mpr nameCleared,
      stateHolds.mpr stateCleared⟩
    rw [Option.some.inj (isParent.symm.trans isParent')]

/-- A null parent among the slots in use stops the loop. -/
theorem getProcInfoLoop_eq_none (member : p ∈ slotsInUse t slots) (orphan : (t p).parent = none)
    (i : Nat) (table : UprocArray) : getProcInfoLoop t slots i table = none := by
  induction slots generalizing i table with
  | nil => simp [slotsInUse] at member
  | cons q slots ih =>
    unfold getProcInfoLoop
    by_cases unused : (t q).state = .unused
    · rw [if_pos unused]
      exact ih (by simpa [slotsInUse, unused] using member) i table
    · rw [if_neg unused]
      simp only [slotsInUse, List.filter_cons, decide_eq_true unused, if_true,
        List.mem_cons] at member
      rcases member with rfl | later
      · simp [describe, orphan]
      · cases described : describe t q (table.entry i) with
        | none => rfl
        | some e => exact ih later (i + 1) (table.store i e)

/-- With parents everywhere the loop writes an entry for each slot in use, one behind the other. -/
theorem getProcInfoLoop_eq_some (parents : ∀ p ∈ slotsInUse t slots, (t p).parent ≠ none) (i : Nat)
    (table : UprocArray) :
    ∃ table', getProcInfoLoop t slots i table = some (i + (slotsInUse t slots).length, table') ∧
      table'.written = table.written ++ List.range' i (slotsInUse t slots).length ∧
      (∀ j, j < i → table'.entry j = table.entry j) ∧
      ∀ j p, (slotsInUse t slots)[j]? = some p →
        (Describes t p (table'.entry (i + j)) ↔ Cleared t p (table.entry (i + j))) := by
  induction slots generalizing i table with
  | nil => exact ⟨table, by simp [getProcInfoLoop, slotsInUse]⟩
  | cons q slots ih =>
    unfold getProcInfoLoop
    by_cases unused : (t q).state = .unused
    · have same : slotsInUse t (q :: slots) = slotsInUse t slots := by
        simp [slotsInUse, unused]
      rw [if_pos unused, same]
      rw [same] at parents
      exact ih parents i table
    · have more : slotsInUse t (q :: slots) = q :: slotsInUse t slots := by
        simp [slotsInUse, unused]
      rw [if_neg unused, more]
      rw [more, List.forall_mem_cons] at parents
      obtain ⟨e, described, exactly⟩ := describe_spec (table.entry i) parents.1
      obtain ⟨table', returned, written, before, rest⟩ :=
        ih parents.2 (i + 1) (table.store i e)
      refine ⟨table', ?_, ?_, ?_, ?_⟩
      · rw [Nat.add_right_comm] at returned
        rw [described, List.length_cons, ← Nat.add_assoc]
        exact returned
      · rw [written, List.length_cons, List.range'_succ, UprocArray.store, List.append_assoc]
        rfl
      · intro j earlier
        rw [before j (by omega), UprocArray.store_entry_of_ne (by omega)]
      · intro j p isEntry
        cases j with
        | zero =>
          obtain rfl : q = p := by simpa using isEntry
          rw [Nat.add_zero, before i (Nat.lt_succ_self i), UprocArray.store_entry_self]
          exact exactly
        | succ j =>
          have isLater := rest j p (by simpa using isEntry)
          rw [show i + 1 + j = i + (j + 1) by omega,
            UprocArray.store_entry_of_ne (by omega)] at isLater
          exact isLater

/-! ## What `getProcInfo` reports -/

/-- `getProcInfo` returns and writes only the first `max` entries.  If there is room for all
slots in use it returns their number and describes each of them; if not it returns -1. -/
def ReportsFaithfully (t : Records) (max : Nat) (table : Nat → Uproc) : Prop :=
  ∃ result table', getProcInfo t max table = some (result, table') ∧
    (∀ i ∈ table'.written, i < max) ∧
    ((slotsInUse t (List.finRange nproc)).length ≤ max →
      result = (slotsInUse t (List.finRange nproc)).length ∧
      ∀ j p, (slotsInUse t (List.finRange nproc))[j]? = some p →
        Describes t p (table'.entry j)) ∧
    (max < (slotsInUse t (List.finRange nproc)).length → result = -1)

/-- `getProcInfo` reports the process table faithfully and within bounds if and only if every
slot in use has a parent, there is room for all of them, and the entries have NULs where
the names and states end. -/
theorem reportsFaithfully_iff (t : Records) (max : Nat) (table : Nat → Uproc) :
    ReportsFaithfully t max table ↔
      (∀ p, (t p).state ≠ .unused → (t p).parent ≠ none) ∧
      (slotsInUse t (List.finRange nproc)).length ≤ max ∧
      ∀ j p, (slotsInUse t (List.finRange nproc))[j]? = some p → Cleared t p (table j) := by
  have inUse : ∀ p, p ∈ slotsInUse t (List.finRange nproc) ↔ (t p).state ≠ .unused := by
    simp [slotsInUse]
  unfold ReportsFaithfully
  set number := (slotsInUse t (List.finRange nproc)).length with isNumber
  by_cases parents : ∀ p, (t p).state ≠ .unused → (t p).parent ≠ none
  · obtain ⟨table', copied, written, -, entries⟩ :=
      getProcInfoLoop_eq_some (fun p member => parents p ((inUse p).mp member)) 0 ⟨table, []⟩
    simp only [Nat.zero_add, List.nil_append] at copied written entries
    have returned : ∃ result, getProcInfo t max table = some (result, table') ∧
        (number ≤ max → result = number) ∧ (max < number → result = -1) := by
      by_cases fits : number ≤ max
      · refine ⟨number, ?_, fun _ => rfl, fun tooMany => absurd tooMany (Nat.not_lt.mpr fits)⟩
        simp only [getProcInfo, copied, Option.bind_eq_bind, Option.bind_some]
        rw [if_neg (by omega)]
      · refine ⟨-1, ?_, fun room => absurd room fits, fun _ => rfl⟩
        simp only [getProcInfo, copied, Option.bind_eq_bind, Option.bind_some]
        rw [if_pos (by omega)]
    obtain ⟨result, returned, whenFits, whenOver⟩ := returned
    constructor
    · rintro ⟨result', table'', returned', bounded, faithful, -⟩
      rw [returned, Option.some.injEq, Prod.mk.injEq] at returned'
      obtain ⟨rfl, rfl⟩ := returned'
      have fits : number ≤ max := by
        by_contra tooMany
        have last : max ∈ table'.written := by
          rw [written, List.mem_range'_1]
          omega
        exact Nat.lt_irrefl max (bounded max last)
      exact ⟨parents, fits, fun j p isEntry =>
        (entries j p isEntry).mp ((faithful fits).2 j p isEntry)⟩
    · rintro ⟨-, fits, cleared⟩
      refine ⟨result, table', returned, fun i member => ?_, fun _ => ⟨whenFits fits, ?_⟩, whenOver⟩
      · rw [written, List.mem_range'_1] at member
        omega
      · exact fun j p isEntry => (entries j p isEntry).mpr (cleared j p isEntry)
  · constructor
    · rintro ⟨result, table', returned, -⟩
      push Not at parents
      obtain ⟨p, used, orphan⟩ := parents
      simp [getProcInfo, getProcInfoLoop_eq_none ((inUse p).mpr used) orphan] at returned
    · exact fun condition => absurd condition.1 parents

/-- A name of four characters. -/
def Chars.ofInit : Chars :=
  ⟨textBytes "init" ++ List.replicate 12 0, rfl⟩

/-- The table of a system that has started its shell: slot 0 is `initproc`, which has no parent,
and slot 1 is its child. -/
def booted : Records := fun p => {
  sz := 4096
  state := if p = 0 then .sleeping else if p = 1 then .running else .unused
  pid := p + 1
  uid := 0
  gid := 0
  priority := 1
  parent := if p = 1 then some 0 else none
  name := .ofInit
  named := by decide }

/-- An entry of zeros. -/
def Uproc.zero : Uproc :=
  ⟨0, 0, 0, 0, 0, ⟨List.replicate 16 0, rfl⟩, 0, ⟨List.replicate 16 0, rfl⟩⟩

/-- On a table with room for every slot, cleared before the call, `getProcInfo` follows the null
parent of `initproc`. -/
theorem booted_follows_null : (booted 0).parent = none ∧
    getProcInfo booted nproc (fun _ => Uproc.zero) = none ∧
    ¬ ReportsFaithfully booted nproc (fun _ => Uproc.zero) := by
  have stopped : getProcInfo booted nproc (fun _ => Uproc.zero) = none := rfl
  refine ⟨rfl, stopped, ?_⟩
  rintro ⟨result, table, returned, -⟩
  rw [stopped] at returned
  cases returned

end Xv6.User.ProcTable
