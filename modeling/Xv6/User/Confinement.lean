import Xv6.User.Footprint

/-!
# User pointers are confined to the process

A handler that uses no more than `argptr` has checked stays below `proc->sz`.
Three do not keep to that: `read` with a negative length copies the rest of the
file, `date` uses its pointer when the check fails, and `getprocs` checks one entry
of the table it fills.
-/

namespace Xv6.User

open Stateful Fs

/-! ## Handlers -/

/-- The system calls that take a pointer to a block of user memory. -/
inductive Call
  | read
  | write
  | fstat
  | pipe
  | date
  | getprocs
  deriving DecidableEq

namespace Call

def handler : Call → UserM Int
  | read => sysRead
  | write => sysWrite
  | fstat => sysFstat
  | pipe => sysPipe
  | date => sysDate
  | getprocs => sysGetprocs

end Call

variable {p : UInt32}

namespace Machine

variable (s : Machine)

/-- The machine when the handler starts. -/
def start : Machine :=
  { s with touched := [] }

/-- Argument `n` can be fetched and points to `size` bytes below `sz`. -/
def Fits (n : UInt32) (size : Int) : Prop :=
  ∃ p, s.argint n = some p ∧ p.toNat < s.sz.toNat ∧ p.toNat + size ≤ s.sz.toNat

/-- The block that the arguments of a call name lies below `sz`. -/
def InRange : Call → Prop
  | .read | .write => ∃ n, s.argint 2 = some n ∧ s.Fits 1 (int n)
  | .fstat => s.Fits 1 20
  | .pipe => s.Fits 0 8
  | .date => s.Fits 0 24
  | .getprocs => s.Fits 1 56

/-- A call that returns `ret` in `s'` has used only user addresses below `sz`, and
if its arguments name others it has used none and returns -1. -/
def Keeps (call : Call) (ret : Int) (s' : Machine) : Prop :=
  (∀ a ∈ s'.touched, a < s.sz) ∧ (¬ s.InRange call → ret = -1 ∧ s'.touched = [])

/-- The call confines its user pointers when it is made in `s`. -/
def Confined (call : Call) : Prop :=
  Wp call.handler (fun _ => True) (s.Keeps call) s.start

variable {s} {call : Call}

variable {size : UInt32} {prog : UserM Int} {A : Set UInt32}

theorem argptr_eq_some_iff {n : UInt32} :
    s.argptr n size = some p ↔
      s.argint n = some p ∧ p.toNat < s.sz.toNat ∧ (p + size).toNat ≤ s.sz.toNat := by
  unfold argptr
  cases s.argint n with
  | none => simp
  | some i =>
    simp only [Option.some.injEq]
    split
    · rename_i bad
      simp only [ge_iff_le, gt_iff_lt, UInt32.le_iff_toNat_le, UInt32.lt_iff_toNat_lt] at bad
      constructor
      · intro impossible
        contradiction
      · rintro ⟨rfl, below, ends⟩
        omega
    · rename_i good
      simp only [ge_iff_le, gt_iff_lt, not_or, UInt32.le_iff_toNat_le,
        UInt32.lt_iff_toNat_lt, Nat.not_le, Nat.not_lt] at good
      constructor
      · intro same
        obtain rfl := Option.some.inj same
        exact ⟨rfl, good⟩
      · rintro ⟨rfl, -⟩
        rfl

/-- A size that is not negative is checked without overflow. -/
theorem argptr_of_nonneg {n : UInt32} (nonneg : 0 ≤ int size) :
    s.argptr n size = some p ↔
      s.argint n = some p ∧ p.toNat < s.sz.toNat ∧ p.toNat + size.toNat ≤ s.sz.toNat := by
  have exactSize := int_of_nonneg nonneg
  have below := s.below
  have half : size.toNat < 2 ^ 31 := by
    unfold int at exactSize nonneg
    split at exactSize <;> omega
  rw [argptr_eq_some_iff]
  unfold kernbase at below
  constructor
  · rintro ⟨fetched, inside, ends⟩
    rw [UInt32.toNat_add] at ends
    exact ⟨fetched, inside, by omega⟩
  · rintro ⟨fetched, inside, ends⟩
    rw [UInt32.toNat_add]
    exact ⟨fetched, inside, by omega⟩

/-- A negative size is accepted when it does not reach below address 0. -/
theorem argptr_of_neg {n : UInt32} (neg : int size < 0) :
    s.argptr n size = some p ↔
      s.argint n = some p ∧ p.toNat < s.sz.toNat ∧ -int size ≤ p.toNat := by
  have below := s.below
  have bound := size.toNat_lt
  rw [argptr_eq_some_iff]
  unfold kernbase at below
  unfold int at neg ⊢
  split at neg
  · omega
  · rename_i high
    rw [if_neg high]
    constructor
    · rintro ⟨fetched, inside, ends⟩
      rw [UInt32.toNat_add] at ends
      exact ⟨fetched, inside, by omega⟩
    · rintro ⟨fetched, inside, ends⟩
      rw [UInt32.toNat_add]
      exact ⟨fetched, inside, by omega⟩

theorem fits_of_argptr {n : UInt32} (checked : s.argptr n size = some p) : s.Fits n (int size) := by
  by_cases nonneg : 0 ≤ int size
  · obtain ⟨fetched, inside, ends⟩ := (argptr_of_nonneg nonneg).mp checked
    refine ⟨p, fetched, inside, ?_⟩
    rw [int_of_nonneg nonneg]
    exact_mod_cast ends
  · obtain ⟨fetched, inside, -⟩ := argptr_eq_some_iff.mp checked
    exact ⟨p, fetched, inside, by omega⟩

theorem start_file : s.start.file = s.file := rfl

theorem start_argint (n : UInt32) : s.start.argint n = s.argint n := rfl

theorem start_argptr (n size : UInt32) : s.start.argptr n size = s.argptr n size := rfl

theorem start_argfd (n : UInt32) : s.start.argfd n = s.argfd n := rfl

/-- What holds of a call that returns -1 at once. -/
theorem keeps_refused : s.Keeps call (-1) s.start :=
  ⟨fun _ used => (List.not_mem_nil used).elim, fun _ => ⟨rfl, rfl⟩⟩

theorem keeps_of_within {n : Nat} {ret : Int} {s' : Machine}
    (within : Within s.start s' (block p n)) (fits : p.toNat + n ≤ s.sz.toNat)
    (inRange : s.InRange call) : s.Keeps call ret s' := by
  refine ⟨fun a used => ?_, fun outside => (outside inRange).elim⟩
  rcases within.touched a used with earlier | mem
  · exact (List.not_mem_nil earlier).elim
  · exact block_below fits mem

theorem wp_keeps {n : Nat} (keeps : KeepsTo prog (block p n)) (fits : p.toNat + n ≤ s.sz.toNat)
    (inRange : s.InRange call) : Wp prog (fun _ => True) (s.Keeps call) s.start :=
  (keeps s.start).imp fun _ _ within => keeps_of_within within fits inRange

/-! ## Handlers that use what they have checked -/

theorem confined_write : s.Confined .write := by
  unfold Confined Call.handler
  simp only [sysWrite, wp_bind, wp_get, start_argfd, start_argint, start_argptr]
  split
  · rename_i f n _ length
    split
    · rename_i p checked
      have inRange : s.InRange .write := ⟨n, length, fits_of_argptr checked⟩
      apply wp_keeps filewrite_keepsTo _ inRange
      by_cases nonneg : 0 ≤ int n
      · obtain ⟨-, -, ends⟩ := (argptr_of_nonneg nonneg).mp checked
        rw [int_of_nonneg nonneg]
        exact ends
      · obtain ⟨-, inside, -⟩ := argptr_eq_some_iff.mp checked
        omega
    · exact keeps_refused
  · exact keeps_refused

theorem confined_fstat : s.Confined .fstat := by
  unfold Confined Call.handler
  simp only [sysFstat, wp_bind, wp_get, start_argfd, start_argptr]
  split
  · rename_i f st _ checked
    obtain ⟨-, -, ends⟩ := (argptr_of_nonneg (by decide)).mp checked
    refine wp_keeps (n := 20) ?_ ends (fits_of_argptr checked)
    apply KeepsTo.get.bind
    intro s
    dsimp only
    split
    · exact (stati_keepsTo _ st).bind fun _ => .pure _
    · exact .pure _
  · exact keeps_refused

theorem fdalloc_keepsTo (f : Nat) : KeepsTo (fdalloc f) A := by
  apply KeepsTo.get.bind
  intro s
  split
  · exact .pure _
  · exact fun _ => Within.of_eq rfl rfl

theorem confined_pipe : s.Confined .pipe := by
  unfold Confined Call.handler
  simp only [sysPipe, wp_bind, wp_get, start_argptr]
  split
  · exact keeps_refused
  · rename_i fd checked
    obtain ⟨-, -, ends⟩ := (argptr_of_nonneg (by decide)).mp checked
    refine wp_keeps (n := 8) ?_ ends (fits_of_argptr checked)
    split
    · exact .pure _
    · apply (fdalloc_keepsTo _).bind
      intro fd0
      split
      · exact .pure _
      · apply (fdalloc_keepsTo _).bind
        intro fd1
        split
        · exact fun _ => Within.of_eq rfl rfl
        · apply ((storeWord_uses fd _).keepsTo (block_mono fd (by decide))).bind
          intro _
          apply ((storeWord_uses (fd + 4) _).keepsTo (block_inner fd (by decide))).bind
          intro _
          exact .pure _

/-! ## Handlers that use more than they have checked -/

/-- A program that uses exactly `A` confines its pointers when `A` lies below `sz`. -/
theorem wp_keeps_iff (uses : Uses prog A) (inRange : s.InRange call) :
    Wp prog (fun _ => True) (s.Keeps call) s.start ↔ ∀ a ∈ A, a < s.sz := by
  constructor
  · intro wp a mem
    obtain ⟨ret, s', returned, touches⟩ := (uses s.start).returns
    exact (wp.ok returned).1 a ((touches.touched a).mpr (.inr mem))
  · intro below
    apply (uses s.start).mono (fun _ => False.elim)
    intro ret s' touches
    refine ⟨fun a used => ?_, fun outside => (outside inRange).elim⟩
    rcases (touches.touched a).mp used with earlier | mem
    · exact (List.not_mem_nil earlier).elim
    · exact below a mem

theorem block_below_iff {sz : UInt32} {n : Nat} (inside : p.toNat < sz.toNat) :
    (∀ a ∈ block p n, a < sz) ↔ p.toNat + n ≤ sz.toNat := by
  constructor
  · intro below
    by_contra long
    -- The address sz itself is then in the block.
    have bound := sz.toNat_lt
    have first := below _ ⟨sz.toNat - p.toNat, by omega, rfl⟩
    rw [UInt32.lt_iff_toNat_lt, toNat_offset (by omega)] at first
    omega
  · intro fits a mem
    exact block_below fits mem

/-- With a negative length, `readi` copies the file from its offset to its end. -/
theorem copies_iff_of_neg {ip : Inode} {off n : UInt32} (neg : int n < 0) :
    ip.Copies off n ↔
      ip.type ≠ tDev ∧ off.toNat ≤ ip.size.toNat ∧ off.toNat < -int n := by
  have offBound := off.toNat_lt
  have countBound := n.toNat_lt
  unfold Inode.Copies
  rw [UInt32.le_iff_toNat_le, UInt32.le_iff_toNat_le, UInt32.toNat_add]
  unfold int at neg ⊢
  split at neg
  · omega
  · rename_i high
    rw [if_neg high]
    refine and_congr_right fun _ => and_congr_right fun _ => ?_
    omega

end Machine

/-- The file has more than `room` bytes after its offset, and `read` with the
negative length `n` copies them. -/
def File.Rest (file : File) (room : Nat) (n : UInt32) : Prop :=
  file.readable = true ∧ file.type = .inode ∧ file.ip.type ≠ tDev ∧
    file.off.toNat ≤ file.ip.size.toNat ∧ file.off.toNat < -int n ∧
    room < file.ip.size.toNat - file.off.toNat

namespace Machine

variable {s : Machine} {call : Call}

/-- The descriptor of a `read` is open on a file with more bytes after its offset
than there is memory after the pointer, and the length is negative but passes the
checks of `argptr` and `readi`. -/
def Overruns (s : Machine) : Prop :=
  ∃ fd f p n, s.argfd 0 = some (fd, f) ∧ s.argint 1 = some p ∧ s.argint 2 = some n ∧
    int n < 0 ∧ p.toNat < s.sz.toNat ∧ -int n ≤ p.toNat ∧ (s.file f).Rest (s.sz.toNat - p.toNat) n

theorem wp_fileread_neg {f : Nat} {n : UInt32} (neg : int n < 0) (inRange : s.InRange .read)
    (inside : p.toNat < s.sz.toNat) :
    Wp (fileread f p n) (fun _ => True) (s.Keeps .read) s.start ↔
      ¬ (s.file f).Rest (s.sz.toNat - p.toNat) n := by
  have none : (int n).toNat = 0 := by omega
  -- What uses no memory at all is confined.
  have trivially {prog : UserM Int} (keeps : KeepsTo prog (block p 0)) :
      Wp prog (fun _ => True) (s.Keeps .read) s.start := wp_keeps keeps (by omega) inRange
  simp only [fileread, wp_bind, wp_get]
  rw [← start_file (s := s)]
  generalize s.start.file f = file
  by_cases readable : file.readable = false
  · rw [if_pos readable]
    refine iff_of_true (trivially (.pure _)) fun rest => ?_
    rw [rest.1] at readable
    contradiction
  · rw [if_neg readable]
    cases type : file.type with
    | none => exact iff_of_true trivial fun rest => by simp [rest.2.1] at type
    | pipe =>
      refine iff_of_true (trivially ?_) fun rest => by simp [rest.2.1] at type
      rw [← none]
      exact piperead_keepsTo _ p (int n)
    | inode =>
      dsimp only
      by_cases copies : file.ip.Copies file.off n
      · have advance (r : Int) : Uses (if 0 < r then do
            setFile f { file with
              type := .inode
              off := file.off + UInt32.ofNat r.toNat }
            pure r
          else pure r) ∅ := by
          split <;> exact fun s => ⟨rfl, by simp⟩
        rw [wp_keeps_iff ((readi_uses p copies).bind advance) inRange, Set.union_empty,
          block_below_iff inside, copies.readCount_eq]
        obtain ⟨disk, offset, length⟩ := (copies_iff_of_neg neg).mp copies
        simp only [Bool.not_eq_false] at readable
        have large := s.below
        unfold kernbase at large
        have huge : 2 ^ 31 ≤ n.toNat := by
          unfold int at neg
          split at neg <;> omega
        unfold File.Rest
        simp only [readable, type, disk, offset, length, ne_eq, not_false_eq_true, true_and]
        omega
      · refine iff_of_true (trivially ?_) fun rest => copies ?_
        · have refused := readi_keepsTo p copies
          rw [none] at refused
          apply refused.bind
          intro r
          split
          · exact (KeepsTo.setFile _ _).bind fun _ => KeepsTo.pure _
          · exact .pure _
        · exact (copies_iff_of_neg neg).mpr ⟨rest.2.2.1, rest.2.2.2.1, rest.2.2.2.2.1⟩

theorem confined_read_iff : s.Confined .read ↔ ¬ s.Overruns := by
  unfold Confined Call.handler
  simp only [sysRead, wp_bind, wp_get, start_argfd, start_argint, start_argptr]
  split
  · rename_i fd f n descriptor length
    split
    · rename_i p checked
      have inRange : s.InRange .read := ⟨n, length, fits_of_argptr checked⟩
      by_cases neg : int n < 0
      · obtain ⟨fetched, inside, reaches⟩ := (argptr_of_neg neg).mp checked
        rw [wp_fileread_neg neg inRange inside, not_iff_not]
        constructor
        · intro rest
          exact ⟨fd, f, p, n, descriptor, fetched, length, neg, inside, reaches, rest⟩
        · rintro ⟨fd', f', p', n', descriptor', fetched', length', -, -, -, rest⟩
          rw [descriptor] at descriptor'
          rw [fetched] at fetched'
          rw [length] at length'
          cases descriptor'
          cases fetched'
          cases length'
          exact rest
      · obtain ⟨-, -, ends⟩ := (argptr_of_nonneg (Int.not_lt.mp neg)).mp checked
        refine iff_of_true (wp_keeps (fileread_keepsTo (Int.not_lt.mp neg)) ends inRange) ?_
        rintro ⟨-, -, -, n', -, -, length', neg', -⟩
        rw [length] at length'
        cases length'
        exact neg neg'
    · rename_i refused
      refine iff_of_true keeps_refused ?_
      rintro ⟨-, -, p, n', -, fetched, length', neg, inside, reaches, -⟩
      rw [length] at length'
      cases length'
      rw [(argptr_of_neg neg).mpr ⟨fetched, inside, reaches⟩] at refused
      contradiction
  · rename_i missing
    refine iff_of_true keeps_refused ?_
    rintro ⟨fd, f, -, n, descriptor, -, length, -⟩
    exact missing fd f n descriptor length

theorem confined_date_iff : s.Confined .date ↔ s.Fits 0 24 := by
  unfold Confined Call.handler
  simp only [sysDate, wp_bind, wp_get]
  change Wp (cmostime ((s.argptr 0 dateSize).getD s.garbage)) _ _ _ ↔ _
  cases checked : s.argptr 0 dateSize with
  | some p =>
    obtain ⟨A, sub, uses⟩ := cmostime_uses p
    obtain ⟨-, -, ends⟩ := (argptr_of_nonneg (by decide)).mp checked
    have fits : s.Fits 0 24 := fits_of_argptr checked
    refine iff_of_true ?_ fits
    apply (uses s.start).mono (fun _ => False.elim)
    intro _ s' touches
    exact keeps_of_within (touches.within sub) ends fits
  | none =>
    have outside : ¬ s.Fits 0 24 := by
      rintro ⟨p, fetched, inside, ends⟩
      have passes : s.argptr 0 dateSize = some p :=
        (argptr_of_nonneg (by decide)).mpr ⟨fetched, inside, by exact_mod_cast ends⟩
      rw [checked] at passes
      contradiction
    refine iff_of_false (fun confined => ?_) outside
    obtain ⟨A, -, uses⟩ := cmostime_uses s.garbage
    obtain ⟨_, s', returned, -⟩ := (uses s.start).returns
    have minusOne := ((confined.ok returned).2 outside).1
    contradiction

/-- The table that `getprocs` is to fill passes the check, and has room below `sz`
for every process. -/
def HasRoom (s : Machine) : Prop :=
  ∀ max table, s.argint 0 = some max → s.argptr 1 uprocSize = some table →
    RoomFor table.toNat s.sz.toNat s.inUse

theorem length_inUse_le : s.inUse.length ≤ 64 := by
  unfold inUse
  apply (List.length_filter_le _ _).trans
  rw [List.length_map, List.length_finRange]
  exact Nat.le_refl 64

theorem confined_getprocs_iff : s.Confined .getprocs ↔ s.HasRoom := by
  unfold Confined Call.handler
  simp only [sysGetprocs, wp_bind, wp_get, start_argint, start_argptr]
  split
  · rename_i max table limit checked
    obtain ⟨-, inside, -⟩ := argptr_eq_some_iff.mp checked
    have below := s.below
    unfold kernbase at below
    have few := s.length_inUse_le
    simp only [getProcInfo, wp_bind, wp_get]
    have result (_ : Unit) : Uses (if (s.inUse.length : Int) > int max then pure (-1)
        else pure (s.inUse.length : Int) : UserM Int) ∅ := by
      split <;> exact Touches.refl
    have inRange : s.InRange .getprocs := fits_of_argptr checked
    have exactly := wp_keeps_iff ((getProcInfoLoop_uses table s.inUse).bind result) inRange
    rw [wp_bind, Set.union_empty, tableBlocks_below_iff (by omega)] at exactly
    refine exactly.trans ⟨fun room max' table' _ checked' => ?_, fun room => ?_⟩
    · rw [checked] at checked'
      cases checked'
      exact room
    · exact room max table limit checked
  · rename_i missing
    exact iff_of_true keeps_refused fun max table limit checked =>
      (missing max table limit checked).elim

/-! ## All handlers -/

/-- When a call confines its user pointers: always for `write`, `fstat` and `pipe`;
for `read` unless a negative length makes it copy more of the file than there is
memory after the pointer; for `date` when its pointer passes the check; for
`getprocs` when the table it checked has room for every process. -/
def Guarded (s : Machine) : Call → Prop
  | .read => ¬ s.Overruns
  | .write | .fstat | .pipe => True
  | .date => s.Fits 0 24
  | .getprocs => s.HasRoom

/-- A handler confines its user pointers in exactly the guarded cases. -/
theorem confined_iff_guarded (s : Machine) (call : Call) : s.Confined call ↔ s.Guarded call := by
  cases call with
  | read => exact confined_read_iff
  | write => exact iff_of_true confined_write trivial
  | fstat => exact iff_of_true confined_fstat trivial
  | pipe => exact iff_of_true confined_pipe trivial
  | date => exact confined_date_iff
  | getprocs => exact confined_getprocs_iff

/-- A process of one page that calls `read(0, 4095, -1)` on a file of two bytes. -/
def negativeRead : Machine where
  sz := 4096
  below := by decide
  esp := 0
  mem addr := if addr = 8 ∨ (12 ≤ addr ∧ addr < 16) then 0xff else if addr = 9 then 0x0f else 0
  touched := []
  ofile _ := some 0
  file _ :=
    { type := .inode
      readable := true
      writable := false
      off := 0
      pipe := { killed := false, unread := [], givesUp := fun _ => false }
      ip :=
        { type := tFile
          major := 0
          nlink := 1
          dev := 1
          inum := 2
          size := 2
          data := fun _ => 7 } }
  console := []
  pipes := none
  clock _ := 0
  garbage := 0
  proc _ :=
    { state := .unused
      pid := 0
      uid := 0
      gid := 0
      ppid := 0
      priority := 0
      sz := 0
      name := []
      named := by decide }

/-- The second byte is stored above the memory of the process. -/
theorem not_confined_negativeRead : ¬ negativeRead.Confined .read := by
  intro confined
  apply confined_read_iff.mp confined
  refine ⟨0, 0, 4095, 0xffffffff, rfl, rfl, rfl, ?_⟩
  unfold File.Rest
  decide

end Machine

end Xv6.User
