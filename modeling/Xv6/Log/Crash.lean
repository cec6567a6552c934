import Xv6.Lib.Redo
import Xv6.Log.Header
import Xv6.Log.Protocol

/-!
# Crash atomicity

The log turns the writes of a group into one atomic transaction.  The abstract
store (`stable`) changes only when a non-empty header reaches the disk, and then
by all writes of the group at once.  At every point of every run, crashes during
commit and during recovery included, the disk is `Recoverable`: the header on it
names some blocks, the log holds their stable contents, and every other home
block has its stable contents already.  Recovery therefore ends with the stable
contents in place.
-/

namespace Xv6.Log

open Labelled Function

variable {Pid : Type}

/-- A block number that the log may be asked to write. -/
def Area.Home (area : Area) (b : Nat) : Prop :=
  b < 2 ^ 32 ∧ (b < area.start ∨ area.start + area.size ≤ b)

instance (area : Area) (b : Nat) : Decidable (area.Home b) :=
  inferInstanceAs (Decidable (_ ∧ _))

/-! ## The abstract store -/

/-- The writes of the group that has not committed yet, oldest first. -/
def pending : List (Event Pid) → List (Nat × Block)
  | [] => []
  | .recorded _ b data _ :: older => pending older ++ [(b, data)]
  | .committed :: _ => []
  | .crashed :: _ => []
  | _ :: older => pending older

/-- The committed transactions, oldest first: one for each non-empty header that
reached the disk. -/
def transactions : List (Event Pid) → List (List (Nat × Block))
  | [] => []
  | .committed :: older => transactions older ++ [pending older]
  | _ :: older => transactions older

/-- The contents produced by the committed transactions. -/
def stable (disk : Nat → Block) (events : List (Event Pid)) : Nat → Block :=
  Redo.replay disk (transactions events)

/-- The contents with the writes of the current group. -/
def working (disk : Nat → Block) (events : List (Event Pid)) : Nat → Block :=
  Redo.apply (stable disk events) (pending events)

section

variable (disk : Nat → Block)
include disk

@[simp]
theorem stable_committed (events : List (Event Pid)) :
    stable disk (.committed :: events) = working disk events := by
  simp [stable, working, transactions]

@[simp]
theorem working_committed (events : List (Event Pid)) :
    working disk (.committed :: events) = working disk events := by
  simp [working, pending]

@[simp]
theorem working_recorded (events : List (Event Pid)) (p : Pid) (b : Nat) (data : Block)
    (slot : Nat) :
    working disk (.recorded p b data slot :: events) =
      update (working disk events) b data := by
  simp [working, pending, stable, transactions]

@[simp]
theorem working_crashed (events : List (Event Pid)) :
    working disk (.crashed :: events) = stable disk events := by
  simp [working, pending, stable, transactions]

end

/-! ## What is on the disk -/

/-- The disk holds `base`, as far as recovery is concerned: the blocks that the
header lists are in the log, the others are in place. -/
structure Recoverable (area : Area) (disk base : Nat → Block) (listed : List Nat) : Prop where
  head : readHead (disk area.start) = some listed
  home : ∀ b ∈ listed, area.Home b
  short : listed.length ≤ area.size - 1
  logged : ∀ (i b : Nat), listed[i]? = some b → disk (area.start + i + 1) = base b
  others : ∀ b, area.Home b → b ∉ listed → disk b = base b

variable {b i : Nat} {listed : List Nat} {base : Nat → Block} {data head : Block}

theorem lt_of_getElem?_eq_some (entry : listed[i]? = some b) : i < listed.length := by
  obtain ⟨bound, -⟩ := List.getElem?_eq_some_iff.mp entry
  exact bound

/-- Home blocks are neither the header nor a slot of the log. -/
theorem Area.Home.ne_start {area : Area} (home : area.Home b) : b ≠ area.start := by
  have nonempty := area.nonempty
  unfold Area.Home at home
  omega

theorem Area.Home.ne_slot {area : Area} (home : area.Home b) (inside : i < area.size - 1) :
    b ≠ area.start + i + 1 := by
  unfold Area.Home at home
  omega

/-- A write to an unused slot of the log keeps the disk recoverable. -/
theorem Recoverable.writeSlot {area : Area} {disk : Nat → Block}
    (recoverable : Recoverable area disk base []) (inside : i < area.size - 1) :
    Recoverable area (update disk (area.start + i + 1) data) base [] := by
  constructor
  · rw [update_of_ne (by omega)]
    exact recoverable.head
  · simp
  · simp
  · simp
  · intro b home absent
    rw [update_of_ne (home.ne_slot inside)]
    exact recoverable.others b home absent

/-- The header write commits: the same disk, seen with the new header, holds the
new contents. -/
theorem Recoverable.commit {area : Area} {disk base' : Nat → Block}
    (recoverable : Recoverable area disk base []) (written : readHead head = some listed)
    (home : ∀ b ∈ listed, area.Home b) (short : listed.length ≤ area.size - 1)
    (logged : ∀ (i b : Nat), listed[i]? = some b → disk (area.start + i + 1) = base' b)
    (same : ∀ b, area.Home b → b ∉ listed → base' b = base b) :
    Recoverable area (update disk area.start head) base' listed := by
  constructor
  · rw [update_self]
    exact written
  · exact home
  · exact short
  · intro i b entry
    rw [update_of_ne (by omega)]
    exact logged i b entry
  · intro b isHome absent
    rw [update_of_ne isHome.ne_start, same b isHome absent]
    exact recoverable.others b isHome (by simp)

/-- Installing a listed block keeps the disk recoverable. -/
theorem Recoverable.install {area : Area} {disk : Nat → Block}
    (recoverable : Recoverable area disk base listed) (member : b ∈ listed) :
    Recoverable area (update disk b data) base listed := by
  have isHome := recoverable.home b member
  have short := recoverable.short
  constructor
  · rw [update_of_ne isHome.ne_start.symm]
    exact recoverable.head
  · exact recoverable.home
  · exact recoverable.short
  · intro i b' entry
    have bound := lt_of_getElem?_eq_some entry
    rw [update_of_ne (isHome.ne_slot (by omega)).symm]
    exact recoverable.logged i b' entry
  · intro b' home' absent
    have different : b' ≠ b := by
      rintro rfl
      exact absent member
    rw [update_of_ne different]
    exact recoverable.others b' home' absent

/-- Once all listed blocks are installed the header can be erased. -/
theorem Recoverable.erase {area : Area} {disk : Nat → Block}
    (recoverable : Recoverable area disk base listed) (erased : readHead head = some [])
    (installed : ∀ (i b : Nat), listed[i]? = some b → disk b = base b) :
    Recoverable area (update disk area.start head) base [] := by
  constructor
  · rw [update_self]
    exact erased
  · simp
  · simp
  · simp
  · intro b home _
    rw [update_of_ne home.ne_start]
    by_cases member : b ∈ listed
    · obtain ⟨i, entry⟩ := List.getElem?_of_mem member
      exact installed i b entry
    · exact recoverable.others b home member

namespace State

variable {s s' : State Pid} {area : Area} {disk : Nat → Block} {events : List (Event Pid)}

/-! ## The invariant -/

/-- The buffers of the group are dirty and hold its writes; it writes nothing
else. -/
def Pending (area : Area) (s : State Pid) (base new : Nat → Block) : Prop :=
  (∀ b ∈ s.lh, s.cache b = some ⟨new b, true⟩) ∧
    ∀ b, area.Home b → b ∉ s.lh → new b = base b

/-- What holds at the next disk write. -/
def PhaseInv (area : Area) (s : State Pid) (base new : Nat → Block) : Prop :=
  match s.phase with
  | .idle => Recoverable area s.disk base [] ∧ Pending area s base new
  | .writeLog tail =>
    Recoverable area s.disk base [] ∧ Pending area s base new ∧
      (∀ i b, i < tail → s.lh[i]? = some b → s.disk (area.start + i + 1) = new b) ∧ s.lh ≠ []
  | .install _ tail =>
    Recoverable area s.disk base s.lh ∧ new = base ∧
      (∀ i b, i < tail → s.lh[i]? = some b → s.disk b = base b) ∧
      ∀ b buf, s.cache b = some buf → buf.dirty = true → ∃ i, tail ≤ i ∧ s.lh[i]? = some b
  | .readHead => s.lh = [] ∧ new = base ∧ ∃ listed, Recoverable area s.disk base listed

structure CrashInv (area : Area) (disk : Nat → Block) (s : State Pid)
    (events : List (Event Pid)) : Prop where
  protocol : s.Protocol
  coherent : s.Coherent
  dirty : ∀ b buf, s.cache b = some buf → buf.dirty = true → b ∈ s.lh
  home : ∀ b ∈ s.lh, area.Home b
  short : s.lh.length ≤ area.size - 1
  fits : s.lh.length ≤ logSize
  phase : PhaseInv area s (stable disk events) (working disk events)

variable (inv : CrashInv area disk s events)
include inv

/-- At every point the disk can be recovered to the stable contents. -/
theorem CrashInv.recoverable : ∃ listed, Recoverable area s.disk (stable disk events) listed := by
  have holds := inv.phase
  unfold PhaseInv at holds
  split at holds
  · exact ⟨[], holds.1⟩
  · exact ⟨[], holds.1⟩
  · exact ⟨s.lh, holds.1⟩
  · exact holds.2.2

/-- Blocks of the log area are never dirty. -/
theorem CrashInv.view_of_not_home (notHome : ¬ area.Home b) : s.view b = s.disk b := by
  unfold State.view
  cases cached : s.cache b with
  | none => rfl
  | some buf =>
    cases isDirty : buf.dirty with
    | false => exact inv.coherent b buf cached isDirty
    | true => exact absurd (inv.home b (inv.dirty b buf cached isDirty)) notHome

variable {event : Event Pid} {target tail : Nat} {recovering : Bool}

/-- Steps that bring clean buffers into the cache or remove them. -/
theorem CrashInv.recache (sameDisk : s'.disk = s.disk) (coherent : s'.Coherent)
    (dirty : ∀ {b : Nat} {buf : Buf}, s'.cache b = some buf → buf.dirty = true →
      s.cache b = some buf) (pinned : ∀ {b : Nat} {data : Block}, s.cache b = some ⟨data, true⟩ →
      s'.cache b = some ⟨data, true⟩) (protocol : s'.Protocol) (lh : s'.lh = s.lh)
    (phase : s'.phase = s.phase) (base : stable disk (event :: events) = stable disk events)
    (new : working disk (event :: events) = working disk events) :
    CrashInv area disk s' (event :: events) := by
  have pending : Pending area s (stable disk events) (working disk events) →
      Pending area s' (stable disk events) (working disk events) := by
    rintro ⟨held, same⟩
    unfold Pending
    rw [lh]
    exact ⟨fun b member => pinned (held b member), same⟩
  constructor
  · exact protocol
  · exact coherent
  · intro b buf cached isDirty
    rw [lh]
    exact inv.dirty b buf (dirty cached isDirty) isDirty
  · rw [lh]
    exact inv.home
  · rw [lh]
    exact inv.short
  · rw [lh]
    exact inv.fits
  · have holds := inv.phase
    unfold PhaseInv at holds ⊢
    rw [base, new, phase, sameDisk, lh]
    split at holds
    · exact ⟨holds.1, pending holds.2⟩
    · exact ⟨holds.1, pending holds.2.1, holds.2.2⟩
    · refine ⟨holds.1, holds.2.1, holds.2.2.1, fun b buf cached isDirty => ?_⟩
      exact holds.2.2.2 b buf (dirty cached isDirty) isDirty
    · exact holds

/-- Steps that leave disk, cache, header and phase alone. -/
theorem CrashInv.congr (protocol : s'.Protocol) (sameDisk : s'.disk = s.disk)
    (cache : s'.cache = s.cache) (lh : s'.lh = s.lh) (phase : s'.phase = s.phase)
    (base : stable disk (event :: events) = stable disk events)
    (new : working disk (event :: events) = working disk events) :
    CrashInv area disk s' (event :: events) := by
  refine inv.recache sameDisk ?_ ?_ ?_ protocol lh phase base new
  · unfold Coherent
    rw [cache, sameDisk]
    exact inv.coherent
  · exact fun cached _ => cache ▸ cached
  · simp [cache]

/-- The last `end_op` of a group starts `commit`. -/
theorem CrashInv.startCommit (idle : s.phase = .idle) (protocol : s'.Protocol)
    (sameDisk : s'.disk = s.disk) (cache : s'.cache = s.cache) (lh : s'.lh = s.lh)
    (phase : s'.phase = .idle ∨ s'.phase = .writeLog 0 ∧ s.lh ≠ [])
    (base : stable disk (event :: events) = stable disk events)
    (new : working disk (event :: events) = working disk events) :
    CrashInv area disk s' (event :: events) := by
  rcases phase with same | ⟨start, nonempty⟩
  · exact inv.congr protocol sameDisk cache lh (same.trans idle.symm) base new
  · have unchanged : CrashInv area disk { s' with phase := .idle } (event :: events) :=
      inv.congr (protocol.congr rfl rfl rfl (by simp)) sameDisk cache lh idle.symm base new
    refine ⟨protocol, unchanged.coherent, unchanged.dirty, unchanged.home, unchanged.short,
      unchanged.fits, ?_⟩
    have holds := unchanged.phase
    unfold PhaseInv at holds ⊢
    rw [start]
    refine ⟨holds.1, holds.2, fun i b bound => absurd bound (Nat.not_lt_zero i), ?_⟩
    rw [lh]
    exact nonempty

/-- Recycling a clean buffer. -/
theorem CrashInv.recycle (clean : s.cache target = some ⟨data, false⟩) (protocol : s'.Protocol)
    (same : s' = { s with cache := update s.cache target none }) :
    CrashInv area disk s' (.internal :: events) := by
  subst same
  have kept : ∀ {b : Nat} {buf : Buf}, update s.cache target none b = some buf →
      s.cache b = some buf := by
    intro b buf cached
    by_cases equal : b = target
    · subst equal
      simp at cached
    · rwa [update_of_ne equal] at cached
  refine inv.recache rfl (fun b buf cached => inv.coherent b buf (kept cached))
    (fun cached _ => kept cached) (fun {b new} cached => ?_) protocol rfl rfl rfl rfl
  by_cases equal : b = target
  · subst equal
    rw [clean] at cached
    cases cached
  · exact (update_of_ne equal ..).trans cached

/-- A block of the group is recorded. -/
theorem CrashInv.record {p : Pid} {slot : Nat} (idle : s.phase = .idle) (home : area.Home b)
    (room : b ∈ s.lh ∨ s.lh.length < area.size - 1) (fits : b ∈ s.lh ∨ s.lh.length < logSize)
    (protocol : s'.Protocol) (sameDisk : s'.disk = s.disk) (phase : s'.phase = s.phase)
    (lh : s'.lh = if b ∈ s.lh then s.lh else s.lh ++ [b])
    (cache : s'.cache = update s.cache b (some ⟨data, true⟩)) :
    CrashInv area disk s' (.recorded p b data slot :: events) := by
  have mem_lh : ∀ b', b' ∈ s'.lh ↔ b' ∈ s.lh ∨ b' = b := by
    intro b'
    rw [lh]
    split
    · rename_i known
      constructor
      · exact .inl
      · rintro (member | rfl)
        · exact member
        · exact known
    · simp
  obtain ⟨recoverable, pinned, same⟩ : Recoverable area s.disk (stable disk events) [] ∧
      Pending area s (stable disk events) (working disk events) := by
    have holds := inv.phase
    rwa [PhaseInv, idle] at holds
  constructor
  · exact protocol
  · intro b' buf cached clean
    rw [cache] at cached
    rw [sameDisk]
    by_cases equal : b' = b
    · subst equal
      rw [update_self] at cached
      cases cached
      cases clean
    · rw [update_of_ne equal] at cached
      exact inv.coherent b' buf cached clean
  · intro b' buf cached isDirty
    rw [mem_lh]
    by_cases equal : b' = b
    · exact .inr equal
    · rw [cache, update_of_ne equal] at cached
      exact .inl (inv.dirty b' buf cached isDirty)
  · intro b' member
    rcases (mem_lh b').mp member with old | rfl
    · exact inv.home b' old
    · exact home
  · rw [lh]
    split
    · exact inv.short
    · rename_i unknown
      have space := room.resolve_left unknown
      simp only [List.length_append, List.length_singleton]
      omega
  · rw [lh]
    split
    · exact inv.fits
    · rename_i unknown
      have space := fits.resolve_left unknown
      simp only [List.length_append, List.length_singleton]
      omega
  · unfold PhaseInv
    rw [phase, idle]
    refine ⟨?_, ?_, ?_⟩
    · rw [sameDisk]
      exact recoverable
    · intro b' member
      rw [cache, working_recorded]
      by_cases equal : b' = b
      · subst equal
        simp
      · rw [update_of_ne equal, update_of_ne equal]
        exact pinned b' (((mem_lh b').mp member).resolve_right equal)
    · intro b' isHome absent
      have notThere : b' ∉ s.lh ∧ b' ≠ b := by
        rw [mem_lh] at absent
        exact not_or.mp absent
      rw [working_recorded, update_of_ne notThere.2]
      exact same b' isHome notThere.1

/-- A disk write that keeps the header list keeps all but the phase clause. -/
theorem CrashInv.of_wrote (protocol : s'.Protocol) (lh : s'.lh = s.lh)
    (wrote : s.Wrote s' target data)
    (phase : PhaseInv area s' (stable disk (event :: events)) (working disk (event :: events))) :
    CrashInv area disk s' (event :: events) := by
  constructor
  · exact protocol
  · exact wrote.coherent inv.coherent
  · intro b buf cached isDirty
    rw [lh]
    exact inv.dirty b buf (wrote.dirty cached isDirty).2 isDirty
  · rw [lh]
    exact inv.home
  · rw [lh]
    exact inv.short
  · rw [lh]
    exact inv.fits
  · exact phase

/-- What is known while the blocks of a group are copied into the log. -/
theorem CrashInv.of_writeLog (phase : s.phase = .writeLog tail) :
    Recoverable area s.disk (stable disk events) [] ∧
      Pending area s (stable disk events) (working disk events) ∧
      (∀ i b, i < tail → s.lh[i]? = some b →
        s.disk (area.start + i + 1) = working disk events b) ∧ s.lh ≠ [] := by
  have holds := inv.phase
  rwa [PhaseInv, phase] at holds

/-- What is known while they are copied to their homes. -/
theorem CrashInv.of_install (phase : s.phase = .install recovering tail) :
    Recoverable area s.disk (stable disk events) s.lh ∧
      working disk events = stable disk events ∧
      (∀ i b, i < tail → s.lh[i]? = some b → s.disk b = stable disk events b) ∧
      ∀ b buf, s.cache b = some buf → buf.dirty = true →
        ∃ i, tail ≤ i ∧ s.lh[i]? = some b := by
  have holds := inv.phase
  rwa [PhaseInv, phase] at holds

/-- A block of the group is copied into its slot of the log. -/
theorem CrashInv.writeLog (phase : s.phase = .writeLog tail) (entry : s.lh[tail]? = some b)
    (protocol : s'.Protocol) (lh : s'.lh = s.lh) (phase' : s'.phase = .writeLog (tail + 1))
    (wrote : s.Wrote s' (area.start + tail + 1) (s.view b)) :
    CrashInv area disk s' (.wrote (area.start + tail + 1) :: events) := by
  obtain ⟨recoverable, ⟨pinned, same⟩, sofar, nonempty⟩ := inv.of_writeLog phase
  have inside : tail < area.size - 1 := (lt_of_getElem?_eq_some entry).trans_le inv.short
  have contents : s.view b = working disk events b := by
    rw [State.view, pinned b (List.mem_of_getElem? entry)]
  have notSlot : ∀ b' ∈ s.lh, b' ≠ area.start + tail + 1 :=
    fun b' member => (inv.home b' member).ne_slot inside
  refine inv.of_wrote protocol lh wrote ?_
  unfold PhaseInv
  rw [phase', wrote.disk]
  refine ⟨recoverable.writeSlot inside, ⟨?_, ?_⟩, ?_, by rwa [lh]⟩
  · rw [lh]
    exact fun b' member => wrote.pinned (notSlot b' member) (pinned b' member)
  · rw [lh]
    exact same
  · intro i b' bound entry'
    rw [lh] at entry'
    by_cases last : i = tail
    · subst last
      rw [update_self, contents]
      obtain rfl : b = b' := Option.some.inj (entry.symm.trans entry')
      rfl
    · rw [update_of_ne (by omega)]
      exact sofar i b' (by omega) entry'

/-- The non-empty header reaches the disk. -/
theorem CrashInv.commit (phase : s.phase = .writeLog tail) (finished : s.lh[tail]? = none)
    (protocol : s'.Protocol) (lh : s'.lh = s.lh) (phase' : s'.phase = .install false 0)
    (wrote : s.Wrote s' area.start (writeHead (s.view area.start) s.lh)) :
    CrashInv area disk s' (.committed :: events) := by
  obtain ⟨recoverable, ⟨-, same⟩, sofar, -⟩ := inv.of_writeLog phase
  have all : s.lh.length ≤ tail := List.getElem?_eq_none_iff.mp finished
  have written : readHead (writeHead (s.view area.start) s.lh) = some s.lh :=
    readHead_writeHead _ inv.fits fun b member => (inv.home b member).1
  refine inv.of_wrote protocol lh wrote ?_
  unfold PhaseInv
  rw [phase', wrote.disk, lh, stable_committed, working_committed]
  refine ⟨?_, rfl, ?_, ?_⟩
  · refine recoverable.commit written inv.home inv.short ?_ same
    intro i b entry
    exact sofar i b ((lt_of_getElem?_eq_some entry).trans_le all) entry
  · intro i b bound
    exact absurd bound (Nat.not_lt_zero i)
  · intro b buf cached isDirty
    obtain ⟨i, entry⟩ :=
      List.getElem?_of_mem (inv.dirty b buf (wrote.dirty cached isDirty).2 isDirty)
    exact ⟨i, Nat.zero_le i, entry⟩

/-- A logged block is copied to its home, in a commit or in a recovery. -/
theorem CrashInv.install (phase : s.phase = .install recovering tail) (entry : s.lh[tail]? = some b)
    (protocol : s'.Protocol) (lh : s'.lh = s.lh)
    (phase' : s'.phase = .install recovering (tail + 1))
    (wrote : s.Wrote s' b (s.view (area.start + tail + 1))) :
    CrashInv area disk s' (.wrote b :: events) := by
  obtain ⟨recoverable, settled, sofar, later⟩ := inv.of_install phase
  have bound := lt_of_getElem?_eq_some entry
  have short := inv.short
  have notHome : ¬ area.Home (area.start + tail + 1) := by
    unfold Area.Home
    omega
  have contents : s.view (area.start + tail + 1) = stable disk events b := by
    rw [inv.view_of_not_home notHome]
    exact recoverable.logged tail b entry
  refine inv.of_wrote protocol lh wrote ?_
  unfold PhaseInv
  rw [phase', wrote.disk, lh]
  refine ⟨recoverable.install (List.mem_of_getElem? entry), settled, ?_, ?_⟩
  · intro i b' bound' entry'
    by_cases same : b' = b
    · subst same
      rw [update_self, contents]
      rfl
    · have earlier : i ≠ tail := by
        rintro rfl
        exact same (Option.some.inj (entry'.symm.trans entry))
      rw [update_of_ne same]
      exact sofar i b' (by omega) entry'
  · intro b' buf cached isDirty
    obtain ⟨different, before⟩ := wrote.dirty cached isDirty
    obtain ⟨i, low, entry'⟩ := later b' buf before isDirty
    have other : i ≠ tail := by
      rintro rfl
      exact different (Option.some.inj (entry'.symm.trans entry))
    exact ⟨i, by omega, entry'⟩

/-- The empty header reaches the disk. -/
theorem CrashInv.erase (phase : s.phase = .install recovering tail) (finished : s.lh[tail]? = none)
    (erased : readHead head = some []) (protocol : s'.Protocol) (lh : s'.lh = [])
    (phase' : s'.phase = .idle) (wrote : s.Wrote s' area.start head) :
    CrashInv area disk s' (.erased :: events) := by
  obtain ⟨recoverable, settled, sofar, later⟩ := inv.of_install phase
  have all : s.lh.length ≤ tail := List.getElem?_eq_none_iff.mp finished
  have clean : ∀ b buf, s'.cache b = some buf → buf.dirty ≠ true := by
    intro b buf cached isDirty
    obtain ⟨i, low, entry⟩ := later b buf (wrote.dirty cached isDirty).2 isDirty
    have bound := lt_of_getElem?_eq_some entry
    omega
  constructor
  · exact protocol
  · exact wrote.coherent inv.coherent
  · intro b buf cached isDirty
    exact absurd isDirty (clean b buf cached)
  · simp [lh]
  · simp [lh]
  · simp [lh]
  · unfold PhaseInv
    rw [phase', wrote.disk]
    refine ⟨recoverable.erase erased ?_, ?_, ?_⟩
    · intro i b entry
      exact sofar i b ((lt_of_getElem?_eq_some entry).trans_le all) entry
    · simp [lh]
    · intro b home absent
      exact congrFun settled b

/-- The memory is lost. -/
theorem CrashInv.crash : CrashInv area disk (boot s.disk : State Pid) (.crashed :: events) := by
  constructor
  · exact boot_protocol s.disk
  · intro b buf cached
    cases cached
  · intro b buf cached
    cases cached
  · simp [boot]
  · simp [boot]
  · simp [boot]
  · exact ⟨rfl, by rw [working_crashed]; rfl, inv.recoverable⟩

/-- `read_head` finds the header that the disk is recoverable with. -/
theorem CrashInv.readHead (phase : s.phase = .readHead)
    (found : Log.readHead (s.view area.start) = some listed) (loaded : s.Loaded s')
    (protocol : s'.Protocol) (lh : s'.lh = listed) (phase' : s'.phase = .install true 0) :
    CrashInv area disk s' (.internal :: events) := by
  obtain ⟨empty, settled, expected, recoverable⟩ : s.lh = [] ∧
      working disk events = stable disk events ∧
      ∃ expected, Recoverable area s.disk (stable disk events) expected := by
    have holds := inv.phase
    rwa [PhaseInv, phase] at holds
  have notHome : ¬ area.Home area.start := fun home => home.ne_start rfl
  rw [inv.view_of_not_home notHome, recoverable.head] at found
  obtain rfl : expected = listed := Option.some.inj found
  have clean : ∀ b buf, s'.cache b = some buf → buf.dirty ≠ true := by
    intro b buf cached isDirty
    have member := inv.dirty b buf (loaded.dirty cached isDirty) isDirty
    simp [empty] at member
  constructor
  · exact protocol
  · exact loaded.coherent inv.coherent
  · exact fun b buf cached isDirty => absurd isDirty (clean b buf cached)
  · rw [lh]
    exact recoverable.home
  · rw [lh]
    exact recoverable.short
  · rw [lh]
    exact readHead_length recoverable.head
  · unfold PhaseInv
    rw [phase', lh, loaded.1]
    refine ⟨recoverable, settled, ?_, ?_⟩
    · intro i b bound
      exact absurd bound (Nat.not_lt_zero i)
    · exact fun b buf cached isDirty => absurd isDirty (clean b buf cached)

end State

end Xv6.Log
