import Xv6.Log.Crash

/-!
# Runs with crashes

Every step keeps the crash invariant (`CrashInv.move`), provided that what is
recorded are home blocks and that a group has a slot of the log area for each of
its blocks.  Whatever the run, the home blocks on the disk are then those of the
committed transactions whenever no commit or recovery is under way.
-/

namespace Xv6.Log

open Labelled

variable {Pid : Type}

/-- The event is a header write that commits. -/
def Event.isCommit : Event Pid → Bool
  | .committed => true
  | _ => false

/-- The event records a block of the current group. -/
def Event.isRecord : Event Pid → Bool
  | .recorded _ _ _ _ => true
  | _ => false

theorem length_transactions (events : List (Event Pid)) :
    (transactions events).length = events.countP Event.isCommit := by
  induction events with
  | nil => rfl
  | cons event events ih =>
    cases event <;> simp [transactions, List.countP_cons, Event.isCommit, ih]

/-- Blocks whose uncommitted contents are the stable ones keep both while nothing
is recorded. -/
theorem stable_of_no_record {disk : Nat → Block} {events later : List (Event Pid)} {b : Nat}
    (same : working disk events b = stable disk events b)
    (quiet : ∀ event ∈ later, event.isRecord = false) :
    stable disk (later ++ events) b = stable disk events b ∧
      working disk (later ++ events) b = stable disk events b := by
  induction later with
  | nil => exact ⟨rfl, same⟩
  | cons event later ih =>
    obtain ⟨stableEq, workingEq⟩ := ih fun event member => quiet event (by simp [member])
    have this := quiet event (by simp)
    cases event with
    | recorded p b' data slot => cases this
    | committed =>
      simp only [List.cons_append, stable_committed, working_committed]
      exact ⟨workingEq, workingEq⟩
    | crashed =>
      simp only [List.cons_append, working_crashed]
      exact ⟨stableEq, stableEq⟩
    | internal => exact ⟨stableEq, workingEq⟩
    | began p => exact ⟨stableEq, workingEq⟩
    | called p b' panics => exact ⟨stableEq, workingEq⟩
    | ended p => exact ⟨stableEq, workingEq⟩
    | wrote b' => exact ⟨stableEq, workingEq⟩
    | erased => exact ⟨stableEq, workingEq⟩

namespace State

variable [DecidableEq Pid] {s s' : State Pid} {area : Area} {disk : Nat → Block}
  {events : List (Event Pid)}

/-- Only home blocks are recorded, and a group has at most `log.size - 1` of
them. -/
def Admissible (area : Area) (s : State Pid) : Event Pid → Prop
  | .recorded _ b _ _ => area.Home b ∧ (b ∈ s.lh ∨ s.lh.length < area.size - 1)
  | _ => True

instance (area : Area) (s : State Pid) (event : Event Pid) :
    Decidable (s.Admissible area event) :=
  match event with
  | .recorded _ b _ _ => inferInstanceAs (Decidable (area.Home b ∧ (b ∈ s.lh ∨ _)))
  | .internal => .isTrue trivial
  | .began _ => .isTrue trivial
  | .called _ _ _ => .isTrue trivial
  | .ended _ => .isTrue trivial
  | .wrote _ => .isTrue trivial
  | .committed => .isTrue trivial
  | .erased => .isTrue trivial
  | .crashed => .isTrue trivial

/-- The steps of a run of such group transactions. -/
def AdmissibleStep (area : Area) (s : State Pid) (event : Event Pid) (s' : State Pid) : Prop :=
  Step area s event s' ∧ s.Admissible area event

section

variable (inv : CrashInv area disk s events)
include inv

/-- Every step keeps the crash invariant. -/
theorem CrashInv.move {event : Event Pid} (move : Move area s event s')
    (admissible : s.Admissible area event) : CrashInv area disk s' (event :: events) := by
  have protocol := inv.protocol.move move
  cases move with
  | beginOp | sleep | enter | tooBig | logWrite | endPanic | endOp | finish =>
    exact inv.congr protocol rfl rfl rfl rfl rfl rfl
  | record p b data checked inHeader =>
    obtain ⟨-, idle⟩ := inv.protocol.idle (p := p) (by rw [checked]; rfl)
    obtain ⟨home, room⟩ := admissible
    have fits : b ∈ s.lh ∨ s.lh.length < logSize := by
      by_cases known : b ∈ s.lh
      · exact .inl known
      · rw [List.idxOf_of_notMem known] at inHeader
        exact .inr inHeader
    exact inv.record idle home room fits protocol rfl rfl rfl rfl
  | endCommit p inside free last =>
    obtain ⟨-, idle⟩ := inv.protocol.idle (p := p) (by rw [inside]; rfl)
    refine inv.startCommit idle protocol rfl rfl rfl ?_ rfl rfl
    by_cases empty : s.lh = []
    · exact .inl (if_pos empty)
    · exact .inr ⟨if_neg empty, empty⟩
  | writeLog tail b phase entry =>
    exact inv.writeLog phase entry protocol (by simp [writeLogBlock, bwrite]) rfl
      (s.writeLogBlock_wrote area tail b)
  | commit tail phase finished =>
    exact inv.commit phase finished protocol (by simp [writeHeadBlock, bwrite]) rfl
      (s.writeHeadBlock_wrote area)
  | install recovering tail b phase entry =>
    exact inv.install phase entry protocol (by simp [installBlock, bwrite]) rfl
      (s.installBlock_wrote area tail b)
  | erase recovering tail phase finished =>
    have wrote : s.Wrote { { s with lh := [] }.writeHeadBlock area with phase := .idle }
        area.start (writeHead (s.view area.start) []) :=
      { s with lh := [] }.writeHeadBlock_wrote area
    exact inv.erase phase finished (readHead_writeHead _ (Nat.zero_le _) (by simp)) protocol
      (by simp [writeHeadBlock, bwrite]) rfl wrote
  | load b =>
    have loaded := s.bread_loaded b
    exact inv.recache loaded.1 (loaded.coherent inv.coherent) loaded.dirty loaded.pinned protocol
      (by simp) (by simp) rfl rfl
  | recycle b data clean => exact inv.recycle clean protocol rfl
  | crash => exact inv.crash
  | readHead listed phase found =>
    rw [bread_fst] at found
    exact inv.readHead phase found (s.bread_loaded area.start) protocol rfl rfl

omit inv in
/-- The invariant holds along every run from an empty log. -/
theorem crashInv_of_run (fresh : Log.readHead (disk area.start) = some [])
    (run : Trace (AdmissibleStep area) (boot disk : State Pid) events s) :
    CrashInv area disk s events := by
  induction run with
  | refl =>
    have recoverable : Recoverable area disk disk [] :=
      ⟨fresh, by simp, by simp, by simp, fun b _ _ => rfl⟩
    refine ⟨boot_protocol disk, ?_, ?_, by simp [boot], by simp [boot], by simp [boot], ?_⟩
    · intro b buf cached
      cases cached
    · intro b buf cached
      cases cached
    · exact ⟨rfl, rfl, [], recoverable⟩
  | step _ step ih => exact ih.move (step_move step.1).1 step.2

omit [DecidableEq Pid] in
/-- While no commit or recovery is under way, the home blocks are stable. -/
theorem CrashInv.stable_of_idle (idle : s.phase = .idle) {b : Nat} (home : area.Home b) :
    s.disk b = stable disk events b := by
  have holds := inv.phase
  rw [PhaseInv, idle] at holds
  exact holds.1.others b home (by simp)

/-- A home block is written only when the header on the disk lists it. -/
theorem CrashInv.listed_of_changed {event : Event Pid} (move : Move area s event s') {b : Nat}
    (home : area.Home b) (changed : s'.disk b ≠ s.disk b) :
    ∃ listed, Log.readHead (s.disk area.start) = some listed ∧ b ∈ listed := by
  have elsewhere : ∀ {target : Nat} {data : Block}, s.Wrote s' target data → b = target := by
    intro target data wrote
    by_contra different
    rw [wrote.disk, Function.update_of_ne different] at changed
    exact changed rfl
  cases move with
  | writeLog tail b' phase entry =>
    have inside : tail < area.size - 1 := (lt_of_getElem?_eq_some entry).trans_le inv.short
    exact absurd (elsewhere (s.writeLogBlock_wrote area tail b')) (home.ne_slot inside)
  | commit tail phase finished =>
    exact absurd (elsewhere (s.writeHeadBlock_wrote area)) home.ne_start
  | install recovering tail b' phase entry =>
    obtain rfl := elsewhere (s.installBlock_wrote area tail b')
    have holds := inv.phase
    rw [PhaseInv, phase] at holds
    exact ⟨s.lh, holds.1.head, List.mem_of_getElem? entry⟩
  | erase recovering tail phase finished =>
    exact absurd (elsewhere ({ s with lh := [] }.writeHeadBlock_wrote area)) home.ne_start
  | load b' => exact absurd (congrFun (s.bread_disk b') b) changed
  | readHead listed phase found => exact absurd (congrFun (s.bread_disk area.start) b) changed
  | beginOp | sleep | enter | tooBig | logWrite | record | endPanic | endCommit | endOp | finish
  | recycle | crash => exact absurd rfl changed

/-- A commit puts a non-empty header on the disk. -/
theorem CrashInv.nonempty_of_commit (move : Move area s .committed s') :
    ∃ listed, Log.readHead (s'.disk area.start) = some listed ∧ listed ≠ [] := by
  cases move with
  | commit tail phase finished =>
    have holds := inv.phase
    rw [PhaseInv, phase] at holds
    refine ⟨s.lh, ?_, holds.2.2.2⟩
    rw [(s.writeHeadBlock_wrote area).disk, Function.update_self]
    exact readHead_writeHead _ inv.fits fun b member => (inv.home b member).1

/-! ## Recovery comes to its end -/

/-- Events of `recover_from_log`. -/
def Quiet (events : List (Event Pid)) : Prop :=
  ∀ event ∈ events, event.isRecord = false ∧ event.isCommit = false ∧ event ≠ .crashed

omit inv in
omit [DecidableEq Pid] in
theorem Quiet.append {later : List (Event Pid)} (quiet : Quiet later) (before : Quiet events) :
    Quiet (later ++ events) := by
  intro event member
  rcases List.mem_append.mp member with inLater | inEvents
  · exact quiet event inLater
  · exact before event inEvents

omit inv in
/-- `install_trans` and the write of the empty header after it. -/
theorem exists_install (area : Area) (s : State Pid) {recovering : Bool} {tail : Nat}
    (phase : s.phase = .install recovering tail) (running : s.panicked = false) :
    ∃ later s', Trace (AdmissibleStep area) s later s' ∧ s'.phase = .idle ∧ Quiet later := by
  generalize left : s.lh.length - tail = remaining
  induction remaining generalizing s tail with
  | zero =>
    have finished : s.lh[tail]? = none := List.getElem?_eq_none_iff.mpr (by omega)
    have step : Step area s .erased
        { { s with lh := [] }.writeHeadBlock area with phase := .idle } :=
      ⟨.write, by simp [State.step, running, act, phase, finished]⟩
    refine ⟨[.erased], _, Trace.refl.step ⟨step, trivial⟩, rfl, ?_⟩
    simp [Quiet, Event.isRecord, Event.isCommit]
  | succ remaining ih =>
    have bound : tail < s.lh.length := by omega
    have entry : s.lh[tail]? = some s.lh[tail] := List.getElem?_eq_getElem bound
    have step : Step area s (.wrote s.lh[tail])
        { s.installBlock area tail s.lh[tail] with phase := .install recovering (tail + 1) } :=
      ⟨.write, by simp [State.step, running, act, phase, entry]⟩
    obtain ⟨later, last, run, idle, quiet⟩ := ih
      { s.installBlock area tail s.lh[tail] with phase := .install recovering (tail + 1) } rfl
      (by simp [installBlock, bwrite, running])
      (by simp only [installBlock, bwrite, bread_lh]; omega)
    refine ⟨_, last, (Trace.refl.step ⟨step, trivial⟩).append run, idle, quiet.append ?_⟩
    simp [Quiet, Event.isRecord, Event.isCommit]

/-- After a crash at any point, recovery can run to its end. -/
theorem CrashInv.exists_recovery :
    ∃ later s', Trace (AdmissibleStep area) (boot s.disk : State Pid) later s' ∧
      s'.phase = .idle ∧ Quiet later := by
  obtain ⟨listed, recoverable⟩ := inv.recoverable
  have read : Step area (boot s.disk : State Pid) .internal
      { ((boot s.disk).bread area.start).2 with lh := listed, phase := .install true 0 } :=
    ⟨.readHead, by simp [State.step, act, boot, bread, recoverable.head]⟩
  obtain ⟨later, last, run, idle, quiet⟩ := exists_install area
    { ((boot s.disk : State Pid).bread area.start).2 with lh := listed, phase := .install true 0 }
    rfl (by simp [boot])
  refine ⟨_, last, (Trace.refl.step ⟨read, trivial⟩).append run, idle, quiet.append ?_⟩
  simp [Quiet, Event.isRecord, Event.isCommit]

end

/-! ## Atomicity -/

/-- What a crash can do at this point of a run. -/
structure CrashAtomic (area : Area) (disk : Nat → Block) (s : State Pid)
    (events : List (Event Pid)) : Prop where
  /-- Whenever no commit or recovery is under way the home blocks hold the committed
  transactions, whatever crashes came before. -/
  contents : s.phase = .idle → ∀ b, area.Home b →
    s.disk b = Redo.replay disk (transactions events) b
  /-- There is one transaction for each header write that committed. -/
  counted : (transactions events).length = events.countP Event.isCommit
  /-- Such a header write leaves a non-empty header on the disk. -/
  nonempty : ∀ s', Step area s .committed s' →
    ∃ listed, Log.readHead (s'.disk area.start) = some listed ∧ listed ≠ []
  /-- No home block is written before the header on the disk names it. -/
  headerFirst : ∀ event s', Step area s event s' → ∀ b, area.Home b → s'.disk b ≠ s.disk b →
    ∃ listed, Log.readHead (s.disk area.start) = some listed ∧ b ∈ listed
  /-- After a crash now, recovery can complete. -/
  completes : ∃ later s', Trace (AdmissibleStep area) (boot s.disk : State Pid) later s' ∧
    s'.phase = .idle ∧ Quiet later
  /-- After a crash now and any number of crashes during the recoveries that follow, the
  recovery that completes leaves the transactions committed so far. -/
  repeatable : ∀ later s', Trace (AdmissibleStep area) (boot s.disk : State Pid) later s' →
    (∀ event ∈ later, event.isRecord = false) → s'.phase = .idle → ∀ b, area.Home b →
    s'.disk b = Redo.replay disk (transactions events) b

/-- The log makes groups of block writes atomic with respect to crashes. -/
theorem crashAtomic_of_run (fresh : Log.readHead (disk area.start) = some [])
    (run : Trace (AdmissibleStep area) (boot disk : State Pid) events s) :
    CrashAtomic area disk s events := by
  have inv := crashInv_of_run fresh run
  constructor
  · intro idle b home
    exact inv.stable_of_idle idle home
  · exact length_transactions events
  · intro s' step
    exact inv.nonempty_of_commit (step_move step).1
  · intro event s' step b home changed
    exact inv.listed_of_changed (step_move step).1 home changed
  · exact inv.exists_recovery
  · intro later s' onward quiet idle b home
    have crash : AdmissibleStep area s .crashed (boot s.disk) := by
      refine ⟨⟨.crash, ?_⟩, trivial⟩
      cases panicked : s.panicked <;> simp [State.step, panicked, act]
    have after := crashInv_of_run fresh ((run.step crash).append onward)
    rw [after.stable_of_idle idle home]
    exact (stable_of_no_record (congrFun (working_crashed disk events) b) quiet).1

/-- One transaction on block 100 is committed, the machine crashes before it is
installed, and recovery completes. -/
def crashAfterCommit : List (Action (Fin 1)) :=
  [.readHead, .write, .beginOp 0, .enter 0, .logWrite 0 100 fun _ => 7, .record 0, .endOp 0,
    .write, .write, .crash, .readHead, .write, .write]

/-- The transaction survives the crash. -/
theorem crashAtomic_of_crashAfterCommit : ∃ (events : List (Event (Fin 1))) (s : State (Fin 1)),
    CrashAtomic mkfsArea (fun _ _ => 0) s events ∧ events.countP Event.isCommit = 1 ∧
      .crashed ∈ events ∧ s.disk 100 = fun _ => 7 := by
  obtain ⟨events, s, run, once, crashed, installed⟩ :
      ∃ (events : List (Event (Fin 1))) (s : State (Fin 1)),
        Trace (AdmissibleStep mkfsArea) (boot fun _ _ => 0) events s ∧
          events.countP Event.isCommit = 1 ∧ .crashed ∈ events ∧ s.disk 100 = fun _ => 7 := by
    apply Trace.exists_of_execute
      (fun s action => (s.step mkfsArea action).filter fun taken => s.Admissible mkfsArea taken.1)
      crashAfterCommit
    · intro s action event s' taken
      obtain ⟨taken, admissible⟩ := Option.filter_eq_some_iff.mp taken
      exact ⟨⟨action, taken⟩, of_decide_eq_true admissible⟩
    · decide +kernel
  exact ⟨events, s, crashAtomic_of_run (by decide +kernel) run, once, crashed, installed⟩

end State

end Xv6.Log
