import Xv6.Disk.Block
import Xv6.Lib.Trace

/-!
# The log and the buffer cache

Any number of processes bracket their work by `begin_op` and `end_op` and record
the blocks they modify by `log_write`; the last one out commits.  A stretch under
`log.lock` is one step, and so is each disk write of `commit` and of
`recover_from_log`.  `log_write` makes its checks before it takes the lock, so
it is two steps.  A crash may fall between any two steps: the disk stays, the
memory is lost, and recovery starts.

The buffer cache holds copies of blocks.  A buffer that `log_write` has marked
dirty stays until it is written; a clean one may be recycled at any time.  A
buffer is busy from `bread` to `brelse`, so what a process writes into it is seen
by others only after its `log_write`, and the two are one step here.

`panic` stops the machine until the next crash.  A write past the end of
`log.lh.block` has no defined result and is no step.
-/

namespace Xv6.Log

open Labelled Function

/-- `MAXOPBLOCKS`: what one operation may write. -/
def maxOpBlocks : Nat := 10

/-- `LOGSIZE`: the capacity of the log header. -/
def logSize : Nat := maxOpBlocks * 3

/-- `log.start` and `log.size`, as the superblock gives them.  The area holds at
least the header. -/
structure Area where
  start : Nat
  size : Nat
  nonempty : 0 < size

/-- The log area on a disk made by `mkfs`. -/
def mkfsArea : Area where
  start := 2
  size := logSize
  nonempty := by decide

/-- A valid buffer: its data, and whether it is dirty. -/
structure Buf where
  data : Block
  dirty : Bool

/-- Where a process is with respect to the log. -/
inductive Status
  | outside
  /-- In the loop of `begin_op`. -/
  | entering
  /-- Asleep on the log in `begin_op`. -/
  | sleeping
  /-- Between `begin_op` and `end_op`. -/
  | inside
  /-- In `log_write`, after its checks and before it takes the lock. -/
  | checked (blockno : Nat) (data : Block)
  /-- In `end_op`, to commit. -/
  | committer
  deriving DecidableEq

/-- The next disk write of `commit` or `recover_from_log`, if one is running. -/
inductive Phase
  | idle
  /-- `write_log` at `tail`; after its last block the header. -/
  | writeLog (tail : Nat)
  /-- `install_trans` at `tail`; after its last block the empty header. -/
  | install (recovering : Bool) (tail : Nat)
  /-- After a crash: `read_head`. -/
  | readHead
  deriving DecidableEq

/-- The machine is still in `recover_from_log`. -/
def Phase.recovering : Phase → Bool
  | .install recovering _ => recovering
  | .readHead => true
  | _ => false

/-- What a run shows of a step. -/
inductive Event (Pid : Type)
  | internal
  | began (p : Pid)
  | called (p : Pid) (blockno : Nat) (panics : Bool)
  /-- `log_write` has put the block into its slot of the header. -/
  | recorded (p : Pid) (blockno : Nat) (data : Block) (slot : Nat)
  | ended (p : Pid)
  /-- A write of a log block or of a home block. -/
  | wrote (blockno : Nat)
  /-- The write of a non-empty header. -/
  | committed
  /-- The write of an empty header. -/
  | erased
  | crashed
  deriving DecidableEq

inductive Action (Pid : Type)
  | beginOp (p : Pid)
  | enter (p : Pid)
  | logWrite (p : Pid) (blockno : Nat) (data : Block)
  | record (p : Pid)
  | endOp (p : Pid)
  | write
  | finish (p : Pid)
  | load (blockno : Nat)
  | recycle (blockno : Nat)
  | crash
  | readHead

/-- The disk, the valid buffers, `log` (with `lh.block[0..lh.n-1]` as a list), and
the place of each process and of the commit. -/
structure State (Pid : Type) where
  disk : Nat → Block
  cache : Nat → Option Buf
  lh : List Nat
  outstanding : Nat
  committing : Bool
  status : Pid → Status
  phase : Phase
  panicked : Bool

/-! ## The log header in its block -/

/-- `hb->n`, as a count of loop iterations. -/
def headCount (block : Block) : Nat :=
  if block.word 0 < 2 ^ 31 then block.word 0 else 0

/-- `read_head`.  A count beyond the capacity of `log.lh` is out of range. -/
def readHead (block : Block) : Option (List Nat) :=
  if headCount block ≤ logSize then
    some ((List.range (headCount block)).map fun i => block.word (i + 1))
  else none

/-- The assignments of `write_head` to the header buffer. -/
def writeHead (block : Block) (lh : List Nat) : Block :=
  (List.range lh.length).foldl (fun block i => block.setWord (i + 1) (lh.getD i 0))
    (block.setWord 0 lh.length)

namespace State

variable {Pid : Type}

/-! ## The buffer cache -/

/-- The contents of a block as the kernel sees them. -/
def view (s : State Pid) (blockno : Nat) : Block :=
  match s.cache blockno with
  | some buf => buf.data
  | none => s.disk blockno

/-- `bread`: fetch the block into the cache unless it is there. -/
def bread (s : State Pid) (blockno : Nat) : Block × State Pid :=
  match s.cache blockno with
  | some buf => (buf.data, s)
  | none =>
    (s.disk blockno,
      { s with cache := update s.cache blockno (some ⟨s.disk blockno, false⟩) })

/-- Set the data of a buffer and `bwrite` it, which leaves it clean. -/
def bwrite (s : State Pid) (blockno : Nat) (data : Block) : State Pid :=
  { s with
    disk := update s.disk blockno data
    cache := update s.cache blockno (some ⟨data, false⟩) }

/-- One turn of the loop of `write_log`. -/
def writeLogBlock (area : Area) (s : State Pid) (tail blockno : Nat) : State Pid :=
  let (_, s) := s.bread (area.start + tail + 1)
  let (data, s) := s.bread blockno
  s.bwrite (area.start + tail + 1) data

/-- `write_head`. -/
def writeHeadBlock (area : Area) (s : State Pid) : State Pid :=
  let (head, s) := s.bread area.start
  s.bwrite area.start (writeHead head s.lh)

/-- One turn of the loop of `install_trans`. -/
def installBlock (area : Area) (s : State Pid) (tail blockno : Nat) : State Pid :=
  let (data, s) := s.bread (area.start + tail + 1)
  let (_, s) := s.bread blockno
  s.bwrite blockno data

/-- `wakeup(&log)`. -/
def wakeup (s : State Pid) : State Pid :=
  { s with
    status := fun p => if s.status p = .sleeping then .entering else s.status p }

/-- The machine at power-on: nothing in memory, and recovery comes first. -/
def boot (disk : Nat → Block) : State Pid where
  disk := disk
  cache _ := none
  lh := []
  outstanding := 0
  committing := false
  status _ := .outside
  phase := .readHead
  panicked := false

variable [DecidableEq Pid]

def setStatus (s : State Pid) (p : Pid) (status : Status) : State Pid :=
  { s with status := update s.status p status }

/-- The steps of a machine that has not panicked. -/
def act (area : Area) (s : State Pid) : Action Pid → Option (Event Pid × State Pid)
  | .beginOp p => do
      guard (s.status p = .outside ∧ s.phase.recovering = false)
      some (.internal, s.setStatus p .entering)
  -- one turn of the loop of `begin_op`
  | .enter p => do
      guard (s.status p = .entering)
      if s.committing then some (.internal, s.setStatus p .sleeping)
      else if s.lh.length + (s.outstanding + 1) * maxOpBlocks > logSize then
        some (.internal, s.setStatus p .sleeping)
      else some (.began p, { s with outstanding := s.outstanding + 1 }.setStatus p .inside)
  -- `log_write` up to the lock
  | .logWrite p blockno data => do
      guard (s.status p = .inside)
      if s.lh.length ≥ logSize ∨ s.lh.length ≥ area.size - 1 ∨ s.outstanding < 1 then
        some (.called p blockno true, { s with panicked := true })
      else some (.called p blockno false, s.setStatus p (.checked blockno data))
  -- `log_write` under the lock
  | .record p =>
    match s.status p with
    | .checked blockno data => do
        let i := s.lh.idxOf blockno
        guard (i < logSize)
        some (.recorded p blockno data i,
          { s with
            lh := if blockno ∈ s.lh then s.lh else s.lh ++ [blockno]
            cache := update s.cache blockno (some ⟨data, true⟩) }.setStatus p .inside)
    | _ => none
  | .endOp p => do
      guard (s.status p = .inside)
      let s := { s with outstanding := s.outstanding - 1 }
      if s.committing then some (.internal, { s with panicked := true })
      else if s.outstanding = 0 then
        some (.ended p,
          { s with
            committing := true
            phase := if s.lh = [] then .idle else .writeLog 0 }.setStatus p .committer)
      else some (.ended p, (s.setStatus p .outside).wakeup)
  -- the next disk write of `commit` or `recover_from_log`
  | .write =>
    match s.phase with
    | .writeLog tail =>
      match s.lh[tail]? with
      | some blockno =>
        some (.wrote (area.start + tail + 1),
          { s.writeLogBlock area tail blockno with phase := .writeLog (tail + 1) })
      | none => some (.committed, { s.writeHeadBlock area with phase := .install false 0 })
    | .install recovering tail =>
      match s.lh[tail]? with
      | some blockno =>
        some (.wrote blockno,
          { s.installBlock area tail blockno with phase := .install recovering (tail + 1) })
      | none => some (.erased, { { s with lh := [] }.writeHeadBlock area with phase := .idle })
    | _ => none
  -- the end of `end_op`, after `commit`
  | .finish p => do
      guard (s.status p = .committer ∧ s.phase = .idle)
      some (.internal, ({ s with committing := false }.setStatus p .outside).wakeup)
  | .load blockno => some (.internal, (s.bread blockno).2)
  | .recycle blockno =>
    match s.cache blockno with
    | some ⟨_, false⟩ =>
      some (.internal, { s with cache := update s.cache blockno none })
    | _ => none
  | .crash =>
    some (.crashed, boot s.disk)
  | .readHead =>
    match s.phase with
    | .readHead => do
        let (head, s) := s.bread area.start
        let lh ← readHead head
        some (.internal, { s with lh := lh, phase := .install true 0 })
    | _ => none

/-- The transition function: after a panic only a crash is possible. -/
def step (area : Area) (s : State Pid) (action : Action Pid) : Option (Event Pid × State Pid) :=
  match s.panicked, action with
  | false, action => s.act area action
  | true, .crash => s.act area .crash
  | true, _ => none

/-- The step relation, labelled by what the step shows. -/
def Step (area : Area) (s : State Pid) (event : Event Pid) (s' : State Pid) : Prop :=
  ∃ action, s.step area action = some (event, s')

/-! ## What a step can do -/

/-- The possible steps, one constructor for each way through the code. -/
inductive Move (area : Area) (s : State Pid) : Event Pid → State Pid → Prop
  | beginOp (p : Pid) : s.status p = .outside → s.phase.recovering = false →
      Move area s .internal (s.setStatus p .entering)
  | sleep (p : Pid) : s.status p = .entering → Move area s .internal (s.setStatus p .sleeping)
  | enter (p : Pid) : s.status p = .entering → s.committing = false →
      s.lh.length + (s.outstanding + 1) * maxOpBlocks ≤ logSize →
      Move area s (.began p) ({ s with outstanding := s.outstanding + 1 }.setStatus p .inside)
  | tooBig (p : Pid) (blockno : Nat) : s.status p = .inside →
      s.lh.length ≥ logSize ∨ s.lh.length ≥ area.size - 1 ∨ s.outstanding < 1 →
      Move area s (.called p blockno true) { s with panicked := true }
  | logWrite (p : Pid) (blockno : Nat) (data : Block) : s.status p = .inside →
      s.lh.length < logSize → s.lh.length < area.size - 1 →
      Move area s (.called p blockno false) (s.setStatus p (.checked blockno data))
  | record (p : Pid) (blockno : Nat) (data : Block) : s.status p = .checked blockno data →
      s.lh.idxOf blockno < logSize →
      Move area s (.recorded p blockno data (s.lh.idxOf blockno))
        ({ s with
            lh := if blockno ∈ s.lh then s.lh else s.lh ++ [blockno]
            cache := update s.cache blockno (some ⟨data, true⟩) }.setStatus p .inside)
  | endPanic (p : Pid) : s.status p = .inside → s.committing = true →
      Move area s .internal { s with outstanding := s.outstanding - 1, panicked := true }
  | endCommit (p : Pid) : s.status p = .inside → s.committing = false → s.outstanding - 1 = 0 →
      Move area s (.ended p)
        ({ s with
            outstanding := s.outstanding - 1
            committing := true
            phase := if s.lh = [] then .idle else .writeLog 0 }.setStatus p .committer)
  | endOp (p : Pid) : s.status p = .inside → s.committing = false → s.outstanding - 1 ≠ 0 →
      Move area s (.ended p)
        ({ s with outstanding := s.outstanding - 1 }.setStatus p .outside).wakeup
  | writeLog (tail blockno : Nat) : s.phase = .writeLog tail → s.lh[tail]? = some blockno →
      Move area s (.wrote (area.start + tail + 1))
        { s.writeLogBlock area tail blockno with phase := .writeLog (tail + 1) }
  | commit (tail : Nat) : s.phase = .writeLog tail → s.lh[tail]? = none →
      Move area s .committed { s.writeHeadBlock area with phase := .install false 0 }
  | install (recovering : Bool) (tail blockno : Nat) : s.phase = .install recovering tail →
      s.lh[tail]? = some blockno →
      Move area s (.wrote blockno)
        { s.installBlock area tail blockno with phase := .install recovering (tail + 1) }
  | erase (recovering : Bool) (tail : Nat) : s.phase = .install recovering tail →
      s.lh[tail]? = none →
      Move area s .erased { { s with lh := [] }.writeHeadBlock area with phase := .idle }
  | finish (p : Pid) : s.status p = .committer → s.phase = .idle →
      Move area s .internal ({ s with committing := false }.setStatus p .outside).wakeup
  | load (blockno : Nat) : Move area s .internal (s.bread blockno).2
  | recycle (blockno : Nat) (data : Block) : s.cache blockno = some ⟨data, false⟩ →
      Move area s .internal { s with cache := update s.cache blockno none }
  | crash : Move area s .crashed (boot s.disk)
  | readHead (lh : List Nat) : s.phase = .readHead →
      Log.readHead (s.bread area.start).1 = some lh →
      Move area s .internal { (s.bread area.start).2 with lh := lh, phase := .install true 0 }

theorem act_move {area : Area} {s s' : State Pid} {event : Event Pid} {action : Action Pid}
    (taken : s.act area action = some (event, s')) : Move area s event s' := by
  cases action with
  | beginOp p =>
    simp [act, Option.bind_eq_some_iff] at taken
    obtain ⟨⟨outside, booted⟩, rfl, rfl⟩ := taken
    exact Move.beginOp p outside booted
  | enter p =>
    simp only [act, Option.bind_eq_bind, Option.bind_eq_some_iff, Option.guard_eq_some'] at taken
    obtain ⟨-, entering, taken⟩ := taken
    split at taken
    · cases taken
      exact Move.sleep p entering
    · split at taken
      · cases taken
        exact Move.sleep p entering
      · rename_i free room
        cases taken
        exact Move.enter p entering (by simpa using free) (by omega)
  | logWrite p blockno data =>
    simp only [act, Option.bind_eq_bind, Option.bind_eq_some_iff, Option.guard_eq_some'] at taken
    obtain ⟨-, inside, taken⟩ := taken
    split at taken
    · rename_i full
      cases taken
      exact Move.tooBig p blockno inside full
    · rename_i room
      cases taken
      exact Move.logWrite p blockno data inside (by omega) (by omega)
  | record p =>
    simp only [act] at taken
    split at taken
    · rename_i blockno data checked
      simp only [Option.bind_eq_bind, Option.bind_eq_some_iff, Option.guard_eq_some'] at taken
      obtain ⟨-, room, taken⟩ := taken
      cases taken
      exact Move.record p blockno data checked room
    · cases taken
  | endOp p =>
    simp only [act, Option.bind_eq_bind, Option.bind_eq_some_iff, Option.guard_eq_some'] at taken
    obtain ⟨-, inside, taken⟩ := taken
    split at taken
    · rename_i committing
      cases taken
      exact Move.endPanic p inside committing
    · rename_i free
      split at taken <;> rename_i last <;> cases taken
      · exact Move.endCommit p inside (by simpa using free) last
      · exact Move.endOp p inside (by simpa using free) last
  | write =>
    simp only [act] at taken
    split at taken
    · rename_i tail phase
      split at taken <;> rename_i entry <;> cases taken
      · exact Move.writeLog tail _ phase entry
      · exact Move.commit tail phase entry
    · rename_i recovering tail phase
      split at taken <;> rename_i entry <;> cases taken
      · exact Move.install recovering tail _ phase entry
      · exact Move.erase recovering tail phase entry
    · cases taken
  | finish p =>
    simp only [act, Option.bind_eq_bind, Option.bind_eq_some_iff, Option.guard_eq_some'] at taken
    obtain ⟨-, ⟨committer, idle⟩, taken⟩ := taken
    cases taken
    exact Move.finish p committer idle
  | load blockno =>
    cases taken
    exact Move.load blockno
  | recycle blockno =>
    simp only [act] at taken
    split at taken
    · rename_i data clean
      cases taken
      exact Move.recycle blockno data clean
    · cases taken
  | crash =>
    cases taken
    exact Move.crash
  | readHead =>
    simp only [act] at taken
    split at taken
    · rename_i phase
      simp only [Option.bind_eq_bind, Option.bind_eq_some_iff] at taken
      obtain ⟨lh, found, taken⟩ := taken
      cases taken
      exact Move.readHead lh phase found
    · cases taken

/-- Every step is one of the moves, and a machine that takes any other step than
a crash has not panicked. -/
theorem step_move {area : Area} {s s' : State Pid} {event : Event Pid}
    (step : Step area s event s') :
    Move area s event s' ∧ (s.panicked = true → s' = boot s.disk) := by
  obtain ⟨action, taken⟩ := step
  cases panicked : s.panicked with
  | false =>
    simp only [State.step, panicked] at taken
    exact ⟨act_move taken, by simp⟩
  | true =>
    cases action <;> simp only [State.step, panicked, reduceCtorEq] at taken
    exact ⟨act_move taken, fun _ => by cases taken; rfl⟩

end State

end Xv6.Log
