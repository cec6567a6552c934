import Xv6.Buffer.Cache
import Xv6.Lib.Chain
import Xv6.Sync.Client

/-!
# The disk drivers

`idestart`, `ideintr` and `iderw` of `ide.c` as a program of kernel threads, and the
synchronous `iderw` of `memide.c`.

The disk serves the command that has been started and then raises one interrupt, at
any time and without errors.  Any processor may take an interrupt; the handler is a
thread like the others, and which process it interrupts does not matter.  A process
calls `iderw` with a buffer on which it holds `B_BUSY` and which it has filled in as it
likes, and no two processes hold the same buffer.

The state also records what the code does not: which calls use which buffer, the
requests in the order in which they came and in which they were served, and which
process has taken an interrupt.
-/

namespace Xv6.Ide

open Sync Linked Function
open Buffer (Buf Index nbuf drive)

/-- `FSSIZE` -/
def fssize : UInt32 := 1000

/-- A buffer and its contents when it was handed to the driver. -/
abbrev Request := Index × Buf

/-- The contents of a disk, by sector. -/
abbrev Disk := UInt32 → Block

/-- `(b->flags & (B_VALID|B_DIRTY)) == B_VALID` -/
def Complete (b : Buf) : Prop :=
  b.valid = true ∧ b.dirty = false

instance (b : Buf) : Decidable (Complete b) :=
  inferInstanceAs (Decidable (_ ∧ _))

/-! ## The synchronous driver -/

/-- Panics of `memide.c`. -/
inductive MemPanic
  /-- `"iderw: buf not busy"` -/
  | notBusy
  /-- `"iderw: nothing to do"` -/
  | nothingToDo
  /-- `"iderw: request not for disk 1"` -/
  | notDisk1
  /-- `"iderw: block out of range"` -/
  | outOfRange
  deriving DecidableEq

/-- `iderw` of `memide.c`: the contents of the disk and the buffer afterwards. -/
def memIderw (disksize : UInt32) (disk : Disk) (b : Buf) : Except MemPanic (Disk × Buf) :=
  if b.busy = false then
    .error .notBusy
  else if Complete b then
    .error .nothingToDo
  else if b.dev ≠ 1 then
    .error .notDisk1
  else if disksize ≤ b.blockno then
    .error .outOfRange
  else if b.dirty = true then
    .ok (update disk b.blockno b.data, { b with dirty := false, valid := true })
  else
    .ok (disk, { b with data := disk b.blockno, valid := true })

/-- The calls executed one at a time: the disk and the answers in the end. -/
def serial (disksize : UInt32) (disk : Disk) : List Request → Except MemPanic (Disk × List Request)
  | [] => .ok (disk, [])
  | (i, b) :: rest => do
      let (disk, b') ← memIderw disksize disk b
      let (disk, answers) ← serial disksize disk rest
      return (disk, (i, b') :: answers)

/-! ## The disk -/

/-- The sector that the registers `0x1f3` to `0x1f6` select. -/
def lba (sector : UInt32) : UInt32 :=
  (sector &&& (0xff : UInt32)) ||| (((sector >>> 8) &&& (0xff : UInt32)) <<< 8) |||
    (((sector >>> 16) &&& (0xff : UInt32)) <<< 16) |||
    (((sector >>> 24) &&& (0x0f : UInt32)) <<< 24)

/-- A command in the registers of the disk, with the data to write. -/
structure Command where
  drive : UInt32
  sector : UInt32
  write : Option Block

/-- The command that `idestart` gives for a buffer. -/
def command (b : Buf) : Command where
  drive := drive b.dev
  sector := lba b.blockno
  write := if b.dirty = true then some b.data else none

/-- The disk is ready, with the data that `insl` will read, or it executes a command. -/
inductive Controller
  | ready (latch : Block)
  | busy (command : Command)

/-- The interrupt line, and who has taken the last interrupt and not yet looked at the
queue. -/
inductive Line (Thread : Type)
  | low
  | raised
  | taken (t : Thread)

/-- What a call has done with a buffer so far. -/
inductive Stage (Thread : Type)
  /-- No call uses the buffer. -/
  | unused
  | called (t : Thread)
  | queued (t : Thread)
  | done (t : Thread)

/-- The driver, the buffers and the disk. -/
structure State (Thread : Type) where
  buf : Index → Buf
  qnext : Index → Option Index
  idequeue : Option Index
  havedisk1 : Bool
  controller : Controller
  /-- The contents of the two drives. -/
  drives : UInt32 → Disk
  line : Line Thread
  stage : Index → Stage Thread
  /-- The request whose command was started last. -/
  current : Option Request
  arrived : List Request
  served : List Request

namespace State

variable {Thread : Type} (d : State Thread)

def setBuf (b : Index) (x : Buf) : State Thread :=
  { d with buf := update d.buf b x }

def setStage (b : Index) (stage : Stage Thread) : State Thread :=
  { d with stage := update d.stage b stage }

/-- The request that a buffer stands for. -/
def request (b : Index) : Request :=
  (b, d.buf b)

/-- The loop of `iderw` that appends `b` to `idequeue`.  It does not end if the queue
has no end. -/
def append (b : Index) : Option (State Thread) :=
  let qnext := update d.qnext b none
  match d.idequeue with
  | none => some { d with qnext, idequeue := some b }
  | some head =>
    (lastNode qnext nbuf head).map fun last =>
      { d with qnext := update qnext last (some b) }

/-- The disk executes its command: it stores the data or reads a sector, and raises the
interrupt. -/
def serve (command : Command) (latch : Block) : State Thread :=
  let served := d.served ++ d.current.toList
  match command.write with
  | some data =>
    { d with
      controller := .ready latch
      drives := update d.drives command.drive
        (update (d.drives command.drive) command.sector data)
      line := .raised
      served }
  | none =>
    { d with
      controller := .ready (d.drives command.drive command.sector)
      line := .raised
      served }

end State

/-! ## The interrupt driven driver -/

/-- The points of the program, in `iderw` and in `ideintr`. -/
inductive Point
  | idle
  | enter (b : Index)
  | lock (b : Index)
  | append (b : Index)
  | startTest (b : Index)
  | start (b : Index)
  | test (b : Index)
  | sleep (b : Index)
  | unlock (b : Index)
  | returned (b : Index)
  | intrLock
  | intrHead
  | intrRead (b : Index)
  | intrFlags (b : Index)
  | intrWake (b : Index)
  | intrNext
  | intrStart (b : Index)
  | intrUnlock
  /-- `panic`, with `idelock` or without. -/
  | panic (locked : Bool)

variable {Thread : Type}

abbrev idelock : Option Unit := some ()

/-- `idestart`, and where to go on from.  `idewait` spins until the disk is ready. -/
def State.idestart (d : State Thread) (b : Index) (next : Point) : Option (State Thread × Point) :=
  if fssize ≤ (d.buf b).blockno then
    some (d, .panic true)
  else
    match d.controller with
    | .busy _ => none
    | .ready _ =>
      some ({ d with
        controller := .busy (command (d.buf b))
        current := some (d.request b) }, next)

/-- The computations of the process `t` between the other instructions; nothing while the
code spins. -/
def compute (t : Thread) (d : State Thread) : Point → Option (State Thread × Point)
  | .enter b =>
    if (d.buf b).busy = false ∨ Complete (d.buf b) ∨
        ((d.buf b).dev ≠ 0 ∧ d.havedisk1 = false) then
      some (d, .panic false)
    else
      some (d, .lock b)
  | .append b =>
    (d.append b).map fun d' =>
      ({ d' with arrived := d'.arrived ++ [d'.request b] }.setStage b (.queued t), .startTest b)
  | .startTest b => some (d, if d.idequeue = some b then .start b else .test b)
  | .start b => d.idestart b (.test b)
  | .test b => some (d, if Complete (d.buf b) then .unlock b else .sleep b)
  | .returned b => some (d.setStage b .unused, .idle)
  | .intrHead =>
    match d.idequeue with
    | none => some ({ d with line := .low }, .intrUnlock)
    | some b => some ({ d with line := .low, idequeue := d.qnext b }, .intrRead b)
  | .intrRead b =>
    if (d.buf b).dirty = true then
      some (d, .intrFlags b)
    else
      match d.controller with
      | .busy _ => none
      | .ready latch => some (d.setBuf b { d.buf b with data := latch }, .intrFlags b)
  | .intrFlags b =>
    let stage := match d.stage b with
      | .queued t' => .done t'
      | stage => stage
    some ((d.setBuf b { d.buf b with valid := true, dirty := false }).setStage b stage,
      .intrWake b)
  | .intrNext => some (d, (d.idequeue.map .intrStart).getD .intrUnlock)
  | .intrStart b => d.idestart b .intrUnlock
  | _ => none

/-- What a process does of its own accord: it calls `iderw` with a buffer that it holds and
has filled in, or it takes an interrupt. -/
inductive Enters (t : Thread) (d : State Thread) : State Thread → Point → Prop
  | call {b : Index} {x : Buf} : d.stage b = .unused → x.busy = true →
      Enters t d ((d.setBuf b x).setStage b (.called t)) (.enter b)
  | interrupt : d.line = .raised → Enters t d { d with line := .taken t } .intrLock

/-- The two calls of `idestart`, and the points after them. -/
inductive Starts : Index → Point → Point → Prop
  | first (b : Index) : Starts b (.start b) (.test b)
  | next (b : Index) : Starts b (.intrStart b) .intrUnlock

/-- What the computations do. -/
inductive Move (t : Thread) (d : State Thread) : Point → State Thread → Point → Prop
  | enters {d' next} : Enters t d d' next → Move t d .idle d' next
  | enterPanic {b} : Move t d (.enter b) d (.panic false)
  | enter {b} : (d.buf b).busy = true → ¬ Complete (d.buf b) → Move t d (.enter b) d (.lock b)
  | append {b d'} : d.append b = some d' →
      Move t d (.append b)
        ({ d' with arrived := d'.arrived ++ [d'.request b] }.setStage b (.queued t)) (.startTest b)
  | first {b} : d.idequeue = some b → Move t d (.startTest b) d (.start b)
  | notFirst {b} : d.idequeue ≠ some b → Move t d (.startTest b) d (.test b)
  | startPanic {b next point} : Starts b point next → Move t d point d (.panic true)
  | start {b latch next point} : Starts b point next → (d.buf b).blockno < fssize →
      d.controller = .ready latch →
      Move t d point
        { d with controller := .busy (command (d.buf b)), current := some (d.request b) } next
  | complete {b} : Complete (d.buf b) → Move t d (.test b) d (.unlock b)
  | wait {b} : ¬ Complete (d.buf b) → Move t d (.test b) d (.sleep b)
  | leave {b} : Move t d (.returned b) (d.setStage b .unused) .idle
  | spurious : d.idequeue = none → Move t d .intrHead { d with line := .low } .intrUnlock
  | head {b} : d.idequeue = some b →
      Move t d .intrHead { d with line := .low, idequeue := d.qnext b } (.intrRead b)
  | written {b} : (d.buf b).dirty = true → Move t d (.intrRead b) d (.intrFlags b)
  | insl {b latch} : (d.buf b).dirty = false → d.controller = .ready latch →
      Move t d (.intrRead b) (d.setBuf b { d.buf b with data := latch }) (.intrFlags b)
  | flags {b stage} : (∀ t', d.stage b = .queued t' → stage = .done t') →
      Move t d (.intrFlags b)
        ((d.setBuf b { d.buf b with valid := true, dirty := false }).setStage b stage)
        (.intrWake b)
  | next {b} : d.idequeue = some b → Move t d .intrNext d (.intrStart b)
  | last : d.idequeue = none → Move t d .intrNext d .intrUnlock

/-- What the process `t` does at each point. -/
def op (t : Thread) : Point → Op Index (State Thread) Point
  | .idle => .choose fun d => {x | Enters t d x.1 x.2}
  | .lock b => .acquire (.append b)
  | .sleep b => .sleep b (.test b)
  | .unlock b => .release (.returned b)
  | .intrLock => .acquire .intrHead
  | .intrWake b => .wakeup b .intrNext
  | .intrUnlock => .release .idle
  | point => .compute fun d => compute t d point

/-- The points without `idelock`. -/
def Point.outside : Point → Bool
  | .idle | .enter _ | .lock _ | .returned _ | .intrLock | .panic false => true
  | _ => false

/-- The points of `ideintr` before it looks at the queue. -/
def Point.handling : Point → Bool
  | .intrLock | .intrHead => true
  | _ => false

variable {point : Point} {t : Thread}

theorem State.idestart_cases {d d' : State Thread} {b : Index} {next next' : Point}
    (started : d.idestart b next = some (d', next')) (starts : Starts b point next) :
    Move t d point d' next' := by
  unfold idestart at started
  split at started
  · cases started
    exact .startPanic starts
  · rename_i inRange
    split at started
    · cases started
    · rename_i latch ready
      cases started
      exact .start starts (UInt32.not_le.mp inRange) ready

theorem move_of_compute {d d' : State Thread} {next : Point}
    (computed : compute t d point = some (d', next)) : Move t d point d' next := by
  cases point <;> simp only [compute, reduceCtorEq] at computed
  case enter b =>
    split at computed <;> cases computed
    · exact .enterPanic
    · rename_i accepted
      push Not at accepted
      exact .enter (by simpa using accepted.1) accepted.2.1
  case append b =>
    rw [Option.map_eq_some_iff] at computed
    obtain ⟨d₁, appended, same⟩ := computed
    cases same
    exact .append appended
  case startTest b =>
    cases computed
    split
    · exact .first ‹_›
    · exact .notFirst ‹_›
  case start b => exact State.idestart_cases computed (.first b)
  case intrStart b => exact State.idestart_cases computed (.next b)
  case test b =>
    cases computed
    split
    · exact .complete ‹_›
    · exact .wait ‹_›
  case returned b =>
    cases computed
    exact .leave
  case intrHead =>
    split at computed <;> cases computed
    · exact .spurious ‹_›
    · exact .head ‹_›
  case intrRead b =>
    split at computed
    · cases computed
      exact .written ‹_›
    · rename_i clean
      split at computed
      · cases computed
      · cases computed
        exact .insl (by simpa using clean) ‹_›
  case intrFlags b =>
    cases computed
    refine .flags fun t' queued => ?_
    rw [queued]
  case intrNext =>
    cases computed
    cases head : d.idequeue with
    | none => exact .last head
    | some b => exact .next head

theorem move_of_outcome {d d' : State Thread} {next : Point}
    (outcome : (d', next) ∈ (op t point).outcomes d) : Move t d point d' next := by
  cases point with
  | idle => exact .enters outcome
  | lock | sleep | unlock | intrLock | intrWake | intrUnlock => cases outcome
  | _ => exact move_of_compute outcome

theorem Move.outside_eq {d d' : State Thread} {next : Point} (move : Move t d point d' next) :
    next.outside = point.outside := by
  cases move with
  | enters enters => cases enters <;> rfl
  | startPanic starts | start starts => cases starts <;> rfl
  | _ => rfl

/-- The code of the processes that use the driver. -/
def client (Thread : Type) : Client Thread Index (State Thread) Point where
  op := op
  outside := Point.outside
  fits t point := by
    have computes d d' next (outcome : (d', next) ∈ (op t point).outcomes d) :=
      (move_of_outcome outcome).outside_eq
    cases point with
    | lock | sleep | unlock | intrLock | intrUnlock => exact ⟨rfl, rfl⟩
    | intrWake => rfl
    | _ => exact computes

/-! ## The machine -/

variable {Cpu : Type} {n : Nat}

/-- Processors with `n` processes that use the disk. -/
abbrev Kernel (Cpu : Type) (n : Nat) :=
  System Cpu (Fin n) Unit Index (State (Fin n)) (At (Fin n) Point)

/-- After `ideinit`: the queue is empty and the disk is ready. -/
def State.fresh (buf : Index → Buf) (havedisk1 : Bool) (latch : Block) (drives : UInt32 → Disk) :
    State Thread where
  buf := buf
  qnext _ := none
  idequeue := none
  havedisk1 := havedisk1
  controller := .ready latch
  drives := drives
  line := .low
  stage _ := .unused
  current := none
  arrived := []
  served := []

/-- No process has called the driver yet. -/
def start (buf : Index → Buf) (havedisk1 : Bool) (latch : Block) (drives : UInt32 → Disk) :
    Kernel Cpu n :=
  System.boot (State.fresh buf havedisk1 latch drives) fun t => ⟨t, .idle⟩

variable [DecidableEq Cpu]

/-- A step of a processor, or the disk finishes its command. -/
inductive Step : Kernel Cpu n → Kernel Cpu n → Prop
  | code {s s'} : Sync.Step (client (Fin n)).program (List.finRange n) s s' → Step s s'
  | disk {s command} (latch : Block) : s.data.controller = .busy command →
      Step s { s with data := s.data.serve command latch }

variable {s : Kernel Cpu n} {c : Cpu} {p : Fin n} {x : State (Fin n)} {next : Point}

theorem Step.entered (here : s.cur c = some p) (control : s.ctl p = .run ⟨p, .idle⟩)
    (enters : Enters p s.data x next) : Step s ({ s with data := x }.setCtl p (.run ⟨p, next⟩)) :=
  .code (Client.step_of_choose here control rfl enters)

end Xv6.Ide
