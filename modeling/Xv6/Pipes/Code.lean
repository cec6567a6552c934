import Xv6.Sync.Client

/-!
# Pipes

The code of `pipewrite`, `piperead` and `pipeclose` in `pipe.c`, as a program of
kernel threads that call them on one pipe, in any order and with any arguments.
Every process may be killed at any time.

The state also records what the code does not: the bytes taken from writers and
given to readers, and whether the process that holds the lock has stored or taken
bytes since the last `wakeup` of the other side.
-/

namespace Xv6.Pipes

open Sync Function

/-- `PIPESIZE` -/
def pipesize : Nat := 512

instance : NeZero pipesize := ⟨by decide⟩

/-- `struct pipe`. -/
structure Pipe where
  data : Fin pipesize → UInt8
  nread : UInt32
  nwrite : UInt32
  readopen : Bool
  writeopen : Bool

namespace Pipe

/-- `p->nwrite == p->nread + PIPESIZE` -/
def Full (p : Pipe) : Prop :=
  p.nwrite = p.nread + UInt32.ofNat pipesize

/-- `p->nread == p->nwrite` -/
def Empty (p : Pipe) : Prop :=
  p.nread = p.nwrite

instance (p : Pipe) : Decidable p.Full :=
  inferInstanceAs (Decidable (_ = _))

instance (p : Pipe) : Decidable p.Empty :=
  inferInstanceAs (Decidable (_ = _))

/-- `p->data[p->nwrite++ % PIPESIZE] = x` -/
def store (p : Pipe) (x : UInt8) : Pipe :=
  { p with
    data := update p.data (Fin.ofNat pipesize p.nwrite.toNat) x
    nwrite := p.nwrite + 1 }

/-- The value of `p->data[p->nread++ % PIPESIZE]`. -/
def front (p : Pipe) : UInt8 :=
  p.data (Fin.ofNat pipesize p.nread.toNat)

/-- The effect of `p->data[p->nread++ % PIPESIZE]`. -/
def advance (p : Pipe) : Pipe :=
  { p with nread := p.nread + 1 }

/-- The bytes still in `p->data`, oldest first. -/
def buffered (p : Pipe) : List UInt8 :=
  (List.range (p.nwrite - p.nread).toNat).map fun k =>
    p.data (Fin.ofNat pipesize (p.nread.toNat + k))

end Pipe

/-- The channels `&p->nread` and `&p->nwrite`. -/
inductive Chan
  | nread
  | nwrite
  deriving DecidableEq

/-- The pipe and the processes that use it. -/
structure State (Thread : Type) where
  pipe : Pipe
  killed : Thread → Bool
  /-- The page of the pipe has been given to `kfree`. -/
  freed : Bool
  /-- The bytes taken from writers. -/
  accepted : List UInt8
  /-- The bytes given to readers. -/
  handed : List UInt8
  /-- Bytes have been stored since the last `wakeup(&p->nread)`. -/
  stored : Bool
  /-- Bytes have been taken since the last `wakeup(&p->nwrite)`. -/
  taken : Bool

/-- What a call returns. -/
inductive Result
  | failed
  | wrote (n : Int)
  | read (bytes : List UInt8)
  | closed

/-- The points of the program.  In `pipewrite` the index `i` of the loop is kept, in
`piperead` the bytes copied to `addr` so far, of which there are `i`. -/
inductive Point
  | idle (last : Option Result)
  | writeEnter (addr : Nat → UInt8) (n : Int)
  | writeFor (addr : Nat → UInt8) (n : Int) (i : Nat)
  | writeWhile (addr : Nat → UInt8) (n : Int) (i : Nat)
  | writeCheck (addr : Nat → UInt8) (n : Int) (i : Nat)
  | writeWake (addr : Nat → UInt8) (n : Int) (i : Nat)
  | writeSleep (addr : Nat → UInt8) (n : Int) (i : Nat)
  | writeStore (addr : Nat → UInt8) (n : Int) (i : Nat)
  | writeFail
  | writeDone (n : Int)
  | writeRelease (n : Int)
  | readEnter (n : Int)
  | readWhile (n : Int)
  | readCheck (n : Int)
  | readSleep (n : Int)
  | readFail
  | readFor (n : Int) (addr : List UInt8)
  | readTest (n : Int) (addr : List UInt8)
  | readTake (n : Int) (addr : List UInt8)
  | readWake (addr : List UInt8)
  | readRelease (addr : List UInt8)
  | closeEnter (writable : Bool)
  | closeSet (writable : Bool)
  | closeWake (writable : Bool)
  | closeTest
  | closeRelease (last : Bool)
  | closeFree

/-- A call on the pipe. -/
inductive Call
  | pipewrite (addr : Nat → UInt8) (n : Int)
  | piperead (n : Int)
  | pipeclose (writable : Bool)

/-- Where the code of a call starts. -/
def Call.enter : Call → Point
  | .pipewrite addr n => .writeEnter addr n
  | .piperead n => .readEnter n
  | .pipeclose writable => .closeEnter writable

variable {Thread : Type}

/-- `p->lock` -/
abbrev plock : Option Unit := some ()

/-- The computations between the other instructions, for the process `t`. -/
def compute (t : Thread) (d : State Thread) : Point → State Thread × Point
  | .writeFor addr n i =>
    if (i : Int) < n then (d, .writeWhile addr n i) else ({ d with stored := false }, .writeDone n)
  | .writeWhile addr n i =>
    if d.pipe.Full then (d, .writeCheck addr n i) else (d, .writeStore addr n i)
  | .writeCheck addr n i =>
    if d.pipe.readopen = false ∨ d.killed t = true then (d, .writeFail)
    else ({ d with stored := false }, .writeWake addr n i)
  | .writeStore addr n i =>
    ({ d with
        pipe := d.pipe.store (addr i)
        accepted := d.accepted ++ [addr i]
        stored := true }, .writeFor addr n (i + 1))
  | .readWhile n =>
    if d.pipe.Empty ∧ d.pipe.writeopen = true then (d, .readCheck n) else (d, .readFor n [])
  | .readCheck n => if d.killed t = true then (d, .readFail) else (d, .readSleep n)
  | .readFor n addr =>
    if (addr.length : Int) < n then (d, .readTest n addr)
    else ({ d with taken := false }, .readWake addr)
  | .readTest n addr =>
    if d.pipe.Empty then ({ d with taken := false }, .readWake addr) else (d, .readTake n addr)
  | .readTake n addr =>
    ({ d with
        pipe := d.pipe.advance
        handed := d.handed ++ [d.pipe.front]
        taken := true }, .readFor n (addr ++ [d.pipe.front]))
  | .closeSet writable =>
    if writable then
      ({ d with pipe := { d.pipe with writeopen := false } }, .closeWake writable)
    else ({ d with pipe := { d.pipe with readopen := false } }, .closeWake writable)
  | .closeTest =>
    (d, .closeRelease (d.pipe.readopen = false ∧ d.pipe.writeopen = false))
  | .closeFree => ({ d with freed := true }, .idle (some .closed))
  | point => (d, point)

/-- What the process `t` does at each point. -/
def op (t : Thread) : Point → Op Chan (State Thread) Point
  | .idle _ => .choose fun d => Set.range fun call : Call => (d, call.enter)
  | .writeEnter addr n => .acquire (.writeFor addr n 0)
  | .writeWake addr n i => .wakeup .nread (.writeSleep addr n i)
  | .writeSleep addr n i => .sleep .nwrite (.writeWhile addr n i)
  | .writeFail => .release (.idle (some .failed))
  | .writeDone n => .wakeup .nread (.writeRelease n)
  | .writeRelease n => .release (.idle (some (.wrote n)))
  | .readEnter n => .acquire (.readWhile n)
  | .readSleep n => .sleep .nread (.readWhile n)
  | .readFail => .release (.idle (some .failed))
  | .readWake addr => .wakeup .nwrite (.readRelease addr)
  | .readRelease addr => .release (.idle (some (.read addr)))
  | .closeEnter writable => .acquire (.closeSet writable)
  | .closeWake writable => .wakeup (if writable then .nread else .nwrite) .closeTest
  | .closeRelease last => .release (if last then .closeFree else .idle (some .closed))
  | point => .compute fun d => some (compute t d point)

/-- The points outside of the critical sections. -/
def Point.outside : Point → Bool
  | .idle _ | .writeEnter .. | .readEnter _ | .closeEnter _ | .closeFree => true
  | _ => false

/-- What the computations do. -/
inductive Move (t : Thread) (d : State Thread) : Point → State Thread → Point → Prop
  | call (last : Option Result) (call : Call) : Move t d (.idle last) d call.enter
  | writeNext {addr n} {i : Nat} : (i : Int) < n →
      Move t d (.writeFor addr n i) d (.writeWhile addr n i)
  | writeEnd {addr n} {i : Nat} : ¬ (i : Int) < n →
      Move t d (.writeFor addr n i) { d with stored := false } (.writeDone n)
  | writeFull {addr n i} : d.pipe.Full →
      Move t d (.writeWhile addr n i) d (.writeCheck addr n i)
  | writeRoom {addr n i} : ¬ d.pipe.Full →
      Move t d (.writeWhile addr n i) d (.writeStore addr n i)
  | writeGiveUp {addr n i} : d.pipe.readopen = false ∨ d.killed t = true →
      Move t d (.writeCheck addr n i) d .writeFail
  | writeWait {addr n i} : ¬ (d.pipe.readopen = false ∨ d.killed t = true) →
      Move t d (.writeCheck addr n i) { d with stored := false } (.writeWake addr n i)
  | writeByte {addr n i} : Move t d (.writeStore addr n i)
      { d with
        pipe := d.pipe.store (addr i)
        accepted := d.accepted ++ [addr i]
        stored := true } (.writeFor addr n (i + 1))
  | readEmpty {n} : d.pipe.Empty → d.pipe.writeopen = true →
      Move t d (.readWhile n) d (.readCheck n)
  | readStart {n} : ¬ (d.pipe.Empty ∧ d.pipe.writeopen = true) →
      Move t d (.readWhile n) d (.readFor n [])
  | readGiveUp {n} : d.killed t = true → Move t d (.readCheck n) d .readFail
  | readWait {n} : ¬ d.killed t = true → Move t d (.readCheck n) d (.readSleep n)
  | readNext {n addr} : (addr.length : Int) < n → Move t d (.readFor n addr) d (.readTest n addr)
  | readEnd {n addr} : ¬ (addr.length : Int) < n →
      Move t d (.readFor n addr) { d with taken := false } (.readWake addr)
  | readBreak {n addr} : d.pipe.Empty →
      Move t d (.readTest n addr) { d with taken := false } (.readWake addr)
  | readMore {n addr} : ¬ d.pipe.Empty → Move t d (.readTest n addr) d (.readTake n addr)
  | readByte {n addr} : Move t d (.readTake n addr)
      { d with
        pipe := d.pipe.advance
        handed := d.handed ++ [d.pipe.front]
        taken := true } (.readFor n (addr ++ [d.pipe.front]))
  | closeWrite : Move t d (.closeSet true) { d with pipe := { d.pipe with writeopen := false } }
      (.closeWake true)
  | closeRead : Move t d (.closeSet false) { d with pipe := { d.pipe with readopen := false } }
      (.closeWake false)
  | closeTest : Move t d .closeTest d
      (.closeRelease (d.pipe.readopen = false ∧ d.pipe.writeopen = false))
  | closeFree : Move t d .closeFree { d with freed := true } (.idle (some .closed))

theorem move_of_outcome {t : Thread} {point next : Point} {d d' : State Thread}
    (outcome : (d', next) ∈ (op t point).outcomes d) : Move t d point d' next := by
  cases point <;> simp only [op, Op.outcomes, compute, Set.mem_empty_iff_false, Set.mem_ofPred_eq,
    Option.some.injEq] at outcome
  case idle last =>
    obtain ⟨call, same⟩ := outcome
    cases same
    exact .call last call
  case writeFor =>
    split at outcome <;> cases outcome
    · exact .writeNext ‹_›
    · exact .writeEnd ‹_›
  case writeWhile =>
    split at outcome <;> cases outcome
    · exact .writeFull ‹_›
    · exact .writeRoom ‹_›
  case writeCheck =>
    split at outcome <;> cases outcome
    · exact .writeGiveUp ‹_›
    · exact .writeWait ‹_›
  case readWhile =>
    split at outcome <;> cases outcome
    · rename_i waits
      exact .readEmpty waits.1 waits.2
    · exact .readStart ‹_›
  case readCheck =>
    split at outcome <;> cases outcome
    · exact .readGiveUp ‹_›
    · exact .readWait ‹_›
  case readFor =>
    split at outcome <;> cases outcome
    · exact .readNext ‹_›
    · exact .readEnd ‹_›
  case readTest =>
    split at outcome <;> cases outcome
    · exact .readBreak ‹_›
    · exact .readMore ‹_›
  case closeSet writable =>
    cases writable <;> cases outcome
    · exact .closeRead
    · exact .closeWrite
  all_goals
    cases outcome
    constructor

/-- Calls start outside of the critical sections. -/
theorem Call.outside_enter (call : Call) : call.enter.outside = true := by
  cases call <;> rfl

theorem Move.outside_eq {t : Thread} {d d' : State Thread} {point next : Point}
    (move : Move t d point d' next) : next.outside = point.outside := by
  cases move with
  | call last call => exact call.outside_enter
  | _ => rfl

/-- The code of the processes that use the pipe. -/
def client (Thread : Type) : Client Thread Chan (State Thread) Point where
  op := op
  outside := Point.outside
  fits t point := by
    have computes d d' next (outcome : (d', next) ∈ (op t point).outcomes d) :=
      (move_of_outcome outcome).outside_eq
    cases point with
    | closeRelease last => cases last <;> exact ⟨rfl, rfl⟩
    | writeEnter | writeSleep | writeFail | writeRelease | readEnter | readSleep | readFail
    | readRelease | closeEnter => exact ⟨rfl, rfl⟩
    | writeWake | writeDone | readWake | closeWake => rfl
    | _ => exact computes

/-! ## The machine -/

variable {Cpu : Type} {n : Nat}

/-- Processors with `n` processes that share a pipe. -/
abbrev Kernel (Cpu : Type) (n : Nat) :=
  System Cpu (Fin n) Unit Chan (State (Fin n)) (At (Fin n) Point)

/-- The pipe that `pipealloc` makes from a page with any contents. -/
def State.fresh (page : Fin pipesize → UInt8) (killed : Thread → Bool) : State Thread where
  pipe := ⟨page, 0, 0, true, true⟩
  killed := killed
  freed := false
  accepted := []
  handed := []
  stored := false
  taken := false

/-- All processes are about to make their first call. -/
def start (page : Fin pipesize → UInt8) (killed : Fin n → Bool) : Kernel Cpu n :=
  System.boot (State.fresh page killed) fun t => ⟨t, .idle none⟩

/-- The effect of `kill` on the process `t`. -/
def kill (t : Fin n) (s : Kernel Cpu n) : Kernel Cpu n :=
  s.rouse { s.data with killed := update s.data.killed t true } t

variable [DecidableEq Cpu]

/-- A step of a processor, or a call of `kill`, which holds `ptable.lock` throughout. -/
inductive Step : Kernel Cpu n → Kernel Cpu n → Prop
  | code {s s'} : Sync.Step (client (Fin n)).program (List.finRange n) s s' → Step s s'
  | kill {s} (t : Fin n) : s.holder none = none → Step s (kill t s)

variable {s : Kernel Cpu n} {c : Cpu} {p : Fin n}

theorem Step.call {last : Option Result} (call : Call) (here : s.cur c = some p)
    (control : s.ctl p = .run ⟨p, .idle last⟩) : Step s (s.setCtl p (.run ⟨p, call.enter⟩)) :=
  .code (Client.step_of_choose here control rfl ⟨call, rfl⟩)

end Xv6.Pipes
