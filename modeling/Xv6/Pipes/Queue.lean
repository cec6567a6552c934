import Xv6.Lib.Fifo
import Xv6.Pipes.Code

/-!
# A pipe is a bounded queue

In every interleaving, and however often the counters wrap around, a pipe holds at
most `PIPESIZE` bytes, and what readers have got followed by what is left in the
buffer is what writers have put in.
-/

namespace Xv6.Pipes

open Sync Relation

variable {Thread : Type} {d d' : State Thread}

/-- The range of the counters. -/
def counters : Nat := 2 ^ 32

/-- The buffer and the counters show the history of the pipe. -/
def State.Queue (d : State Thread) : Prop :=
  Fifo.Holds pipesize counters d.pipe.data d.pipe.nread.toNat d.pipe.nwrite.toNat
    d.handed d.accepted

/-- What the code knows of the pipe at a point where it holds the lock. -/
def Point.Facts (p : Pipe) : Point → Prop
  | .writeCheck .. => p.Full
  | .writeWake .. | .writeSleep .. => p.Full ∧ p.readopen = true
  | .writeStore .. => ¬ p.Full
  | .readCheck _ | .readSleep _ => p.Empty ∧ p.writeopen = true
  | .readTake .. => ¬ p.Empty
  | _ => True

theorem pipesize_dvd : pipesize ∣ counters := ⟨2 ^ 23, rfl⟩

theorem pipesize_lt : pipesize < counters := by decide

namespace State.Queue

variable (queue : d.Queue)
include queue

theorem full_iff : d.pipe.Full ↔ d.accepted.length = d.handed.length + pipesize := by
  rw [← Fifo.Holds.eq_add_iff queue pipesize_lt, Pipe.Full, ← UInt32.toNat_inj,
    UInt32.toNat_add]
  rfl

theorem empty_iff : d.pipe.Empty ↔ d.handed = d.accepted := by
  rw [← Fifo.Holds.eq_iff queue pipesize_lt, UInt32.toNat_inj]
  rfl

/-- The number of bytes in the buffer. -/
theorem toNat_sub : (d.pipe.nwrite - d.pipe.nread).toNat = d.accepted.length - d.handed.length := by
  rw [UInt32.toNat_sub]
  exact Fifo.Holds.sub_mod queue pipesize_lt

theorem store (room : ¬ d.pipe.Full) (x : UInt8) :
    Fifo.Holds pipesize counters (d.pipe.store x).data (d.pipe.store x).nread.toNat
      (d.pipe.store x).nwrite.toNat d.handed (d.accepted ++ [x]) := by
  rw [queue.full_iff] at room
  have bound := queue.room
  have pushed := Fifo.Holds.push queue pipesize_dvd (by omega) x
  have next : (d.pipe.store x).nwrite.toNat = (d.pipe.nwrite.toNat + 1) % counters :=
    UInt32.toNat_add d.pipe.nwrite 1
  rw [next]
  exact pushed

theorem advance (some : ¬ d.pipe.Empty) :
    Fifo.Holds pipesize counters d.pipe.advance.data d.pipe.advance.nread.toNat
      d.pipe.advance.nwrite.toNat (d.handed ++ [d.pipe.front]) d.accepted := by
  have shorter : d.handed.length < d.accepted.length := by
    apply lt_of_le_of_ne queue.length_le
    intro same
    exact some (queue.empty_iff.mpr (queue.behind.eq_of_length same))
  have popped := Fifo.Holds.pop queue pipesize_dvd shorter
  have next : d.pipe.advance.nread.toNat = (d.pipe.nread.toNat + 1) % counters :=
    UInt32.toNat_add d.pipe.nread 1
  rw [next]
  exact popped

end State.Queue

/-- The lock of the pipe protects its queue. -/
theorem keeps_queue : (client Thread).Keeps State.Queue
    (fun point d => d.Queue ∧ point.Facts d.pipe)
    (fun _ _ _ => True) (fun _ _ _ => True) where
  carries t point := by
    cases point with
    | writeEnter | readEnter | closeEnter => exact fun _ queue => ⟨queue, trivial⟩
    | writeSleep | readSleep => exact fun _ => ⟨And.left, fun queue => ⟨queue, trivial⟩⟩
    | writeWake => exact fun _ => id
    | writeDone | readWake | closeWake => exact fun _ known => ⟨known.1, trivial⟩
    | writeFail | writeRelease | readFail | readRelease | closeRelease => exact fun _ => And.left
    | _ => trivial
  compute outcome inside _ _ known := by
    obtain ⟨queue, facts⟩ := known
    cases move_of_outcome outcome with
    | call | closeFree => cases inside
    | writeNext | writeEnd | writeGiveUp | readStart | readGiveUp | readNext | readEnd | readBreak
    | closeWrite | closeRead | closeTest => exact ⟨queue, trivial⟩
    | writeFull full => exact ⟨queue, full⟩
    | writeRoom room => exact ⟨queue, room⟩
    | writeWait going =>
      refine ⟨queue, facts, ?_⟩
      simpa using (not_or.mp going).1
    | writeByte => exact ⟨queue.store facts _, trivial⟩
    | readEmpty empty opened => exact ⟨queue, empty, opened⟩
    | readWait => exact ⟨queue, facts⟩
    | readMore some => exact ⟨queue, some⟩
    | readByte => exact ⟨queue.advance facts, trivial⟩
  outside outcome outside _ := by
    cases move_of_outcome outcome with
    | call | closeFree => exact ⟨id, fun _ => id⟩
    | _ => cases outside

variable {Cpu : Type} [DecidableEq Cpu] {n : Nat}
variable {page : Fin pipesize → UInt8} {killed : Fin n → Bool} {s s' : Kernel Cpu n}

/-- In every run the lock is exclusive and protects the queue. -/
theorem monitored_of_run (run : ReflTransGen Step (start page killed) s) :
    Exclusive (client (Fin n)).program s ∧ Monitored (client (Fin n)).program () State.Queue
      (fun ℓ d => d.Queue ∧ ℓ.point.Facts d.pipe) (fun t ℓ _ => ℓ.proc = t ∧ True) s := by
  induction run with
  | refl =>
    refine ⟨Exclusive.boot _ fun _ => rfl, Monitored.boot ?_ fun _ => ⟨rfl, trivial⟩⟩
    exact ⟨rfl, rfl, List.prefix_rfl, Nat.zero_le _,
      fun _ _ bound => absurd bound (Nat.not_lt_zero _)⟩
  | tail _ step ih =>
    obtain ⟨exclusive, monitored⟩ := ih
    cases step with
    | code step =>
      exact ⟨exclusive.step step,
        monitored.step keeps_queue.protects exclusive (fun _ => trivial) step⟩
    | kill t =>
      exact ⟨exclusive.external (External.rouse ..),
        monitored.external (External.rouse ..) id (fun _ => id) fun _ _ => id⟩

/-- A pipe is a bounded queue: it never holds more than `PIPESIZE` bytes, and what the
readers have got, followed by what is still in the buffer, is what the writers have put
in. -/
theorem queue_of_run (run : ReflTransGen Step (start page killed) s) :
    (s.data.pipe.nwrite - s.data.pipe.nread).toNat ≤ pipesize ∧
      s.data.handed ++ s.data.pipe.buffered = s.data.accepted := by
  obtain ⟨exclusive, monitored⟩ := monitored_of_run run
  have queue : s.data.Queue := monitored.always exclusive id fun known => known.1
  refine ⟨?_, ?_⟩
  · rw [queue.toNat_sub]
    have room := queue.room
    omega
  · rw [Pipe.buffered, queue.toNat_sub]
    exact Fifo.Holds.append queue pipesize_dvd

/-- A stretch of a run. -/
theorem turns_run {k : Nat} (c : Cpu) (p : Fin n) (taken : s.turns (client (Fin n)).program
      (List.finRange n) (client (Fin n)).outcome (fun _ => true) c p k = some s') :
    ReflTransGen Step s s' :=
  (reaches_of_turns Client.offers taken).lift id fun _ _ step => .code step.1

/-- A run in which a process writes two bytes and reads one of them. -/
theorem exists_stored : ∃ s : Kernel Unit 1,
    ReflTransGen Step (start (fun _ => 0) fun _ => false) s ∧
    s.data.accepted = [7, 8] ∧ s.data.handed = [7] := by
  refine ⟨_, turns_run (k := 4) () 0 rfl
    |>.tail (.call (c := ()) (p := 0) (.pipewrite (fun i => if i = 0 then 7 else 8) 2) rfl rfl)
    |>.trans (turns_run (k := 13) () 0 rfl)
    |>.tail (.call (c := ()) (p := 0) (.piperead 1) rfl rfl)
    |>.trans (turns_run (k := 5) () 0 rfl), ?_⟩
  exact ⟨rfl, rfl⟩

/-- The other byte of that run is in the pipe. -/
theorem stored_byte_queued : ∃ s : Kernel Unit 1, s.data.accepted = [7, 8] ∧ s.data.handed = [7] ∧
    s.data.handed ++ s.data.pipe.buffered = s.data.accepted := by
  obtain ⟨s, run, accepted, handed⟩ := exists_stored
  exact ⟨s, accepted, handed, (queue_of_run run).2⟩

end Xv6.Pipes
