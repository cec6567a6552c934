import Xv6.Pipes.Queue

/-!
# The peers of a pipe are woken

No process sleeps in `piperead` while there is something to read or the write end is
closed, and none in `pipewrite` while there is room or the read end is closed.  For
readers this holds only if `pipewrite` has announced what it stored: when the buffer is
full and the process has been killed, or the read end is closed, it returns without a
`wakeup`, also after it has stored bytes that nobody has been told of.
-/

namespace Xv6.Pipes

open Sync Relation

variable {Thread : Type} {d d' : State Thread}

/-- There is something to do for a reader. -/
def Pipe.Readable (p : Pipe) : Prop :=
  ¬ p.Empty ∨ p.writeopen = false

/-- There is something to do for a writer. -/
def Pipe.Writable (p : Pipe) : Prop :=
  ¬ p.Full ∨ p.readopen = false

/-- When `pipewrite` is about to give up, it has stored nothing since it last called
`wakeup(&p->nread)`. -/
def Announced (t : Thread) (point : Point) (d : State Thread) : Prop :=
  match point with
  | .writeCheck .. => d.pipe.readopen = false ∨ d.killed t = true → d.stored = false
  | _ => True

/-- Where bytes may have moved that the other side does not know of. -/
def Point.Settled (d : State Thread) : Point → Prop
  | .writeFor .. | .writeWhile .. | .writeCheck .. | .writeStore .. => d.taken = false
  | .readFor .. | .readTest .. | .readTake .. => d.stored = false
  | _ => d.stored = false ∧ d.taken = false

/-- Outside of the critical sections everything that has moved has been announced. -/
theorem keeps_settled : (client Thread).Keeps (fun d => d.stored = false ∧ d.taken = false)
    (fun point d => point.Settled d) (fun _ _ _ => True) Announced where
  carries t point := by
    cases point with
    | writeEnter => exact fun _ => And.right
    | writeSleep => exact fun _ => ⟨id, And.right⟩
    | readSleep => exact fun _ => ⟨id, id⟩
    | readEnter | closeEnter | writeWake | writeDone | readWake | closeWake | writeFail
    | writeRelease | readFail | readRelease | closeRelease => exact fun _ => id
    | _ => trivial
  compute outcome inside announced _ settled := by
    cases move_of_outcome outcome with
    | call | closeFree => cases inside
    | writeNext | writeFull | writeRoom | writeByte => exact settled
    | writeEnd | writeWait => exact ⟨rfl, settled⟩
    | writeGiveUp giveUp => exact ⟨announced giveUp, settled⟩
    | readStart => exact settled.1
    | readEmpty | readGiveUp | readWait | closeWrite | closeRead | closeTest => exact settled
    | readNext | readMore | readByte => exact settled
    | readEnd | readBreak => exact ⟨settled, rfl⟩
  outside outcome outside _ := by
    cases move_of_outcome outcome with
    | call | closeFree => exact ⟨id, fun point => by cases point <;> exact id⟩
    | _ => cases outside

/-! ## Wakeups -/

/-- A reader has something to do, and all that has been stored has been announced. -/
def State.CallsReaders (d : State Thread) : Prop :=
  d.pipe.Readable ∧ d.stored = false

/-- A writer has something to do, and all that has been taken has been announced. -/
def State.CallsWriters (d : State Thread) : Prop :=
  d.pipe.Writable ∧ d.taken = false

/-- What is known of the pipe at the points inside the critical sections. -/
def Known (_ : Thread) (point : Point) (d : State Thread) : Prop :=
  point.outside = false → point.Facts d.pipe

theorem guards_readers : (client Thread).program.Guards plock .nread State.CallsReaders
    fun ℓ => Known ℓ.proc ℓ.point := by
  refine Client.guards (fun {t _ point next _ d} _ sleeps known => ?_)
    fun {t point d d' next} outcome known before holds => ?_
  · change op t point = _ at sleeps
    cases point <;> simp only [op, reduceCtorEq, Op.sleep.injEq, false_and] at sleeps
    obtain ⟨empty, opened⟩ := known rfl
    rintro ⟨unread | closed, -⟩
    · exact unread empty
    · cases opened.symm.trans closed
  · cases move_of_outcome outcome with
    | writeEnd | writeWait | closeWrite => exact ⟨rfl, _, rfl⟩
    | writeByte => cases holds.2
    | readByte => exact (before ⟨.inl (known rfl), holds.2⟩).elim
    | call | writeNext | writeFull | writeRoom | writeGiveUp | readEmpty | readStart | readGiveUp
    | readWait | readNext | readEnd | readBreak | readMore | closeRead | closeTest
    | closeFree => exact (before holds).elim

theorem guards_writers : (client Thread).program.Guards plock .nwrite State.CallsWriters
    fun ℓ => Known ℓ.proc ℓ.point := by
  refine Client.guards (fun {t _ point next _ d} _ sleeps known => ?_)
    fun {t point d d' next} outcome known before holds => ?_
  · change op t point = _ at sleeps
    cases point <;> simp only [op, reduceCtorEq, Op.sleep.injEq, false_and] at sleeps
    obtain ⟨full, opened⟩ := known rfl
    rintro ⟨room | closed, -⟩
    · exact room full
    · cases opened.symm.trans closed
  · cases move_of_outcome outcome with
    | readEnd | readBreak | closeRead => exact ⟨rfl, _, rfl⟩
    | readByte => cases holds.2
    | writeByte => exact (before ⟨.inl (known rfl), holds.2⟩).elim
    | call | writeNext | writeEnd | writeFull | writeRoom | writeGiveUp | writeWait | readEmpty
    | readStart | readGiveUp | readWait | readNext | readMore | closeWrite | closeTest
    | closeFree => exact (before holds).elim

/-! ## All interleavings -/

section

variable {Cpu : Type} [DecidableEq Cpu] {n : Nat}
variable {page : Fin pipesize → UInt8} {killed : Fin n → Bool}
variable {s s' : Kernel Cpu n}

/-- Every process that is about to give up in `pipewrite` has announced what it stored. -/
def Careful (s : Kernel Cpu n) : Prop :=
  ∀ p ℓ, s.ctl p = .run ℓ → Announced ℓ.proc ℓ.point s.data

/-- No process sleeps on an end of the pipe where there is something to do. -/
def NoneStuck (s : Kernel Cpu n) : Prop :=
  s.holder plock = none → ∀ t, s.state t = .sleeping →
    (s.chan t = some .nread → ¬ s.data.pipe.Readable) ∧
      (s.chan t = some .nwrite → ¬ s.data.pipe.Writable)

theorem known_of_run (run : ReflTransGen Step (start page killed) s) {p : Fin n}
    {ℓ : At (Fin n) Point} (point : s.ctl p = .run ℓ) : Known ℓ.proc ℓ.point s.data := by
  obtain ⟨exclusive, monitored⟩ := monitored_of_run run
  intro inside
  exact (monitored.assertion_of_run exclusive point (Client.mem_held.mpr inside)).2

/-- In every run both ends of the pipe are guarded. -/
theorem heard_of_run (run : ReflTransGen Step (start page killed) s) :
    Heard (client (Fin n)).program plock .nread State.CallsReaders s ∧
      Heard (client (Fin n)).program plock .nwrite State.CallsWriters s := by
  induction run with
  | refl => exact ⟨Heard.boot _ _ _, Heard.boot _ _ _⟩
  | tail earlier step ih =>
    obtain ⟨readers, writers⟩ := ih
    have later := earlier.tail step
    have exclusive := (monitored_of_run earlier).1
    cases step with
    | code step =>
      exact ⟨readers.step guards_readers List.mem_finRange exclusive (known_of_run earlier)
          (known_of_run later) step,
        writers.step guards_writers List.mem_finRange exclusive (known_of_run earlier)
          (known_of_run later) step⟩
    | kill t =>
      exact ⟨readers.external (External.rouse ..) id, writers.external (External.rouse ..) id⟩

/-- In every run whose steps start from careful states, everything that has moved has been
announced when the lock is free. -/
theorem settled_of_run
    (run : ReflTransGen (fun s s' => Step s s' ∧ Careful s) (start page killed) s) :
    ReflTransGen Step (start page killed) s ∧
      Monitored (client (Fin n)).program () (fun d => d.stored = false ∧ d.taken = false)
        (fun ℓ d => ℓ.point.Settled d) (fun t ℓ _ => ℓ.proc = t ∧ True) s := by
  induction run with
  | refl => exact ⟨.refl, Monitored.boot ⟨rfl, rfl⟩ fun _ => ⟨rfl, trivial⟩⟩
  | tail _ step ih =>
    obtain ⟨earlier, monitored⟩ := ih
    obtain ⟨step, careful⟩ := step
    refine ⟨earlier.tail step, ?_⟩
    cases step with
    | code step =>
      exact monitored.step keeps_settled.protects (monitored_of_run earlier).1
        (fun {p ℓ} => careful p ℓ) step
    | kill t =>
      refine monitored.external (External.rouse ..) id (fun ℓ => ?_) fun _ _ => id
      cases ℓ.point <;> exact id

/-- No process is stuck: in every run in which `pipewrite` gives up only after it has
announced what it stored, no process sleeps on an end of the pipe where there is something
to do. -/
theorem noneStuck_of_run
    (run : ReflTransGen (fun s s' => Step s s' ∧ Careful s) (start page killed) s) :
    NoneStuck s := by
  intro free t asleep
  obtain ⟨plain, monitored⟩ := settled_of_run run
  obtain ⟨stored, taken⟩ := monitored.free free
  have exclusive := (monitored_of_run plain).1
  obtain ⟨readers, writers⟩ := heard_of_run plain
  constructor
  · intro on readable
    exact readers.not_sleeping exclusive free ⟨readable, stored⟩ t ⟨asleep, on⟩
  · intro on writable
    exact writers.not_sleeping exclusive free ⟨writable, taken⟩ t ⟨asleep, on⟩

omit [DecidableEq Cpu] in
/-- While nothing has been stored, everybody is careful. -/
theorem Careful.of_stored (nothing : s.data.stored = false) : Careful s := by
  intro p ℓ _
  unfold Announced
  split
  · exact fun _ => nothing
  · trivial

/-- A stretch of a run in which nothing is stored. -/
theorem turns_careful {k : Nat} (c : Cpu) (p : Fin n) (taken : s.turns (client (Fin n)).program
      (List.finRange n) (client (Fin n)).outcome (fun s => !s.data.stored) c p k = some s') :
    ReflTransGen (fun s s' => Step s s' ∧ Careful s) s s' :=
  (reaches_of_turns Client.offers taken).lift id fun _ _ step =>
    ⟨.code step.1, .of_stored (by simpa using step.2)⟩

end

/-- A run in which a reader goes to sleep and a killed writer is about to start. -/
theorem sleeping_reader_not_stuck : ∃ s : Kernel Unit 2, s.state 0 = .sleeping ∧
    s.chan 0 = some .nread ∧ s.data.killed 1 = true ∧ s.holder plock = none ∧ NoneStuck s := by
  refine ⟨_, ?_, ?_, ?_, ?_, noneStuck_of_run
    (turns_careful (s := start (fun _ => 0) fun _ => false) (k := 4) () 0 rfl
    |>.tail ⟨.call (c := ()) (p := 0) (.piperead 1) rfl rfl, .of_stored rfl⟩
    |>.trans (turns_careful (k := 9) () 0 rfl)
    |>.tail ⟨.kill 1 rfl, .of_stored rfl⟩)⟩ <;> rfl

/-! ## A reader that is not woken -/

section

variable {Cpu : Type} [DecidableEq Cpu] {n : Nat}
variable {s : Kernel Cpu n}
variable {c : Cpu} {p : Fin n} {d d' : State (Fin n)}

/-- The machine with the process `p` at a point and the given data. -/
def place (s : Kernel Cpu n) (p : Fin n) (d : State (Fin n)) (point : Point) : Kernel Cpu n :=
  { s with data := d }.setCtl p (.run ⟨p, point⟩)

omit [DecidableEq Cpu] in
theorem place_self {point : Point} (ctl : s.ctl p = .run ⟨p, point⟩) :
    place s p s.data point = s := by
  rw [place, System.setCtl, ← ctl, Function.update_eq_self]

/-- A computation of the running process. -/
theorem step_place (point : Point) {next : Point} (here : s.cur c = some p)
    (computes : op p point = .compute fun d => some (compute p d point))
    (outcome : compute p d point = (d', next)) : Step (place s p d point) (place s p d' next) := by
  have code : (client (Fin n)).program.code ⟨p, point⟩ =
      (Op.compute fun d => some (compute p d point)).instr p := congrArg (Op.instr p) computes
  have step : ThreadStep (client (Fin n)).program (List.finRange n) c p (place s p d point) _ :=
    .compute (System.setCtl_self ..) code
      (show (d', (⟨p, next⟩ : At (Fin n) Point)) ∈ _ from ⟨rfl, congrArg some outcome⟩)
  have same : place s p d' next =
      { place s p d point with data := d' }.setCtl p (.run ⟨p, next⟩) := by
    simp [place, System.setCtl]
  rw [same]
  exact .code (.thread here step)

/-- The loop of `pipewrite` stores bytes as long as there is room. -/
theorem stores (addr : Nat → UInt8) (len : Int) (here : s.cur c = some p) (k : Nat) {i : Nat}
    (queue : d.Queue) (room : d.accepted.length + k ≤ d.handed.length + pipesize)
    (long : (i + k : Int) ≤ len) :
    ∃ d', ReflTransGen Step (place s p d (.writeFor addr len i))
        (place s p d' (.writeFor addr len (i + k))) ∧
      d'.Queue ∧ d'.handed = d.handed ∧ d'.accepted.length = d.accepted.length + k ∧
        d'.killed = d.killed := by
  induction k generalizing d i with
  | zero => exact ⟨d, .refl, queue, rfl, rfl, rfl⟩
  | succ k ih =>
    have more : (i : Int) < len := by omega
    have notFull : ¬ d.pipe.Full := by
      rw [queue.full_iff]
      omega
    have toWhile := step_place (s := s) (d := d) (.writeFor addr len i) here rfl
      (if_pos more)
    have toStore := step_place (s := s) (d := d) (.writeWhile addr len i) here rfl
      (if_neg notFull)
    have toFor := step_place (s := s) (d := d) (.writeStore addr len i) here rfl rfl
    obtain ⟨d', run, queue', handed, accepted, killed⟩ :=
      ih (i := i + 1)
        (d := { d with
          pipe := d.pipe.store (addr i)
          accepted := d.accepted ++ [addr i]
          stored := true }) (queue.store notFull (addr i))
        (by simp only [List.length_append, List.length_singleton]; omega) (by push_cast; omega)
    refine ⟨d', ?_, queue', handed, ?_, killed⟩
    · rw [show i + (k + 1) = i + 1 + k by omega]
      exact ((ReflTransGen.single toWhile).tail toStore).tail toFor |>.trans run
    · rw [accepted, List.length_append, List.length_singleton]
      omega

/-- A killed process that finds the buffer full gives up. -/
theorem gives_up (addr : Nat → UInt8) (len : Int) {i : Nat} (here : s.cur c = some p)
    (more : (i : Int) < len) (full : d.pipe.Full) (killed : d.killed p = true) :
    ReflTransGen Step (place s p d (.writeFor addr len i)) (place s p d .writeFail) := by
  have toWhile := step_place (s := s) (d := d) (.writeFor addr len i) here rfl
    (if_pos more)
  have toCheck := step_place (s := s) (d := d) (.writeWhile addr len i) here rfl
    (if_pos full)
  have toFail := step_place (s := s) (d := d) (.writeCheck addr len i) here rfl
    (if_pos (.inr killed))
  exact ((ReflTransGen.single toWhile).tail toCheck).tail toFail

end

/-- A reader sleeps, and a writer that has been killed has the lock. -/
theorem exists_killed_writer : ∃ s : Kernel Unit 2,
    ReflTransGen Step (start (fun _ => 0) fun _ => false) s ∧
      s.ctl 1 = .run ⟨1, .writeFor (fun _ => 7) 513 0⟩ ∧ s.data.Queue ∧ s.data.handed = [] ∧
        s.data.accepted = [] ∧ s.data.killed 1 = true ∧ s.cur () = some 1 ∧
          s.holder plock = some () ∧ s.holder none = none ∧ s.state 0 = .sleeping ∧
            s.chan 0 = some .nread := by
  refine ⟨_, turns_run (k := 4) () 0 rfl
    |>.tail (.call (c := ()) (p := 0) (.piperead 1) rfl rfl)
    |>.trans (turns_run (k := 11) () 1 rfl)
    |>.tail (.call (c := ()) (p := 1) (.pipewrite (fun _ => 7) 513) rfl rfl)
    |>.trans (turns_run (k := 1) () 1 rfl)
    |>.tail (.kill 1 rfl), rfl, ?_, rfl, rfl, rfl, rfl, rfl, rfl, rfl, rfl⟩
  exact ⟨rfl, rfl, List.prefix_rfl, Nat.zero_le _,
    fun _ _ bound => absurd bound (Nat.not_lt_zero _)⟩

/-- A killed writer fills the buffer, gives up and leaves the reader asleep. -/
theorem exists_stuck_reader :
    ∃ s : Kernel Unit 2, ReflTransGen Step (start (fun _ => 0) fun _ => false) s ∧
      s.holder none = none ∧ ¬ NoneStuck s := by
  obtain ⟨s, run, ctl, queue, handed, accepted, killed, here, holder, unlocked, asleep, on⟩ :=
    exists_killed_writer
  obtain ⟨d, filling, queue', handed', accepted', killed'⟩ :=
    stores (s := s) (i := 0) (fun _ => 7) 513 here pipesize queue
      (by rw [handed, accepted]) (by decide)
  rw [place_self ctl] at filling
  have full : d.pipe.Full := by
    rw [queue'.full_iff, handed', accepted', handed, accepted]
  have failing := gives_up (s := s) (d := d) (i := 0 + pipesize) (fun _ => 7) 513 here (by decide)
    full (by rw [killed', killed])
  have toIdle : Step (place s 1 d .writeFail) _ :=
    .code (.thread here (.release (System.setCtl_self ..) rfl holder))
  refine ⟨_, (run.trans filling).trans failing |>.tail toIdle, ?_, ?_⟩
  · exact unlocked
  · intro noneStuck
    have notReadable := (noneStuck rfl 0 asleep).1 on
    apply notReadable
    refine .inl fun empty => ?_
    have same := congrArg List.length (queue'.empty_iff.mp empty)
    rw [accepted', handed', handed, accepted] at same
    cases same

end Xv6.Pipes
