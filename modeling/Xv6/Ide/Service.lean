import Xv6.Ide.Code

/-!
# Requests are served one at a time

The queue of the driver and the disk under `idelock`.  When the lock is free, the
queue is a list without repetitions, the disk rests if the queue is empty, and
otherwise it executes the command of the first buffer, or has executed it and the
interrupt has not been handled yet.  What the disk holds and what the calls return is
what the synchronous driver gives for the requests that have been served.
-/

namespace Xv6.Ide

open Sync Linked Relation Function
open Buffer (Buf Index nbuf drive)

variable {Thread : Type} {d d' : State Thread} {b : Index} {t : Thread}
variable {disksize : UInt32} {image disk disk' : Disk} {answers : List Request}

/-! ## The synchronous driver -/

/-- `iderw` has something to do for the buffer. -/
def Accepted (x : Buf) : Prop :=
  x.busy = true ∧ ¬ Complete x

/-- The last answer that a buffer has got. -/
def lastAnswer (answers : List Request) (b : Index) : Option Buf :=
  (answers.reverse.find? fun r => r.1 = b).map (·.2)

@[simp]
theorem lastAnswer_concat_self (x : Buf) : lastAnswer (answers ++ [(b, x)]) b = some x := by
  simp [lastAnswer]

variable {b' : Index} {x : Buf} {requests : List Request} {point : Point}

theorem lastAnswer_concat_of_ne (other : b' ≠ b) :
    lastAnswer (answers ++ [(b', x)]) b = lastAnswer answers b := by
  simp [lastAnswer, other]

theorem serial_concat {r : Request}
    (ok : serial disksize disk (requests ++ [r]) = .ok (disk', answers)) :
    ∃ disk₁ answers₁ x, serial disksize disk requests = .ok (disk₁, answers₁) ∧
      memIderw disksize disk₁ r.2 = .ok (disk', x) ∧ answers = answers₁ ++ [(r.1, x)] := by
  induction requests generalizing disk answers with
  | nil =>
    obtain ⟨i, x⟩ := r
    simp only [List.nil_append, serial] at ok
    cases first : memIderw disksize disk x with
    | error e => rw [first] at ok; cases ok
    | ok result =>
      rw [first] at ok
      cases ok
      exact ⟨disk, [], result.2, rfl, first, rfl⟩
  | cons first rest ih =>
    obtain ⟨i, x⟩ := first
    simp only [List.cons_append, serial] at ok ⊢
    cases called : memIderw disksize disk x with
    | error e => rw [called] at ok; cases ok
    | ok result =>
      rw [called] at ok
      change (serial disksize result.1 (rest ++ [r]) >>= fun final =>
        pure (final.1, (i, result.2) :: final.2)) = _ at ok
      cases later : serial disksize result.1 (rest ++ [r]) with
      | error e => rw [later] at ok; cases ok
      | ok final =>
        rw [later] at ok
        cases ok
        obtain ⟨disk₁, answers₁, y, served, last, same⟩ := ih later
        refine ⟨disk₁, (i, result.2) :: answers₁, y, ?_, last, ?_⟩
        · change (serial disksize result.1 rest >>= fun final =>
            pure (final.1, (i, result.2) :: final.2)) = _
          rw [served]
          rfl
        · rw [same]
          rfl

/-- The buffer after its request has been served, when the disk gave `latch`. -/
def finish (latch : Block) (x : Buf) : Buf :=
  { x with data := if x.dirty = true then x.data else latch, valid := true, dirty := false }

/-- What the synchronous driver does when it returns. -/
theorem memIderw_ok {y : Buf} (ok : memIderw disksize disk x = .ok (disk', y)) :
    x.dev = 1 ∧ y = finish (disk x.blockno) x ∧
      disk' = if x.dirty = true then update disk x.blockno x.data else disk := by
  unfold memIderw at ok
  split at ok
  · cases ok
  split at ok
  · cases ok
  split at ok
  · cases ok
  rename_i device
  split at ok
  · cases ok
  split at ok
  · rename_i dirty
    cases ok
    exact ⟨not_not.mp device, by simp [finish, dirty], by simp [dirty]⟩
  · rename_i clean
    cases ok
    have clean : x.dirty = false := by simpa using clean
    refine ⟨not_not.mp device, ?_, by simp [clean]⟩
    simp only [finish, clean, Bool.false_eq_true, if_false]

theorem lba_eq {sector : UInt32} (bound : sector < fssize) : lba sector = sector := by
  have small : sector.toNat < 1000 := UInt32.lt_iff_toNat_lt.mp bound
  have low (x : Nat) : x &&& 255 = x % 2 ^ 8 := Nat.and_two_pow_sub_one_eq_mod x 8
  apply UInt32.toNat_inj.mp
  simp only [lba, UInt32.toNat_or, UInt32.toNat_and, UInt32.toNat_shiftLeft,
    UInt32.toNat_shiftRight, UInt32.reduceToNat, Nat.reduceMod, low, Nat.shiftRight_eq_div_pow]
  -- The two upper bytes are zero.
  rw [Nat.div_eq_of_lt (show sector.toNat < 2 ^ 16 by omega),
    Nat.div_eq_of_lt (show sector.toNat < 2 ^ 24 by omega)]
  simp only [Nat.zero_mod, Nat.zero_and, Nat.zero_shiftLeft, Nat.or_zero]
  have high : (sector.toNat / 2 ^ 8 % 2 ^ 8) <<< 8 % 2 ^ 32 = 2 ^ 8 * (sector.toNat / 2 ^ 8) := by
    rw [Nat.shiftLeft_eq]
    omega
  rw [high, Nat.or_comm, ← Nat.two_pow_add_eq_or_of_lt (Nat.mod_lt _ (by decide))]
  omega

/-- The synchronous driver accepts what the other one has accepted, if it is for a sector
of its disk. -/
theorem exists_serial
    (accepted : ∀ r ∈ requests, Accepted r.2 ∧ r.2.dev = 1 ∧ r.2.blockno < disksize) :
    ∃ result, serial disksize disk requests = .ok result := by
  induction requests generalizing disk with
  | nil => exact ⟨_, rfl⟩
  | cons r rest ih =>
    obtain ⟨⟨busy, incomplete⟩, device, range⟩ := accepted r (List.mem_cons_self ..)
    obtain ⟨first, called⟩ : ∃ first, memIderw disksize disk r.2 = .ok first := by
      unfold memIderw
      rw [if_neg (by rw [busy]; exact Bool.noConfusion), if_neg incomplete,
        if_neg (not_not.mpr device), if_neg (UInt32.not_le.mpr range)]
      split <;> exact ⟨_, rfl⟩
    obtain ⟨final, later⟩ : ∃ final, serial disksize first.1 rest = .ok final :=
      ih fun r' member => accepted r' (List.mem_cons_of_mem r member)
    refine ⟨(final.1, (r.1, first.2) :: final.2), ?_⟩
    change (memIderw disksize disk r.2 >>= fun first =>
      serial disksize first.1 rest >>= fun final =>
        pure (final.1, (r.1, first.2) :: final.2)) = _
    rw [called]
    change (serial disksize first.1 rest >>= _) = _
    rw [later]
    rfl

/-! ## The queue and the disk -/

/-- What holds at all times. -/
structure Core (disksize : UInt32) (image : Disk) (d : State Thread) : Prop where
  quiet : ∀ {c}, d.controller = .busy c → d.line = .low
  pending : ∃ rest, d.arrived = d.served ++ rest ∧ ∀ r ∈ rest, ∃ t, d.stage r.1 = .queued t
  complete : ∀ {b t}, d.stage b = .done t → Complete (d.buf b)
  drive : ∀ {disk answers}, serial disksize image d.served = .ok (disk, answers) →
    d.drives 1 = disk
  answered : ∀ {disk answers b t}, serial disksize image d.served = .ok (disk, answers) →
    d.stage b = .done t → lastAnswer answers b = some (d.buf b)
  accepted : ∀ r ∈ d.arrived, Accepted r.2

/-- The queue, the disk and the line may change as far as the disk stays quiet. -/
theorem Core.touch {qnext : Index → Option Index} {idequeue : Option Index}
    {controller : Controller} {line : Line Thread} {current : Option Request}
    (core : Core disksize image d) (quiet : ∀ {c}, controller = .busy c → line = .low) :
    Core disksize image { d with qnext, idequeue, controller, line, current } :=
  ⟨quiet, core.pending, core.complete, core.drive, core.answered, core.accepted⟩

/-- The buffers `q` are on the queue, and those in `out` have just been taken off it. -/
structure Queued (out q : List Index) (d : State Thread) : Prop where
  chain : Chain d.qnext d.idequeue q
  mem : ∀ b, b ∈ out ++ q ↔ ∃ t, d.stage b = .queued t
  off : ∀ b ∈ out, b ∉ q
  incomplete : ∀ b ∈ q, ¬ Complete (d.buf b)

/-- The synchronous driver answers the last request that has been served with `x`. -/
def Answered (disksize : UInt32) (image : Disk) (b : Index) (x : Buf) (d : State Thread) : Prop :=
  ∀ disk answers, serial disksize image d.served = .ok (disk, answers) →
    answers.getLast? = some (b, x)

/-- The disk has no command, and the buffers `q` wait. -/
structure Resting (q : List Index) (d : State Thread) : Prop where
  ready : ∃ latch, d.controller = .ready latch
  line : d.line = .low
  pending : d.arrived = d.served ++ q.map d.request

/-- The disk executes the command of `b`. -/
structure Executing (b : Index) (rest : List Index) (d : State Thread) : Prop where
  busy : d.controller = .busy (command (d.buf b))
  line : d.line = .low
  current : d.current = some (d.request b)
  range : (d.buf b).blockno < fssize
  pending : d.arrived = d.served ++ (b :: rest).map d.request

/-- The disk has executed the command of `b`, and the interrupt has not been handled. -/
structure Finished (disksize : UInt32) (image : Disk) (b : Index) (rest : List Index)
    (d : State Thread) : Prop where
  ready : ∃ latch, d.controller = .ready latch ∧
    Answered disksize image b (finish latch (d.buf b)) d
  line : d.line ≠ .low
  last : d.served.getLast? = some (d.request b)
  pending : d.arrived = d.served ++ rest.map d.request

/-- What the disk does for the queue `q`. -/
def Active (disksize : UInt32) (image : Disk) (d : State Thread) : List Index → Prop
  | [] => Resting [] d
  | b :: rest => Executing b rest d ∨ Finished disksize image b rest d

/-- The queue is in order, and the disk rests or is active. -/
structure Steady (disksize : UInt32) (image : Disk) (out q : List Index) (rests : Bool)
    (d : State Thread) : Prop extends Core disksize image d, Queued out q d where
  disk : match rests with
    | true => Resting q d
    | false => Active disksize image d q

/-- What holds while `idelock` is free. -/
def Inv (disksize : UInt32) (image : Disk) (d : State Thread) : Prop :=
  ∃ q, Steady disksize image [] q false d

/-- What holds at a point with `idelock`. -/
def Point.Assertion (disksize : UInt32) (image : Disk) (d : State Thread) : Point → Prop
  | .sleep b => Inv disksize image d ∧ ∃ t, d.stage b = .queued t
  | .startTest b => ∃ q : List Index, Steady disksize image [] (q ++ [b]) q.isEmpty d
  | .start b => Steady disksize image [] [b] true d
  | .intrRead b => ∃ rest latch, Steady disksize image [b] rest true d ∧
      d.controller = .ready latch ∧ Answered disksize image b (finish latch (d.buf b)) d
  | .intrFlags b => ∃ rest, Steady disksize image [b] rest true d ∧
      Answered disksize image b { d.buf b with valid := true, dirty := false } d
  | .intrWake _ | .intrNext => ∃ q, Steady disksize image [] q true d
  | .intrStart b => ∃ rest, Steady disksize image [] (b :: rest) true d
  | .panic _ => Core disksize image d ∧ ∃ latch, d.controller = .ready latch
  | _ => Inv disksize image d

/-- What a process knows of its own call at each point. -/
def Point.Fact (t : Thread) (d : State Thread) : Point → Prop
  | .enter b => d.stage b = .called t
  | .lock b | .append b => d.stage b = .called t ∧ Accepted (d.buf b)
  | .startTest b | .start b | .test b | .sleep b => d.stage b = .queued t ∨ d.stage b = .done t
  | .unlock b | .returned b => d.stage b = .done t
  | .intrLock | .intrHead => d.line = .taken t
  | _ => True

theorem lastAnswer_of_getLast? (last : answers.getLast? = some (b, x)) :
    lastAnswer answers b = some x := by
  obtain ⟨front, rfl⟩ := List.getLast?_eq_some_iff.mp last
  exact lastAnswer_concat_self x

/-- A change that leaves the queue as it is, and a disk that rests, keeps every assertion. -/
theorem Point.Assertion.congr (known : point.Assertion disksize image d)
    (steady : ∀ {out q rests}, Steady disksize image out q rests d →
      Steady disksize image out q rests d')
    (stage : ∀ {b t}, d.stage b = .queued t → d'.stage b = .queued t)
    (rest : ∀ {b rest}, Steady disksize image [b] rest true d →
      d'.buf b = d.buf b ∧ d'.controller = d.controller ∧ d'.served = d.served)
    (panic : (Point.panic true).Assertion disksize image d →
      (Point.panic true).Assertion disksize image d') : point.Assertion disksize image d' := by
  cases point with
  | sleep b =>
    obtain ⟨⟨q, inv⟩, t, queued⟩ := known
    exact ⟨⟨q, steady inv⟩, t, stage queued⟩
  | start b => exact steady known
  | intrRead b =>
    obtain ⟨q, latch, before, ready, answered⟩ := known
    obtain ⟨buf, controller, served⟩ := rest before
    refine ⟨q, latch, steady before, controller.trans ready, ?_⟩
    rwa [Answered, buf, served]
  | intrFlags b =>
    obtain ⟨q, before, answered⟩ := known
    obtain ⟨buf, -, served⟩ := rest before
    refine ⟨q, steady before, ?_⟩
    rwa [Answered, buf, served]
  | panic => exact panic known
  | _ =>
    obtain ⟨q, before⟩ := known
    exact ⟨q, steady before⟩

theorem State.map_request {l : List Index} (same : ∀ b ∈ l, d'.buf b = d.buf b) :
    l.map d'.request = l.map d.request :=
  List.map_congr_left fun b member => congrArg (Prod.mk b) (same b member)

/-! ## A change of a buffer that is not on the queue -/

/-- Only the contents and the stage of `b` have changed, which has not been queued. -/
structure Private (b : Index) (d d' : State Thread) : Prop where
  buf : ∀ b' ≠ b, d'.buf b' = d.buf b'
  stage : ∀ b' ≠ b, d'.stage b' = d.stage b'
  before : ∀ t, d.stage b ≠ .queued t
  after : ∀ t, d'.stage b ≠ .queued t ∧ d'.stage b ≠ .done t
  rest : d' = { d with buf := d'.buf, stage := d'.stage }

namespace Private

variable {out q : List Index} {rests : Bool}

variable (change : Private b d d')
include change

theorem ne (queued : d.stage b' = .queued t) : b' ≠ b := by
  rintro rfl
  exact change.before t queued

theorem buf_eq (queued : ∃ t, d.stage b' = .queued t) : d'.buf b' = d.buf b' := by
  obtain ⟨t, queued⟩ := queued
  exact change.buf b' (change.ne queued)

theorem core (core : Core disksize image d) : Core disksize image d' := by
  have done {b' : Index} {t : Thread} (finished : d'.stage b' = .done t) :
      d.stage b' = .done t ∧ d'.buf b' = d.buf b' := by
    have other : b' ≠ b := by
      rintro rfl
      exact (change.after t).2 finished
    exact ⟨(change.stage b' other).symm.trans finished, change.buf b' other⟩
  obtain ⟨rest, arrived, waiting⟩ := core.pending
  rw [change.rest]
  refine ⟨core.quiet, ⟨rest, arrived, fun r member => ?_⟩, fun finished => ?_, core.drive,
    fun ok finished => ?_, core.accepted⟩
  · obtain ⟨t, queued⟩ := waiting r member
    exact ⟨t, (change.stage _ (change.ne queued)).trans queued⟩
  · obtain ⟨before, same⟩ := done finished
    change Complete (d'.buf _)
    rw [same]
    exact core.complete before
  · obtain ⟨before, same⟩ := done finished
    change _ = some (d'.buf _)
    rw [same]
    exact core.answered ok before

theorem queued (queued : Queued out q d) : Queued out q d' := by
  have same (b' : Index) : (∃ t, d'.stage b' = .queued t) ↔ ∃ t, d.stage b' = .queued t := by
    by_cases here : b' = b
    · subst here
      exact iff_of_false (fun ⟨t, wrong⟩ => (change.after t).1 wrong)
        fun ⟨t, wrong⟩ => change.before t wrong
    · rw [change.stage b' here]
  rw [change.rest]
  refine ⟨queued.chain, fun b' => ?_, queued.off, fun b' member => ?_⟩
  · exact (queued.mem b').trans (same b').symm
  · change ¬ Complete (d'.buf b')
    rw [change.buf_eq ((queued.mem b').mp (List.mem_append_right _ member))]
    exact queued.incomplete b' member

theorem resting (same : ∀ b' ∈ q, d'.buf b' = d.buf b') (resting : Resting q d) : Resting q d' := by
  obtain ⟨ready, line, pending⟩ := resting
  rw [← State.map_request same] at pending
  rw [change.rest]
  exact ⟨ready, line, pending⟩

theorem steady (steady : Steady disksize image out q rests d) :
    Steady disksize image out q rests d' := by
  refine ⟨change.core steady.toCore, change.queued steady.toQueued, ?_⟩
  have buf : ∀ b' ∈ q, d'.buf b' = d.buf b' := fun b' member =>
    change.buf_eq ((steady.mem b').mp (List.mem_append_right _ member))
  have disk := steady.disk
  cases rests with
  | true => exact change.resting buf disk
  | false =>
    cases q with
    | nil => exact change.resting buf disk
    | cons first rest =>
      obtain ⟨here, later⟩ := List.forall_mem_cons.mp buf
      rcases disk with executing | finished
      · obtain ⟨busy, line, current, range, pending⟩ := executing
        rw [← State.map_request buf] at pending
        rw [State.request, ← here] at current
        rw [← here] at busy range
        rw [change.rest]
        exact .inl ⟨busy, line, current, range, pending⟩
      · obtain ⟨⟨latch, ready, answered⟩, line, last, pending⟩ := finished
        rw [← State.map_request later] at pending
        rw [State.request, ← here] at last
        rw [← here] at answered
        rw [change.rest]
        exact .inr ⟨⟨latch, ready, answered⟩, line, last, pending⟩

theorem assertion (known : point.Assertion disksize image d) :
    point.Assertion disksize image d' := by
  refine known.congr change.steady (fun {b' t} queued => ?_) (fun {b' rest} steady => ?_)
    fun known => ⟨change.core known.1, ?_⟩
  · exact (change.stage b' (change.ne queued)).trans queued
  · refine ⟨change.buf_eq ((steady.mem b').mp (List.mem_cons_self ..)), ?_⟩
    rw [change.rest]
    exact ⟨rfl, rfl⟩
  · rw [change.rest]
    exact known.2

end Private

/-! ## The disk and the interrupt line -/

section

variable {out q rest : List Index} {rests : Bool} {c : Command} {latch : Block}

theorem Resting.not_busy (resting : Resting q d) : d.controller ≠ .busy c := by
  obtain ⟨latch, ready⟩ := resting.ready
  rw [ready]
  exact Controller.noConfusion

/-- The disk executes the command of the first buffer. -/
theorem Executing.serve (executing : Executing b rest d) (core : Core disksize image d)
    (queued : Queued out (b :: rest) d) (latch : Block) :
    Steady disksize image out (b :: rest) false (d.serve (command (d.buf b)) latch) := by
  obtain ⟨busy, line, current, range, pending⟩ := executing
  -- What the disk gives: the data that has been read, or anything after a write.
  obtain ⟨latch', drives, after, reads⟩ : ∃ latch' drives,
      d.serve (command (d.buf b)) latch =
        { d with
          controller := .ready latch'
          drives
          line := .raised
          served := d.served ++ [d.request b] } ∧
      ((d.buf b).dev = 1 →
        ((d.buf b).dirty = false → latch' = d.drives 1 (d.buf b).blockno) ∧
        drives 1 = if (d.buf b).dirty = true then
          update (d.drives 1) (d.buf b).blockno (d.buf b).data else d.drives 1) := by
    unfold State.serve command
    rw [current]
    by_cases dirty : (d.buf b).dirty = true
    · simp only [dirty, if_true]
      refine ⟨_, _, rfl, fun device => ⟨fun wrong => by simp at wrong, ?_⟩⟩
      have here : drive (d.buf b).dev = 1 := by
        rw [device]
        rfl
      rw [here, update_self, lba_eq range]
    · have clean : (d.buf b).dirty = false := by simpa using dirty
      simp only [clean, Bool.false_eq_true, if_false]
      refine ⟨_, _, rfl, fun device => ⟨fun _ => ?_, rfl⟩⟩
      have here : drive (d.buf b).dev = 1 := by
        rw [device]
        rfl
      rw [here, lba_eq range]
  rw [after]
  have waits (b' : Index) (member : b' ∈ b :: rest) : ∃ t, d.stage b' = .queued t :=
    (queued.mem b').mp (List.mem_append_right out member)
  have pending : d.arrived = d.served ++ [d.request b] ++ rest.map d.request := by
    rw [pending, List.append_assoc]
    rfl
  -- The synchronous driver serves the same request next.
  have next {disk : Disk} {answers : List Request}
      (ok : serial disksize image (d.served ++ [d.request b]) = .ok (disk, answers)) :
      drives 1 = disk ∧ ∃ before old, serial disksize image d.served = .ok (old, before) ∧
        answers = before ++ [(b, finish latch' (d.buf b))] := by
    obtain ⟨old, before, x, served, last, same⟩ := serial_concat ok
    obtain ⟨device, answer, written⟩ := memIderw_ok last
    obtain ⟨read, stored⟩ := reads device
    have image' := core.drive served
    refine ⟨?_, before, old, served, ?_⟩
    · rw [stored, image', written]
      rfl
    · rw [same, answer]
      change before ++ [(b, finish _ (d.buf b))] = _
      congr 3
      unfold finish
      by_cases dirty : (d.buf b).dirty = true
      · simp [dirty]
      · have clean : (d.buf b).dirty = false := by simpa using dirty
        rw [read clean, image']
        rfl
  refine ⟨⟨(fun busy => by cases busy), ⟨_, pending, ?_⟩, core.complete, fun ok => (next ok).1, ?_,
    core.accepted⟩, ⟨queued.chain, queued.mem, queued.off, queued.incomplete⟩,
    .inr ⟨⟨latch', rfl, ?_⟩, ?_,
    List.getLast?_concat, pending⟩⟩
  · intro r member
    obtain ⟨b', inside, rfl⟩ := List.mem_map.mp member
    exact waits b' (List.mem_cons_of_mem b inside)
  · intro disk answers b' t ok done
    obtain ⟨-, before, old, served, rfl⟩ := next ok
    have other : b ≠ b' := by
      rintro rfl
      obtain ⟨t', waiting⟩ := waits b (List.mem_cons_self ..)
      cases waiting.symm.trans done
    rw [lastAnswer_concat_of_ne other]
    exact core.answered served done
  · intro disk answers ok
    obtain ⟨-, before, old, -, rfl⟩ := next ok
    exact List.getLast?_concat
  · simp

theorem State.serve_stage (d : State Thread) (c : Command) (latch : Block) :
    (d.serve c latch).stage = d.stage := by
  unfold State.serve
  cases c.write <;> rfl

theorem State.serve_buf (d : State Thread) (c : Command) (latch : Block) :
    (d.serve c latch).buf = d.buf := by
  unfold State.serve
  cases c.write <;> rfl

theorem State.serve_line (d : State Thread) (c : Command) (latch : Block) :
    (d.serve c latch).line = .raised := by
  unfold State.serve
  cases c.write <;> rfl

section

variable (steady : Steady disksize image out q rests d)
include steady

/-- The disk finishes a command while the queue is in order. -/
theorem Steady.serve (busy : d.controller = .busy c) (latch : Block) :
    Steady disksize image out q rests (d.serve c latch) := by
  have disk := steady.disk
  cases rests with
  | true => exact (disk.not_busy busy).elim
  | false =>
    cases q with
    | nil => exact (Resting.not_busy disk busy).elim
    | cons first rest =>
      rcases disk with executing | finished
      · cases executing.busy.symm.trans busy
        exact executing.serve steady.toCore steady.toQueued latch
      · obtain ⟨latch', ready, -⟩ := finished.ready
        cases ready.symm.trans busy

/-- An interrupt is pending only when a command has been executed. -/
theorem Steady.finished (high : d.line ≠ .low) :
    rests = false ∧ ∃ first rest, q = first :: rest ∧ Finished disksize image first rest d := by
  have disk := steady.disk
  cases rests with
  | true => exact (high disk.line).elim
  | false =>
    cases q with
    | nil => exact (high disk.line).elim
    | cons first rest =>
      exact ⟨rfl, first, rest, rfl, disk.resolve_left fun executing => high executing.line⟩

/-- A process takes the interrupt. -/
theorem Steady.take (raised : d.line = .raised) (t : Thread) :
    Steady disksize image out q rests { d with line := .taken t } := by
  have high : d.line ≠ .low := by simp [raised]
  obtain ⟨rfl, first, rest, rfl, ready, -, last, pending⟩ := steady.finished high
  exact ⟨steady.toCore.touch fun busy => (high (steady.quiet busy)).elim,
    ⟨steady.chain, steady.mem, steady.off, steady.incomplete⟩, .inr ⟨ready, by simp, last, pending⟩⟩

end

/-- The disk may finish a command at any time. -/
theorem Point.Assertion.serve (known : point.Assertion disksize image d)
    (busy : d.controller = .busy c) (latch : Block) :
    point.Assertion disksize image (d.serve c latch) := by
  refine known.congr (fun steady => steady.serve busy latch) (fun queued => ?_)
    (fun steady => (steady.disk.not_busy busy).elim) fun ⟨_, latch', ready⟩ => ?_
  · rw [State.serve_stage]
    exact queued
  · cases ready.symm.trans busy

theorem Point.Assertion.take (known : point.Assertion disksize image d) (raised : d.line = .raised)
    (t : Thread) : point.Assertion disksize image { d with line := .taken t } := by
  have high : d.line ≠ .low := by simp [raised]
  exact known.congr (fun steady => steady.take raised t) id
    (fun steady => (high steady.disk.line).elim)
    fun ⟨core, ready⟩ => ⟨core.touch fun busy => (high (core.quiet busy)).elim, ready⟩

end

end Xv6.Ide
