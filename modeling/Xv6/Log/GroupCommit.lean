import Xv6.Lib.Tally
import Xv6.Log.State
import Xv6.Sync.Client

/-!
# Group commit with sleeping processes

`begin_op`, `log_write`, `end_op` and `commit` as a program of kernel threads: every
`acquire` and `release` of `log.lock`, every `sleep` and `wakeup` on the log and every
stretch of code between them is a step, and a process goes through any number of
brackets with any number of `log_write` calls.  The disk writes of `commit` leave the
variables of the log alone, so they are steps that change nothing here.
-/

namespace Xv6.Log.Group

open Sync Tally Function

/-- The variables of `log`, with `lh.block[0..lh.n-1]` as a list. -/
structure Vars where
  outstanding : Nat
  committing : Bool
  lh : List Nat
  deriving DecidableEq

/-- The panics of `log.c`. -/
inductive Panic
  | tooBig
  | outsideOfTrans
  | committing
  deriving DecidableEq

/-- The points of the program. -/
inductive Loc
  | outside
  -- begin_op
  | beginLock
  | beginTest
  | beginSleep
  | beginRelease
  -- between begin_op and end_op
  | inside
  | writeCheck (blockno : Nat)
  | writeLock (blockno : Nat)
  | write (blockno : Nat)
  | writeRelease
  -- end_op
  | endLock
  | endTest
  | endWake
  | endRelease
  | commitRelease
  -- commit
  | commitTest
  | writeLog
  | writeHead
  | installTrans
  | clear
  | eraseHead
  -- end_op after commit
  | doneLock
  | done
  | doneWake
  | doneRelease
  | panic (reason : Panic)
  deriving DecidableEq

/-- The address of `log`, the only sleep channel. -/
abbrev Chan := Unit

/-- `log.lock`, the only lock besides `ptable.lock`. -/
abbrev logLock : Option Unit := some ()

/-- `log.lh.n + (log.outstanding+1)*MAXOPBLOCKS <= LOGSIZE`, with no commit going on. -/
def Vars.Admits (log : Vars) : Prop :=
  log.committing = false ∧ log.lh.length + (log.outstanding + 1) * maxOpBlocks ≤ logSize

instance (log : Vars) : Decidable log.Admits :=
  inferInstanceAs (Decidable (_ ∧ _))

/-- One turn of the loop of `begin_op`. -/
def beginOp (log : Vars) : Vars × Loc :=
  if log.committing then (log, .beginSleep)
  else if log.lh.length + (log.outstanding + 1) * maxOpBlocks > logSize then (log, .beginSleep)
  else ({ log with outstanding := log.outstanding + 1 }, .beginRelease)

/-- `log_write` before it takes the lock; `size` is `log.size`. -/
def logWriteCheck (size blockno : Nat) (log : Vars) : Vars × Loc :=
  if log.lh.length ≥ logSize ∨ log.lh.length ≥ size - 1 then (log, .panic .tooBig)
  else if log.outstanding < 1 then (log, .panic .outsideOfTrans)
  else (log, .writeLock blockno)

/-- `log_write` under the lock.  A write past the end of `lh.block` has no defined
result. -/
def logWrite (blockno : Nat) (log : Vars) : Option (Vars × Loc) :=
  if log.lh.idxOf blockno < logSize then
    some ({ log with lh := if blockno ∈ log.lh then log.lh else log.lh ++ [blockno] },
      .writeRelease)
  else none

/-- `end_op` under the lock. -/
def endOp (log : Vars) : Vars × Loc :=
  let log := { log with outstanding := log.outstanding - 1 }
  if log.committing then (log, .panic .committing)
  else if log.outstanding = 0 then ({ log with committing := true }, .commitRelease)
  else (log, .endWake)

/-- What a process does at each point. -/
def op (size : Nat) : Loc → Op Chan Vars Loc
  | .outside => .compute fun log => some (log, .beginLock)
  | .beginLock => .acquire .beginTest
  | .beginTest => .compute fun log => some (beginOp log)
  | .beginSleep => .sleep () .beginTest
  | .beginRelease => .release .inside
  | .inside => .choose fun log =>
    insert (log, .endLock) (Set.range fun blockno => (log, .writeCheck blockno))
  | .writeCheck blockno => .compute fun log => some (logWriteCheck size blockno log)
  | .writeLock blockno => .acquire (.write blockno)
  | .write blockno => .compute (logWrite blockno)
  | .writeRelease => .release .inside
  | .endLock => .acquire .endTest
  | .endTest => .compute fun log => some (endOp log)
  | .endWake => .wakeup () .endRelease
  | .endRelease => .release .outside
  | .commitRelease => .release .commitTest
  | .commitTest => .compute fun log =>
    some (log, if log.lh.length > 0 then .writeLog else .doneLock)
  | .writeLog => .compute fun log => some (log, .writeHead)
  | .writeHead => .compute fun log => some (log, .installTrans)
  | .installTrans => .compute fun log => some (log, .clear)
  | .clear => .compute fun log => some ({ log with lh := [] }, .eraseHead)
  | .eraseHead => .compute fun log => some (log, .doneLock)
  | .doneLock => .acquire .done
  | .done => .compute fun log => some ({ log with committing := false }, .doneWake)
  | .doneWake => .wakeup () .doneRelease
  | .doneRelease => .release .outside
  | .panic _ => .compute fun _ => none

/-- The points at which `log.lock` is not held. -/
def unlocked : Loc → Bool
  | .beginTest | .beginSleep | .beginRelease | .write _ | .writeRelease | .endTest | .endWake
  | .endRelease | .commitRelease | .done | .doneWake | .doneRelease | .panic .committing => false
  | _ => true

/-- What a process is doing with the log. -/
inductive Phase
  | outside
  /-- Between its admission by `begin_op` and the end of its bracket in `end_op`. -/
  | active
  /-- From the decision to commit until `committing` is cleared. -/
  | committer
  /-- In `panic("log.committing")`. -/
  | panicked
  deriving DecidableEq

def phase : Loc → Phase
  | .outside | .beginLock | .beginTest | .beginSleep | .endWake | .endRelease | .doneWake
  | .doneRelease => .outside
  | .beginRelease | .inside | .writeCheck _ | .writeLock _ | .write _ | .writeRelease | .endLock
  | .endTest | .panic .tooBig | .panic .outsideOfTrans => .active
  | .commitRelease | .commitTest | .writeLog | .writeHead | .installTrans | .clear | .eraseHead
  | .doneLock | .done => .committer
  | .panic .committing => .panicked

/-- What a computation does to the log, one constructor for each way through the code.
A step that leaves the log alone is a `pass`. -/
inductive Move (log : Vars) : Loc → Vars → Loc → Prop
  | pass {ℓ next : Loc} : unlocked next = unlocked ℓ → phase next = phase ℓ → next ≠ .beginSleep →
      Move log ℓ log next
  | wait : ¬ log.Admits → Move log .beginTest log .beginSleep
  | join : log.Admits →
      Move log .beginTest { log with outstanding := log.outstanding + 1 } .beginRelease
  | record (blockno : Nat) :
      Move log (.write blockno)
        { log with lh := if blockno ∈ log.lh then log.lh else log.lh ++ [blockno] } .writeRelease
  | endPanic : log.committing = true →
      Move log .endTest { log with outstanding := log.outstanding - 1 } (.panic .committing)
  | commit : log.committing = false → log.outstanding - 1 = 0 →
      Move log .endTest { log with outstanding := log.outstanding - 1, committing := true }
        .commitRelease
  | leave : log.committing = false →
      Move log .endTest { log with outstanding := log.outstanding - 1 } .endWake
  | clear : Move log .clear { log with lh := [] } .eraseHead
  | finish : Move log .done { log with committing := false } .doneWake

theorem move_beginOp (log : Vars) : Move log .beginTest (beginOp log).1 (beginOp log).2 := by
  unfold beginOp
  split
  · rename_i committing
    exact .wait fun admits => by simp [admits.1] at committing
  · rename_i free
    split
    · rename_i full
      exact .wait fun admits => absurd admits.2 (by omega)
    · rename_i room
      exact .join ⟨by simpa using free, by omega⟩

theorem move_endOp (log : Vars) : Move log .endTest (endOp log).1 (endOp log).2 := by
  unfold endOp
  dsimp only
  split
  · rename_i committing
    exact .endPanic committing
  · rename_i free
    split
    · rename_i last
      exact .commit (by simpa using free) last
    · exact .leave (by simpa using free)

theorem move_logWriteCheck (size blockno : Nat) (log : Vars) :
    Move log (.writeCheck blockno) (logWriteCheck size blockno log).1
      (logWriteCheck size blockno log).2 := by
  unfold logWriteCheck
  split
  · exact .pass rfl rfl (by simp)
  · split
    · exact .pass rfl rfl (by simp)
    · exact .pass rfl rfl (by simp)

variable {log' : Vars} {next ℓ : Loc}

/-- Every computation of the program is a move. -/
theorem move_of_outcome {size : Nat} {log : Vars}
    (outcome : (log', next) ∈ (op size ℓ).outcomes log) : Move log ℓ log' next := by
  cases ℓ with
  | beginTest =>
    have move := move_beginOp log
    rwa [Option.some.inj outcome] at move
  | inside =>
    rcases outcome with outcome | ⟨blockno, outcome⟩ <;> cases outcome <;>
      exact .pass rfl rfl (by simp)
  | writeCheck blockno =>
    have move := move_logWriteCheck size blockno log
    rwa [Option.some.inj outcome] at move
  | write blockno =>
    obtain ⟨-, outcome⟩ := Option.ite_none_right_eq_some.mp outcome
    cases outcome
    exact .record blockno
  | endTest =>
    have move := move_endOp log
    rwa [Option.some.inj outcome] at move
  | commitTest =>
    cases outcome
    split <;> exact .pass rfl rfl (by simp)
  | clear =>
    cases outcome
    exact .clear
  | done =>
    cases outcome
    exact .finish
  | outside | writeLog | writeHead | installTrans | eraseHead =>
    cases outcome
    exact .pass rfl rfl (by simp)
  | _ => cases outcome

theorem Move.unlocked_eq {log : Vars} (move : Move log ℓ log' next) :
    unlocked next = unlocked ℓ := by
  cases move with
  | pass same => exact same
  | _ => rfl

/-- The code of the processes that use the log. -/
def client (size : Nat) (Thread : Type) : Client Thread Chan Vars Loc where
  op _ := op size
  outside := unlocked
  fits _ ℓ := by
    have computes log log' next (outcome : (log', next) ∈ (op size ℓ).outcomes log) :=
      (move_of_outcome outcome).unlocked_eq
    cases ℓ with
    | endWake | doneWake => rfl
    | beginLock | beginSleep | beginRelease | writeLock | writeRelease | endLock | endRelease
    | commitRelease | doneLock | doneRelease => exact ⟨rfl, rfl⟩
    | _ => exact computes

theorem phase_next {size : Nat} (follows : (op size ℓ).next? = some next) :
    phase next = phase ℓ := by
  cases ℓ <;> cases follows <;> rfl

/-! ## The protocol -/

section

variable {Thread : Type} [Fintype Thread] [DecidableEq Thread]

/-- `outstanding` counts the processes inside their brackets, `committing` marks the one
that commits and excludes them, and no block is listed twice. -/
structure Protocol (log : Vars) (phases : Thread → Phase) : Prop where
  counted : log.outstanding = tally phases .active
  marked : log.committing = true ↔ ∃ p, phases p = .committer
  single : ∀ {p q}, phases p = .committer → phases q = .committer → p = q
  quiet : log.committing = true → log.outstanding = 0
  nodup : log.lh.Nodup
  fine : ∀ p, phases p ≠ .panicked

namespace Protocol

variable {log : Vars} {phases : Thread → Phase} {p : Thread}

variable {x : Phase}

omit [Fintype Thread] in
/-- A process in another phase than the new one of `p` is not `p`. -/
theorem of_update {q : Thread} {y : Phase} (ne : x ≠ y) (here : update phases p x q = y) :
    q ≠ p ∧ phases q = y := by
  by_cases same : q = p
  · rw [same, update_self] at here
    exact (ne here).elim
  · rw [update_of_ne same] at here
    exact ⟨same, here⟩

variable (protocol : Protocol log phases)
include protocol

omit [DecidableEq Thread] in
theorem active_pos (active : phases p = .active) : 0 < log.outstanding := by
  rw [protocol.counted]
  exact tally_pos active

omit [DecidableEq Thread] in
/-- While a process is inside its bracket nobody commits. -/
theorem not_committing (active : phases p = .active) : log.committing = false := by
  by_contra committing
  have none := protocol.quiet (by simpa using committing)
  have some := protocol.active_pos active
  omega

/-- A computation that does not change the phase of its process. -/
theorem stay {lh : List Nat} (nodup : lh.Nodup) (same : phases p = x) :
    Protocol { log with lh } (update phases p x) := by
  subst same
  rw [update_eq_self]
  exact { protocol with nodup }

/-- `begin_op` admits a process. -/
theorem enter (idle : phases p = .outside) (free : log.committing = false) :
    Protocol { log with outstanding := log.outstanding + 1 }
      (update phases p .active) where
  counted := by
    have count := tally_update phases p .active .active
    rw [idle, ← protocol.counted] at count
    simpa using count.symm
  marked := by
    refine iff_of_false (by simp [free]) ?_
    rintro ⟨q, committer⟩
    have marked := protocol.marked.mpr ⟨q, (of_update (by simp) committer).2⟩
    simp [free] at marked
  single first second :=
    protocol.single (of_update (by simp) first).2 (of_update (by simp) second).2
  quiet committing := by simp [free] at committing
  nodup := protocol.nodup
  fine q panicked := protocol.fine q (of_update (by simp) panicked).2

/-- `end_op` of a process that is not the last one. -/
theorem leave (active : phases p = .active) :
    Protocol { log with outstanding := log.outstanding - 1 }
      (update phases p .outside) where
  counted := by
    have count := tally_update phases p .outside .active
    rw [active, ← protocol.counted] at count
    simp only [↓reduceIte, reduceCtorEq, Nat.add_zero] at count
    change log.outstanding - 1 = _
    omega
  marked := by
    have free := protocol.not_committing active
    refine iff_of_false (by simp [free]) ?_
    rintro ⟨q, committer⟩
    have marked := protocol.marked.mpr ⟨q, (of_update (by simp) committer).2⟩
    simp [free] at marked
  single first second :=
    protocol.single (of_update (by simp) first).2 (of_update (by simp) second).2
  quiet committing := by simp [protocol.not_committing active] at committing
  nodup := protocol.nodup
  fine q panicked := protocol.fine q (of_update (by simp) panicked).2

/-- `end_op` of the last process, which goes on to commit. -/
theorem commit (active : phases p = .active) (last : log.outstanding - 1 = 0) :
    Protocol { log with outstanding := log.outstanding - 1, committing := true }
      (update phases p .committer) := by
  -- Nobody else commits yet.
  have free (q : Thread) : phases q ≠ .committer := by
    intro committer
    have marked := protocol.marked.mpr ⟨q, committer⟩
    simp [protocol.not_committing active] at marked
  have only {q : Thread} (committer : update phases p .committer q = .committer) :
      q = p := by
    by_contra other
    rw [update_of_ne other] at committer
    exact free q committer
  exact
    { counted := by
        have count := tally_update phases p .committer .active
        rw [active, ← protocol.counted] at count
        simp only [↓reduceIte, reduceCtorEq, Nat.add_zero] at count
        change log.outstanding - 1 = _
        omega
      marked := iff_of_true rfl ⟨p, update_self _ _ _⟩
      single := fun first second => (only first).trans (only second).symm
      quiet := fun _ => last
      nodup := protocol.nodup
      fine := fun q panicked => protocol.fine q (of_update (by simp) panicked).2 }

/-- The end of a commit. -/
theorem finish (committer : phases p = .committer) :
    Protocol { log with committing := false } (update phases p .outside) where
  counted := by
    have count := tally_update phases p .outside .active
    rw [committer, ← protocol.counted] at count
    simpa using count.symm
  marked := by
    refine iff_of_false (by simp) ?_
    rintro ⟨q, another⟩
    obtain ⟨other, another⟩ := of_update (by simp) another
    exact other (protocol.single another committer)
  single first second :=
    protocol.single (of_update (by simp) first).2 (of_update (by simp) second).2
  quiet committing := by simp at committing
  nodup := protocol.nodup
  fine q panicked := protocol.fine q (of_update (by simp) panicked).2

omit protocol in
omit [DecidableEq Thread] in
theorem initial : Protocol ⟨0, false, []⟩ (fun _ : Thread => Phase.outside) where
  counted := (tally_eq_zero_iff.mpr fun _ => by simp).symm
  marked := by simp
  single first := by simp at first
  quiet committing := by simp at committing
  nodup := List.nodup_nil
  fine _ := by simp

/-- Every computation keeps the protocol. -/
theorem move (point : phases p = phase ℓ) (move : Move log ℓ log' next) :
    Protocol log' (update phases p (phase next)) := by
  cases move with
  | pass _ same => exact protocol.stay protocol.nodup (point.trans same.symm)
  | wait => exact protocol.stay protocol.nodup point
  | join admits => exact protocol.enter point admits.1
  | record blockno =>
    apply protocol.stay _ point
    split
    · exact protocol.nodup
    · rename_i fresh
      refine List.nodup_append.mpr ⟨protocol.nodup, List.nodup_singleton _, ?_⟩
      rintro a member b only rfl
      exact fresh (List.mem_singleton.mp only ▸ member)
  | endPanic committing => simp [protocol.not_committing point] at committing
  | commit free last => exact protocol.commit point last
  | leave free => exact protocol.leave point
  | clear => exact protocol.stay List.nodup_nil point
  | finish => exact protocol.finish point

end Protocol

end

/-! ## Sleepers -/

/-- What is known of the log at each point. -/
def Known {Thread : Type} (_ : Thread) (ℓ : Loc) (log : Vars) : Prop :=
  phase ℓ = .committer → log.committing = true

/-- Admission is guarded by `log.lock`: `end_op` wakes the log when it makes room, and
after a commit. -/
theorem guards (size : Nat) (Thread : Type) : (client size Thread).program.Guards logLock ()
    Vars.Admits fun ℓ => Known ℓ.proc ℓ.point := by
  refine Client.guards (fun {_ ℓ next _ _ _} leads sleeps _ => ?_)
    fun {_ ℓ log log' next} outcome known before holds => ?_
  · have target : next = .beginSleep := by
      change op size next = _ at sleeps
      cases next <;> cases sleeps
      rfl
    subst target
    rcases leads with ⟨follows, -⟩ | outcome
    · change (op size ℓ).next? = _ at follows
      cases ℓ <;> cases follows
    · cases move_of_outcome outcome with
      | pass _ _ other => exact (other rfl).elim
      | wait full => exact full
  · cases move_of_outcome outcome with
    | pass | wait => exact (before holds).elim
    | join admits => exact (before admits).elim
    | record blockno =>
      refine (before ⟨holds.1, ?_⟩).elim
      have room := holds.2
      simp only at room
      split at room
      · exact room
      · rw [List.length_append] at room
        omega
    | endPanic committing =>
      have free := holds.1
      simp [committing] at free
    | commit => exact absurd holds.1 (by simp)
    | leave | finish => exact ⟨rfl, _, rfl⟩
    | clear =>
      have free := holds.1
      simp [known rfl] at free

/-! ## All interleavings -/

/-- Processors with `n` processes that use the log. -/
abbrev Kernel (Cpu : Type) (n : Nat) := System Cpu (Fin n) Unit Chan Vars (At (Fin n) Loc)

section

variable {Cpu : Type} [DecidableEq Cpu] {n size : Nat}

/-- The machine after `initlog`. -/
def start : Kernel Cpu n :=
  System.boot ⟨0, false, []⟩ fun p => ⟨p, .outside⟩

variable {s s' : Kernel Cpu n}

theorem protocol_reachable
    (run : Reachable (client size (Fin n)).program (List.finRange n) start s) :
    Protocol s.data fun p => phase (s.ctl p).loc.point :=
  tracked_of_run (fun ℓ : At (Fin n) Loc => phase ℓ.point)
    (fun follows => phase_next (Op.of_next? follows).2) Protocol.initial
    (fun _ here outcome point protocol =>
      protocol.move point (move_of_outcome (Op.of_compute here outcome).2)) run

theorem heard_reachable (run : Reachable (client size (Fin n)).program (List.finRange n) start s) :
    Exclusive (client size (Fin n)).program s ∧
      Heard (client size (Fin n)).program logLock () Vars.Admits s := by
  have inv : Exclusive (client size (Fin n)).program (start : Kernel Cpu n) :=
    Exclusive.boot _ fun _ => rfl
  refine ⟨inv.reachable run, ?_⟩
  refine Heard.reachable (guards size _) List.mem_finRange inv (Heard.boot _ _ _) ?_ run
  intro s run p ℓ point committer
  refine (protocol_reachable run).marked.mpr ⟨p, ?_⟩
  rw [point]
  exact committer

/-- While a process commits, a step admits nobody to the log and records no block. -/
theorem committing_step {p : Fin n}
    (run : Reachable (client size (Fin n)).program (List.finRange n) start s)
    (committer : phase (s.ctl p).loc.point = .committer)
    (step : Step (client size (Fin n)).program (List.finRange n) s s') :
    s'.data.outstanding = 0 ∧ (s'.data.lh = s.data.lh ∨ s'.data.lh = []) := by
  have protocol := protocol_reachable run
  have committing := protocol.marked.mpr ⟨p, committer⟩
  have zero := protocol.quiet committing
  have split : Passive (fun _ => ()) s s' ∨ ∃ p ℓ next, Computes _ p s s' ℓ next :=
    step.passive_or_computes fun _ => rfl
  rcases split with passive | ⟨q, ℓ, next, computation⟩
  · rw [passive.data]
    exact ⟨zero, .inl rfl⟩
  · obtain ⟨outcomes, here, outcome⟩ := computation.outcome
    -- A process inside its bracket would exclude the commit.
    have notActive : phase ℓ.point ≠ .active := by
      intro active
      have free := protocol.not_committing (p := q) (by rw [computation.point]; exact active)
      simp [committing] at free
    generalize target : s'.data = log' at outcome ⊢
    have move := move_of_outcome (Op.of_compute here outcome).2
    generalize ℓ.point = point at move notActive
    generalize next.point = point' at move
    cases move with
    | pass | wait | finish => exact ⟨zero, .inl rfl⟩
    | join admits =>
      have free := admits.1
      simp [committing] at free
    | record | endPanic | commit | leave => exact (notActive rfl).elim
    | clear => exact ⟨zero, .inr rfl⟩

/-- The group commit protocol, in every state of every interleaving: a process that
commits does so with `outstanding` at 0 and `committing` set; until it has cleared
`committing`, no process is between `begin_op` and `end_op`, none is admitted and no
block is recorded; `end_op` does not reach `panic("log.committing")`; no block is listed
twice; and while `log.lock` is free nobody sleeps in `begin_op` who could be
admitted. -/
theorem group_commit (run : Reachable (client size (Fin n)).program (List.finRange n) start s) :
    (∀ p, phase (s.ctl p).loc.point = .committer →
      s.data.outstanding = 0 ∧ s.data.committing = true ∧
      (∀ q, phase (s.ctl q).loc.point ≠ .active) ∧
      ∀ s', Step (client size (Fin n)).program (List.finRange n) s s' →
        s'.data.outstanding = 0 ∧ (s'.data.lh = s.data.lh ∨ s'.data.lh = [])) ∧
    (∀ p, (s.ctl p).loc.point ≠ .panic .committing) ∧
    s.data.lh.Nodup ∧
    (s.holder logLock = none → s.data.Admits →
      ∀ p, ¬ (s.state p = .sleeping ∧ s.chan p = some ())) := by
  have protocol := protocol_reachable run
  obtain ⟨exclusive, heard⟩ := heard_reachable run
  refine ⟨fun p committer => ?_, fun p panicked => ?_, protocol.nodup, fun free admits p => ?_⟩
  · have committing := protocol.marked.mpr ⟨p, committer⟩
    refine ⟨protocol.quiet committing, committing, fun q active => ?_,
      fun s' step => committing_step run committer step⟩
    have free := protocol.not_committing active
    simp [committing] at free
  · apply protocol.fine p
    rw [panicked]
    rfl
  · exact heard.not_sleeping exclusive free admits p

/-- A stretch of a run. -/
theorem turns_run {k : Nat} (c : Cpu) (p : Fin n) (taken : s.turns (client size (Fin n)).program
      (List.finRange n) (client size (Fin n)).outcome (fun _ => true) c p k = some s') :
    Reachable (client size (Fin n)).program (List.finRange n) s s' :=
  (reaches_of_turns Client.offers taken).lift id fun _ _ => And.left

theorem step_inside {c : Cpu} {p : Fin n} (next : Loc) (here : s.cur c = some p)
    (control : s.ctl p = .run ⟨p, .inside⟩)
    (chosen : (s.data, next) ∈ (op size .inside).outcomes s.data) :
    Step (client size (Fin n)).program (List.finRange n) s (s.setCtl p (.run ⟨p, next⟩)) :=
  Client.step_of_choose here control rfl chosen

end

/-- A process that commits a block that it has logged, while another one sleeps in `begin_op`. -/
theorem exists_committing : ∃ s : Kernel (Fin 2) 2,
    Reachable (client logSize (Fin 2)).program (List.finRange 2) start s ∧
      phase (s.ctl 0).loc.point = .committer ∧ s.data.lh = [7] ∧ s.state 1 = .sleeping := by
  refine ⟨_, turns_run (k := 8) 0 0 rfl
    |>.tail (step_inside (c := 0) (p := 0) (.writeCheck 7) rfl rfl (.inr ⟨7, rfl⟩))
    |>.trans (turns_run (k := 4) 0 0 rfl)
    |>.tail (step_inside (c := 0) (p := 0) .endLock rfl rfl (.inl rfl))
    |>.trans (turns_run (k := 3) 0 0 rfl)
    |>.trans (turns_run (k := 13) 1 1 rfl), rfl, rfl, rfl⟩

/-- In that run nobody is admitted. -/
theorem admitted_orderly : ∃ s : Kernel (Fin 2) 2, s.data.lh = [7] ∧ s.state 1 = .sleeping ∧
    s.data.outstanding = 0 ∧ s.data.committing = true ∧
    ∀ q, phase (s.ctl q).loc.point ≠ .active := by
  obtain ⟨s, run, committer, listed, asleep⟩ := exists_committing
  obtain ⟨none, committing, others, -⟩ := (group_commit run).1 0 committer
  exact ⟨s, listed, asleep, none, committing, others⟩

end Xv6.Log.Group
