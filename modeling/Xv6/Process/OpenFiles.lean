import Xv6.Process.Lineage

/-!
# The process tree and the open files

The open files and the current directory of each slot are added to the kernel, with the
steps that write them: the loop of `fork` that copies them, the loop of `exit` that
closes them before the locked part, and system calls between.  A process in `exit` opens
nothing any more, so a zombie holds no file, and neither does a free slot.
-/

namespace Xv6.Process

open Labelled Function

/-- `NOFILE`: the number of descriptors of a process. -/
def nofile : Nat := 16

instance : NeZero nofile := ⟨by decide⟩

/-- How far a call of `exit` has come before its locked part. -/
inductive ExitStage
  /-- The loop over the descriptors is at `fd`. -/
  | closing (fd : Nat)
  /-- The current directory is released too. -/
  | closed
  deriving DecidableEq

/-- The kernel with the open files and the current directory of each slot. -/
structure Machine (Cpu : Type) where
  kernel : Kernel Cpu
  ofile : Slot → Fin nofile → Option Nat
  cwd : Slot → Option Nat
  exiting : Slot → Option ExitStage
  /-- The `fork` in progress has copied the files. -/
  copied : Slot → Bool

/-- The steps of the kernel and those that write the files of a slot. -/
inductive FileAction (Cpu : Type)
  | kernel (action : Action Cpu)
  /-- A system call of a running process sets or clears a descriptor. -/
  | setFile (c : Cpu) (fd : Fin nofile) (file : Option Nat)
  | chdir (c : Cpu) (ip : Nat)
  | beginExit (c : Cpu)
  | closeFile (c : Cpu)
  | putCwd (c : Cpu)
  | copyFiles (c : Cpu)

namespace Machine

variable {Cpu : Type}

/-- The process of CPU `c`, when it runs system calls: not in `fork` or `exit`, and not in a
locked stretch. -/
def user [DecidableEq Cpu] (m : Machine Cpu) (c : Cpu) : Option Slot := do
  guard (m.kernel.lock ≠ some c)
  let p ← m.kernel.caller c
  guard (m.exiting p = none)
  some p

/-- A process in `exit` makes no other call; the locked part comes after the files are closed.
The locked part of `fork` comes after the files are copied. -/
def permits [DecidableEq Cpu] (m : Machine Cpu) : Action Cpu → Bool
  | .exit c => (m.kernel.caller c).any fun p => m.exiting p = some .closed
  | .allocproc c | .wait c | .setpriority c _ | .trap c =>
    (m.kernel.caller c).any fun p => m.exiting p = none
  | .publish c => (m.kernel.forker c).any fun (p, _, _) => m.copied p
  | _ => true

/-- The stages of `exit` and `fork` after a kernel step. -/
def afterStep (m : Machine Cpu) : Action Cpu → Machine Cpu
  | .exit c =>
    match m.kernel.caller c with
    | some p => { m with exiting := update m.exiting p none }
    | none => m
  | .allocproc c =>
    match m.kernel.caller c with
    | some p => { m with copied := update m.copied p false }
    | none => m
  | _ => m

/-- The transition function. -/
def step [DecidableEq Cpu] (m : Machine Cpu) : FileAction Cpu → Option (Machine Cpu)
  | .kernel action => do
      guard (m.permits action)
      let (_, k) ← m.kernel.step action
      some { m.afterStep action with kernel := k }
  | .setFile c fd file => do
      let p ← m.user c
      some { m with ofile := update m.ofile p (update (m.ofile p) fd file) }
  | .chdir c ip => do
      let p ← m.user c
      some { m with cwd := update m.cwd p (some ip) }
  -- the part of `exit` before its lock
  | .beginExit c => do
      let p ← m.user c
      guard (p ≠ m.kernel.initproc)
      some { m with exiting := update m.exiting p (some (.closing 0)) }
  | .closeFile c => do
      guard (m.kernel.lock ≠ some c)
      let p ← m.kernel.caller c
      match m.exiting p with
      | some (.closing fd) =>
        if inside : fd < nofile then
          some { m with
            ofile := update m.ofile p (update (m.ofile p) ⟨fd, inside⟩ none)
            exiting := update m.exiting p (some (.closing (fd + 1))) }
        else none
      | _ => none
  | .putCwd c => do
      guard (m.kernel.lock ≠ some c)
      let p ← m.kernel.caller c
      guard (m.exiting p = some (.closing nofile))
      some { m with
        cwd := update m.cwd p none
        exiting := update m.exiting p (some .closed) }
  -- the loop of `fork` over the descriptors, and `np->cwd`
  | .copyFiles c => do
      let (p, stage, np) ← m.kernel.forker c
      guard (stage = .prepared)
      some { m with
        ofile := update m.ofile np fun fd => (m.ofile p fd).or (m.ofile np fd)
        cwd := update m.cwd np (m.cwd p)
        copied := update m.copied p true }

/-- After `userinit`: only the first process has a current directory. -/
def boot (k : Kernel Cpu) (root : Nat) : Machine Cpu where
  kernel := k
  ofile _ _ := none
  cwd p := if p = k.initproc then some root else none
  exiting _ := none
  copied _ := false

/-- The step relation, labelled by the actions. -/
def Step [DecidableEq Cpu] (m : Machine Cpu) (action : FileAction Cpu) (m' : Machine Cpu) : Prop :=
  m.step action = some m'

/-- A state of some run. -/
def Reachable [DecidableEq Cpu] (m : Machine Cpu) : Prop :=
  ∃ k root actions, Kernel.userinit = some k ∧ Trace Step (boot k root) actions m

/-- The slot holds no file and no directory. -/
def Empty (m : Machine Cpu) (p : Slot) : Prop :=
  (∀ fd, m.ofile p fd = none) ∧ m.cwd p = none

/-- Which slots hold nothing. -/
structure Closed (m : Machine Cpu) : Prop where
  gone : ∀ q, (m.kernel.ptable.proc q).state = .unused ∨
    (m.kernel.ptable.proc q).state = .zombie → m.Empty q
  unborn : ∀ p stage np, m.kernel.forking p = some (stage, np) → stage ≠ .prepared → m.Empty np
  closing : ∀ p fd, m.exiting p = some (.closing fd) → ∀ i : Fin nofile, i < fd →
    m.ofile p i = none
  closed : ∀ p, m.exiting p = some .closed → m.Empty p
  alive : ∀ p, m.exiting p ≠ none → (m.kernel.ptable.proc p).state.alive = true

variable {m m' : Machine Cpu} {l : Lists} {events : List Event} {event : Event} {p : Slot} {c : Cpu}

@[simp]
theorem afterStep_ofile (m : Machine Cpu) (action : Action Cpu) :
    (m.afterStep action).ofile = m.ofile := by
  unfold afterStep
  repeat' split
  all_goals rfl

@[simp]
theorem afterStep_cwd (m : Machine Cpu) (action : Action Cpu) :
    (m.afterStep action).cwd = m.cwd := by
  unfold afterStep
  repeat' split
  all_goals rfl

theorem exiting_of_afterStep {action : Action Cpu} {stage : ExitStage}
    (after : (m.afterStep action).exiting p = some stage) : m.exiting p = some stage := by
  unfold afterStep at after
  repeat' split at after
  all_goals try exact after
  rename_i self call
  by_cases same : p = self
  · simp [same] at after
  · simpa [same] using after

/-- A kernel step keeps the slots empty that have to be, if an exiting process has closed its
files. -/
theorem Closed.change (closed : m.Closed) (change : m.kernel.Change event m'.kernel)
    (ofile : m'.ofile = m.ofile) (cwd : m'.cwd = m.cwd)
    (exiting : ∀ p stage, m'.exiting p = some stage → m.exiting p = some stage)
    (exits : ∀ self, event = .exited (m.kernel.ptable.proc self).pid →
      (m.kernel.ptable.proc self).state = .running → m.Empty self ∧ m'.exiting self = none) :
    m'.Closed := by
  have empty : ∀ {q : Slot}, m.Empty q → m'.Empty q := by
    rintro q ⟨files, directory⟩
    exact ⟨by rwa [ofile], by rwa [cwd]⟩
  have exitingBefore : ∀ {q : Slot}, m'.exiting q ≠ none → m.exiting q ≠ none := by
    intro q busy
    obtain ⟨stage, isStage⟩ := Option.ne_none_iff_exists'.mp busy
    simp [exiting q stage isStage]
  -- the clauses about `exit` only look at the files
  suffices states : (∀ q, (m'.kernel.ptable.proc q).state = .unused ∨
        (m'.kernel.ptable.proc q).state = .zombie → m.Empty q) ∧
      (∀ p stage np, m'.kernel.forking p = some (stage, np) → stage ≠ .prepared → m.Empty np) ∧
      (∀ p, m'.exiting p ≠ none → (m'.kernel.ptable.proc p).state.alive = true) by
    refine ⟨fun q dead => empty (states.1 q dead),
      fun p stage np busy early => empty (states.2.1 p stage np busy early), ?_, ?_, states.2.2⟩
    · intro p fd isClosing i below
      rw [ofile]
      exact closed.closing p fd (exiting p _ isClosing) i below
    · exact fun p isClosed => empty (closed.closed p (exiting p _ isClosed))
  have gone : ∀ {np : Slot} {new : Proc},
      m'.kernel.ptable.proc = update m.kernel.ptable.proc np new → m.Empty np → ∀ q,
      (m'.kernel.ptable.proc q).state = .unused ∨ (m'.kernel.ptable.proc q).state = .zombie →
        m.Empty q := by
    intro np new table isEmpty q dead
    rw [table] at dead
    by_cases same : q = np
    · rwa [same]
    · rw [update_of_ne same] at dead
      exact closed.gone q dead
  have unborn : ∀ {p : Slot} {next : Option (ForkStage × Slot)},
      m'.kernel.forking = update m.kernel.forking p next →
      (∀ stage np, next = some (stage, np) → m.Empty np) → ∀ q stage np,
      m'.kernel.forking q = some (stage, np) → stage ≠ .prepared → m.Empty np := by
    intro p next forking isEmpty q stage np busy early
    rw [forking] at busy
    by_cases same : q = p
    · rw [same, update_self] at busy
      exact isEmpty stage np busy
    · rw [update_of_ne same] at busy
      exact closed.unborn q stage np busy early
  have alive : ∀ {np : Slot} {new : Proc},
      m'.kernel.ptable.proc = update m.kernel.ptable.proc np new →
      (m.kernel.ptable.proc np).state.alive = false → ∀ q, m'.exiting q ≠ none →
      (m'.kernel.ptable.proc q).state.alive = true := by
    intro np new table dead q busy
    have alive := closed.alive q (exitingBefore busy)
    have other : q ≠ np := by
      rintro rfl
      simp [dead] at alive
    rwa [table, update_of_ne other]
  cases change with
  | mild mild forking initproc nextpid quiet waits =>
    refine ⟨fun q dead => ?_, fun p stage np busy => ?_, fun p busy => ?_⟩
    · rw [(mild q).state_iff rfl, (mild q).state_iff rfl] at dead
      exact closed.gone q dead
    · rw [forking] at busy
      exact closed.unborn p stage np busy
    · rw [(mild p).alive_iff]
      exact closed.alive p (exitingBefore busy)
  | alloc p np running whole unused unowned table forking initproc nextpid =>
    have emptySlot := closed.gone np (.inl unused)
    refine ⟨gone table emptySlot, unborn forking ?_, alive table (by rw [unused]; rfl)⟩
    rintro _ _ isNext
    cases isNext
    exact emptySlot
  | advance p np stage stage' new running embryo inProgress early table state pid parent orphan
      forking initproc nextpid =>
      have emptySlot := closed.unborn p stage np inProgress early
      refine ⟨gone table emptySlot, unborn forking ?_, alive table (by rw [embryo]; rfl)⟩
      rintro _ _ isNext
      cases isNext
      exact emptySlot
  | free p np locked inProgress table forking initproc nextpid =>
    rw [table]
    exact ⟨closed.gone, unborn forking (by simp),
      fun q busy => closed.alive q (exitingBefore busy)⟩
  | publish p np running embryo inProgress table forking initproc nextpid =>
    refine ⟨fun q dead => ?_, unborn forking (by simp), alive table (by rw [embryo]; rfl)⟩
    rw [table] at dead
    have other : q ≠ np := by
      rintro rfl
      simp at dead
    rw [update_of_ne other] at dead
    exact closed.gone q dead
  | reap caller z zombie table forking initproc nextpid =>
    rw [forking]
    exact ⟨gone table (closed.gone z (.inr zombie)), closed.unborn,
      alive table (by rw [zombie]; rfl)⟩
  | exit self running whole notInit table forking initproc nextpid =>
    obtain ⟨emptySelf, left⟩ := exits self rfl running
    refine ⟨fun q dead => ?_, fun q stage slot busy => ?_, fun q busy => ?_⟩
    · rw [table] at dead
      by_cases same : q = self
      · subst same
        exact emptySelf
      · rcases m.kernel.ptable.exited_state_of_ne m.kernel.initproc same with kept | ⟨-, awake⟩
        · rw [kept] at dead
          exact closed.gone q dead
        · simp [awake] at dead
    · rw [forking] at busy
      exact closed.unborn q stage slot busy
    · have alive := closed.alive q (exitingBefore busy)
      have other : q ≠ self := by
        rintro rfl
        exact busy left
      rw [table]
      rcases m.kernel.ptable.exited_state_of_ne m.kernel.initproc other with kept | ⟨-, awake⟩
      · rwa [kept]
      · rw [awake]
        rfl

/-- A step of the files of one running process. -/
theorem Closed.files (closed : m.Closed) (inv : m.kernel.Inv l) (kernel : m'.kernel = m.kernel)
    (running : (m.kernel.ptable.proc p).state = .running) (ofile : ∀ q ≠ p, m'.ofile q = m.ofile q)
    (cwd : ∀ q ≠ p, m'.cwd q = m.cwd q) (exiting : ∀ q ≠ p, m'.exiting q = m.exiting q)
    (closing : ∀ fd, m'.exiting p = some (.closing fd) → ∀ i : Fin nofile, i < fd →
      m'.ofile p i = none) (isClosed : m'.exiting p = some .closed → m'.Empty p) : m'.Closed := by
  have empty : ∀ {q : Slot}, q ≠ p → m.Empty q → m'.Empty q := by
    rintro q other ⟨files, directory⟩
    exact ⟨by rwa [ofile q other], by rwa [cwd q other]⟩
  constructor
  · intro q dead
    rw [kernel] at dead
    have other : q ≠ p := by
      rintro rfl
      simp [running] at dead
    exact empty other (closed.gone q dead)
  · intro q stage np busy early
    rw [kernel] at busy
    have other : np ≠ p := by
      rintro rfl
      have state := inv.stage q stage np busy
      cases stage <;> simp [running, ForkStage.slotState] at state
    exact empty other (closed.unborn q stage np busy early)
  · intro q fd busy i below
    by_cases same : q = p
    · subst same
      exact closing fd busy i below
    · rw [ofile q same]
      rw [exiting q same] at busy
      exact closed.closing q fd busy i below
  · intro q busy
    by_cases same : q = p
    · subst same
      exact isClosed busy
    · rw [exiting q same] at busy
      exact empty same (closed.closed q busy)
  · intro q busy
    rw [kernel]
    by_cases same : q = p
    · rw [same, running]
      rfl
    · rw [exiting q same] at busy
      exact closed.alive q busy

variable [DecidableEq Cpu]

attribute [local simp] Option.bind_eq_some_iff

theorem user_eq_some (isUser : m.user c = some p) :
    m.kernel.proc c = some p ∧ m.exiting p = none := by
  simp [user] at isUser
  obtain ⟨-, call, idle⟩ := isUser
  exact ⟨(Kernel.caller_eq_some call).1, idle⟩

/-- Every step keeps the slots empty that have to be. -/
theorem Closed.step {action : FileAction Cpu} (closed : m.Closed) (inv : m.kernel.Inv l)
    (taken : m.step action = some m') : m'.Closed := by
  have running : ∀ {c : Cpu} {p : Slot}, m.kernel.proc c = some p →
      (m.kernel.ptable.proc p).state = .running := fun current => (inv.running _).mpr ⟨_, current⟩
  cases action with
  | kernel action =>
    simp [Machine.step] at taken
    obtain ⟨permitted, event, k, moved, rfl⟩ := taken
    refine closed.change (inv.change (Kernel.step_move ⟨action, moved⟩)) (by simp) (by simp)
      (fun p stage => exiting_of_afterStep) ?_
    rintro self rfl isRunning
    obtain ⟨c, p, rfl, call, samePid⟩ := Kernel.exit_of_exited moved
    obtain rfl : self = p :=
      inv.pid_inj self p samePid.symm (inv.pid_live self (by simp [isRunning]))
    have isClosed : m.exiting self = some .closed := by simpa [permits, call] using permitted
    exact ⟨closed.closed self isClosed, by simp [afterStep, call]⟩
  | setFile c fd file =>
    simp [Machine.step] at taken
    obtain ⟨p, isUser, rfl⟩ := taken
    obtain ⟨current, idle⟩ := user_eq_some isUser
    exact closed.files inv rfl (running current) (fun q other => update_of_ne other _ _)
      (fun _ _ => rfl) (fun _ _ => rfl) (by simp [idle]) (by simp [idle])
  | chdir c ip =>
    simp [Machine.step] at taken
    obtain ⟨p, isUser, rfl⟩ := taken
    obtain ⟨current, idle⟩ := user_eq_some isUser
    exact closed.files inv rfl (running current) (fun _ _ => rfl)
      (fun q other => update_of_ne other _ _) (fun _ _ => rfl) (by simp [idle])
      (by simp [idle])
  | beginExit c =>
    simp [Machine.step] at taken
    obtain ⟨p, isUser, -, rfl⟩ := taken
    obtain ⟨current, -⟩ := user_eq_some isUser
    refine closed.files inv rfl (running current) (fun _ _ => rfl) (fun _ _ => rfl)
      (fun q other => update_of_ne other _ _) ?_ (by simp)
    intro fd isClosing i below
    obtain rfl : 0 = fd := by simpa using isClosing
    exact absurd below (Nat.not_lt_zero _)
  | closeFile c =>
    simp [Machine.step] at taken
    obtain ⟨-, p, call, taken⟩ := taken
    have current := (Kernel.caller_eq_some call).1
    split at taken
    · rename_i fd isClosing
      rw [Option.dite_none_right_eq_some] at taken
      obtain ⟨inside, taken⟩ := taken
      cases taken
      refine closed.files inv rfl (running current)
        (fun q other => update_of_ne other _ _) (fun _ _ => rfl)
        (fun q other => update_of_ne other _ _) ?_ (by simp)
      intro fd' isNext i below
      obtain rfl : fd + 1 = fd' := by simpa using isNext
      by_cases same : i = ⟨fd, inside⟩
      · simp [same]
      · have earlier : (i : Nat) < fd := by
          have different : (i : Nat) ≠ fd := fun equal => same (Fin.ext equal)
          omega
        simpa [same] using closed.closing p fd isClosing i earlier
    · cases taken
  | putCwd c =>
    simp [Machine.step] at taken
    obtain ⟨-, p, call, isClosing, rfl⟩ := taken
    have current := (Kernel.caller_eq_some call).1
    refine closed.files inv rfl (running current) (fun _ _ => rfl)
      (fun q other => update_of_ne other _ _)
      (fun q other => update_of_ne other _ _) (by simp) fun _ => ?_
    exact ⟨fun fd => closed.closing p nofile isClosing fd fd.isLt, by simp⟩
  | copyFiles c =>
    simp [Machine.step, Kernel.forker] at taken
    obtain ⟨p, np, ⟨-, -, inProgress⟩, rfl⟩ := taken
    have embryo : (m.kernel.ptable.proc np).state = .embryo := inv.stage p _ np inProgress
    have idle : m.exiting np = none := by
      by_contra busy
      have alive := closed.alive np busy
      simp [embryo, ProcState.alive] at alive
    have empty : ∀ q ≠ np, m.Empty q → Empty { m with
        ofile := update m.ofile np fun fd => (m.ofile p fd).or (m.ofile np fd)
        cwd := update m.cwd np (m.cwd p)
        copied := update m.copied p true } q := by
      intro q other isEmpty
      simpa [Empty, other] using isEmpty
    refine ⟨fun q dead => empty q ?_ (closed.gone q dead),
      fun q stage slot busy early => empty slot ?_ (closed.unborn q stage slot busy early),
      fun q fd isClosing i below => ?_, fun q isClosed => empty q ?_ (closed.closed q isClosed),
      closed.alive⟩
    · rintro rfl
      simp [embryo] at dead
    · rintro rfl
      obtain rfl := inv.owner q p _ _ slot busy inProgress
      have same := busy.symm.trans inProgress
      simp only [Option.some.injEq, Prod.mk.injEq, and_true] at same
      exact early same
    · have other : q ≠ np := by
        rintro rfl
        simp [idle] at isClosing
      simpa [other] using closed.closing q fd isClosing i below
    · rintro rfl
      simp [idle] at isClosed

omit [DecidableEq Cpu] in
theorem Closed.boot {k : Kernel Cpu} (booted : Kernel.userinit = some k) (root : Nat) :
    (boot k root).Closed := by
  obtain ⟨l, first⟩ := Kernel.Booted.of_userinit booted
  refine ⟨fun q dead => ?_, by simp [Machine.boot, first.whole], by simp [Machine.boot],
    by simp [Machine.boot], by simp [Machine.boot]⟩
  have other : q ≠ k.initproc := by
    rintro rfl
    simp [Machine.boot, first.runnable] at dead
  simp [Empty, Machine.boot, other]

end Machine

end Xv6.Process
