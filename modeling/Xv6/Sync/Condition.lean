import Xv6.Sync.Wakeup

/-!
# Waiting for a flag

The usual protocol of `sleep` and `wakeup` on one flag.  A thread that waits runs
`acquire(lk); while(!cond) sleep(chan, lk); ...; release(lk)` and may reset the flag
before it gives back the lock.  A thread that signals runs
`acquire(lk); cond = 1; wakeup(chan); release(lk)`.  Every thread does one or the
other, over and over.  The lock may be `ptable.lock` itself; then the signal uses
`wakeup1`.
-/

namespace Xv6.Sync

namespace Condition

/-- The points of the program. -/
inductive Loc
  | idle
  | waitLock
  | test
  | sleep
  | body
  | waitRelease
  | signalLock
  | signal
  | wake
  | signalRelease
  deriving DecidableEq

/-- The lock of the flag: `ptable.lock` when it is shared. -/
def lock (shared : Bool) : Option Unit :=
  if shared then none else some ()

/-- The instructions; the data is the flag. -/
def code (shared : Bool) : Loc → Instr Unit Unit Bool Loc
  | .idle => .compute fun cond => {(cond, .waitLock), (cond, .signalLock)}
  | .waitLock => .acquire (lock shared) .test
  | .test => .compute fun cond => {(cond, if cond then .body else .sleep)}
  | .sleep => .sleep () (lock shared) .test
  | .body => .compute fun cond => {(cond, .waitRelease), (false, .waitRelease)}
  | .waitRelease => .release (lock shared) .idle
  | .signalLock => .acquire (lock shared) .signal
  | .signal => .compute fun _ => {(true, .wake)}
  | .wake => if shared then .wakeup1 () .signalRelease else .wakeup () .signalRelease
  | .signalRelease => .release (lock shared) .idle

/-- The locks held at each point. -/
def held (shared : Bool) : Loc → Set (Option Unit)
  | .idle | .waitLock | .signalLock => ∅
  | .test | .sleep | .body | .waitRelease | .signal | .wake | .signalRelease => {lock shared}

variable {shared : Bool} {ℓ : Loc}

/-- The outcomes of a computation keep to its locks. -/
theorem held_outcome {d d' : Bool} {next : Loc} {outcomes : Bool → Set (Bool × Loc)}
    (here : code shared ℓ = .compute outcomes) (outcome : (d', next) ∈ outcomes d) :
    held shared next = held shared ℓ := by
  cases ℓ with
  | idle | body =>
    cases here
    simp only [Set.mem_insert_iff, Set.mem_singleton_iff, Prod.mk.injEq] at outcome
    rcases outcome with ⟨-, rfl⟩ | ⟨-, rfl⟩ <;> rfl
  | test =>
    cases here
    cases d <;> simp at outcome <;> rw [outcome.2] <;> rfl
  | signal =>
    cases here
    simp only [Set.mem_singleton_iff, Prod.mk.injEq] at outcome
    rw [outcome.2]
    rfl
  | wake => cases shared <;> contradiction
  | waitLock | sleep | waitRelease | signalLock | signalRelease => contradiction

def program (shared : Bool) : Program Unit Unit Bool Loc where
  code := code shared
  held := held shared
  held_acquire {ℓ lk next} here := by
    cases ℓ <;> cases shared <;> simp [code] at here <;> simp [held, ← here.1, ← here.2]
  held_release {ℓ lk next} here := by
    cases ℓ <;> cases shared <;> simp [code] at here <;> simp [held, ← here.1, ← here.2]
  held_sleep {ℓ chan lk next} here := by
    cases ℓ <;> cases shared <;> simp [code] at here <;> simp [held, ← here.1, ← here.2]
  held_wakeup {ℓ chan next} here := by
    cases ℓ <;> cases shared <;> simp [code] at here
    simp [held, lock, ← here]
  held_wakeup1 {ℓ chan next} here := by
    cases ℓ <;> cases shared <;> simp [code] at here
    simp [held, lock, ← here]
  held_compute := held_outcome

theorem not_sleeps_of_ne (other : ℓ ≠ .sleep) : ¬ (program shared).Sleeps () ℓ := by
  rintro ⟨lk, next, here⟩
  cases ℓ <;> cases shared <;> simp_all [program, code]

/-- The flag is guarded by its lock. -/
theorem guards (shared : Bool) :
    (program shared).Guards (lock shared) () (fun cond => cond = true) (fun _ _ => True) where
  lock {ℓ lk' next} here := by
    change code shared ℓ = _ at here
    cases ℓ <;> cases shared <;> simp [code] at here <;> exact here.1.symm
  entered {ℓ next d} follows sleeps := by
    exfalso
    revert sleeps
    apply not_sleeps_of_ne
    rintro rfl
    change (code shared ℓ).next? = _ at follows
    cases ℓ <;> cases shared <;> simp [code, Instr.next?] at follows
  tested {ℓ outcomes d d' next} here outcome sleeps _ := by
    have target : next = .sleep := by
      by_contra other
      exact not_sleeps_of_ne other sleeps
    subst target
    change code shared ℓ = _ at here
    cases ℓ with
    | test =>
      cases here
      cases d <;> simp at outcome
      simp [outcome]
    | idle | body | signal =>
      cases here
      simp at outcome
    | wake => cases shared <;> contradiction
    | waitLock | sleep | waitRelease | signalLock | signalRelease => contradiction
  signalled {ℓ outcomes d d' next} here outcome _ before holds := by
    change code shared ℓ = _ at here
    cases ℓ with
    | signal =>
      cases here
      simp only [Set.mem_singleton_iff, Prod.mk.injEq] at outcome
      rw [outcome.2]
      refine ⟨rfl, .signalRelease, ?_⟩
      cases shared with
      | true => exact .inr rfl
      | false => exact .inl rfl
    | test =>
      cases here
      cases d <;> simp_all
    | idle | body =>
      cases here
      simp_all
    | wake => cases shared <;> contradiction
    | waitLock | sleep | waitRelease | signalLock | signalRelease => contradiction

/-- No lost wakeup: with any number of threads and processors, no thread sleeps on
the channel with the flag set while the lock is free, whether or not `ptable.lock` is
free. -/
theorem no_lost_wakeup {Cpu : Type} [DecidableEq Cpu] {n : Nat} (shared cond : Bool)
    {s : System Cpu (Fin n) Unit Unit Bool Loc}
    (run : Reachable (program shared) (List.finRange n) (System.initial cond Loc.idle) s)
    (free : s.holder (lock shared) = none) (t : Fin n) :
    ¬ (s.state t = .sleeping ∧ s.chan t = some () ∧ s.data = true) := by
  rintro ⟨asleep, on, set⟩
  have inv : Exclusive (program shared)
      (System.initial cond Loc.idle : System Cpu (Fin n) Unit Unit Bool Loc) :=
    Exclusive.boot cond fun _ => rfl
  have heard := Heard.reachable (guards shared) (List.mem_finRange) inv
    (Heard.boot cond _ _) (fun _ => fun _ => trivial) run
  exact heard.not_sleeping (inv.reachable run) free set t ⟨asleep, on⟩

/-- A run in which the first of two threads goes to sleep. -/
theorem exists_sleeper : ∃ s : System (Fin 2) (Fin 2) Unit Unit Bool Loc,
    Reachable (program false) (List.finRange 2) (System.initial false Loc.idle) s ∧
      s.holder (lock false) = none ∧ s.holder none = none ∧
      s.state 0 = .sleeping ∧ s.chan 0 = some () := by
  refine ⟨_, .tail (.tail (.tail (.tail (.tail (.tail (.tail (.tail (.tail (.tail (.tail (.tail
    (.tail .refl
    (.sched (c := 0) rfl (.acquire rfl rfl)))
    (.sched (c := 0) rfl (.choose (p := 0) rfl rfl)))
    (.sched (c := 0) rfl (.switch rfl)))
    (.thread (c := 0) (p := 0) rfl (.yieldRelease rfl rfl)))
    (.thread (c := 0) (p := 0) rfl (.compute rfl rfl (.inl rfl))))
    (.thread (c := 0) (p := 0) rfl (.acquire rfl rfl rfl)))
    (.thread (c := 0) (p := 0) rfl (.compute rfl rfl rfl)))
    (.thread (c := 0) (p := 0) rfl (.sleepLock rfl rfl rfl)))
    (.thread (c := 0) (p := 0) rfl (.sleepUnlock rfl rfl)))
    (.thread (c := 0) (p := 0) rfl (.sleepChan rfl)))
    (.thread (c := 0) (p := 0) rfl (.sleepState rfl)))
    (.thread (c := 0) (p := 0) rfl (.sleepSwitch rfl rfl)))
    (.sched (c := 0) rfl (.release rfl rfl)), rfl, rfl, rfl, rfl⟩

/-- In that run the flag is not set. -/
theorem sleeper_waits : ∃ s : System (Fin 2) (Fin 2) Unit Unit Bool Loc,
    s.state 0 = .sleeping ∧ s.chan 0 = some () ∧
      ¬ (s.state 0 = .sleeping ∧ s.chan 0 = some () ∧ s.data = true) := by
  obtain ⟨s, run, free, -, asleep, on⟩ := exists_sleeper
  exact ⟨s, asleep, on, no_lost_wakeup false false run free 0⟩

end Condition

/-! ## Locks across context switches -/

section

variable {Cpu Thread L Chan Data Loc : Type} (prog : Program L Chan Data Loc)

/-- A thread at this point calls `acquire`: the program itself, `sleep` for `ptable.lock` and
later for the lock it has given up, or `wakeup`. -/
inductive Program.Acquires : Ctl L Chan Loc Thread → Option L → Prop
  | acquire {ℓ lk next} : prog.code ℓ = .acquire lk next → Acquires (.run ℓ) lk
  | sleepLock {ℓ chan lk next} : prog.code ℓ = .sleep chan (some lk) next → Acquires (.run ℓ) none
  | sleepReacquire (lk next) : Acquires (.sleepReacquire lk next) (some lk)
  | wakeup {ℓ chan next} : prog.code ℓ = .wakeup chan next → Acquires (.run ℓ) none

/-- A thread at this point calls `release`; `yieldRelease` is in `forkret` too. -/
inductive Program.Releases : Ctl L Chan Loc Thread → Option L → Prop
  | release {ℓ lk next} : prog.code ℓ = .release lk next → Releases (.run ℓ) lk
  | sleepUnlock (chan lk next) : Releases (.sleepUnlock chan lk next) (some lk)
  | sleepRelease (lk next) : Releases (.sleepRelease lk next) none
  | wakeRelease (next) : Releases (.wakeRelease next) none
  | yieldRelease (back) : Releases (.yieldRelease back) none

variable {prog}

variable {lk : Option L} {x : Ctl L Chan Loc Thread}

theorem Program.Acquires.not_mem (acquires : prog.Acquires x lk) : lk ∉ prog.locks x := by
  cases acquires with
  | acquire code => exact (prog.held_acquire code).1
  | sleepLock code => simp [Program.locks, (prog.held_sleep code).1]
  | sleepReacquire => exact Set.notMem_empty _
  | wakeup code => exact (prog.held_wakeup code).1

theorem Program.Releases.mem (releases : prog.Releases x lk) : lk ∈ prog.locks x := by
  cases releases with
  | release code => exact (prog.held_release code).1
  | sleepUnlock => exact .inr rfl
  | sleepRelease | yieldRelease => exact rfl
  | wakeRelease => exact .inl rfl

/-- Locks exclude each other, threads change processors with `ptable.lock` alone, and the
panics of `acquire`, `release` and `sched` are not reached. -/
structure System.Disciplined (prog : Program L Chan Data Loc)
    (s : System Cpu Thread L Chan Data Loc) : Prop where
  exclusive : ∀ {c c' p p' lk}, s.cur c = some p → s.cur c' = some p' →
    lk ∈ prog.locks (s.ctl p) → lk ∈ prog.locks (s.ctl p') → c = c' ∧ p = p'
  parked : ∀ {p}, (∀ c, s.cur c ≠ some p) → prog.locks (s.ctl p) = {none}
  acquire : ∀ {c p lk}, s.cur c = some p → prog.Acquires (s.ctl p) lk → s.holder lk ≠ some c
  release : ∀ {c p lk}, s.cur c = some p → prog.Releases (s.ctl p) lk → s.holder lk = some c
  /-- A timer interrupt calls `yield` where the thread holds no lock. -/
  yield : ∀ {c p}, s.cur c = some p → prog.locks (s.ctl p) = ∅ → s.holder none ≠ some c
  sched : ∀ {c p}, s.cur c = some p → (s.ctl p).Switching →
    ∀ lk, s.holder lk = some c ↔ lk = none
  /-- A processor in its scheduler holds `ptable.lock` except at the `acquire`. -/
  scheduler : ∀ {c}, s.cur c = none → (s.holder none = some c ↔ s.sched c ≠ .acquire)

/-- Every program that keeps account of its locks keeps the discipline, with any number of
threads and processors. -/
theorem disciplined_of_reachable [DecidableEq Cpu] [DecidableEq Thread] [DecidableEq L]
    [DecidableEq Chan] {table : List Thread} {data : Data} {start : Loc}
    {s : System Cpu Thread L Chan Data Loc} (unlocked : prog.held start = ∅)
    (run : Reachable prog table (System.initial data start) s) : s.Disciplined prog := by
  have inv := (Exclusive.boot data fun _ => unlocked).reachable run
  have owned {c p lk} (here : s.cur c = some p) :
      s.holder lk = some c ↔ lk ∈ prog.locks (s.ctl p) := by
    rw [inv.owned, System.locks_thread here]
  refine ⟨fun here there first second => ?_, fun away => (inv.off away).locks_eq,
    fun here acquires => ?_, fun here releases => (owned here).mpr releases.mem,
    fun here none => ?_, fun here switching lk => ?_, fun {c} here => ?_⟩
  · obtain rfl := inv.same_thread here there first second
    exact ⟨inv.single here there, rfl⟩
  · rw [ne_eq, owned here]
    exact acquires.not_mem
  · rw [ne_eq, owned here, none]
    exact Set.notMem_empty _
  · rw [owned here, switching.locks_eq, Set.mem_singleton_iff]
  · rw [inv.owned, System.locks_sched here]
    cases s.sched c <;> simp [SchedPc.locks]

end

/-- The thread that sleeps in the run above holds no lock but `ptable.lock`, for when it is
switched to. -/
theorem disciplined_sleeper : ∃ s : System (Fin 2) (Fin 2) Unit Unit Bool Condition.Loc,
    s.state 0 = .sleeping ∧ s.Disciplined (Condition.program false) := by
  obtain ⟨s, run, -, -, asleep, -⟩ := Condition.exists_sleeper
  exact ⟨s, asleep, disciplined_of_reachable rfl run⟩

end Xv6.Sync
