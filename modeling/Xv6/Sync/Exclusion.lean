import Xv6.Sync.Machine

/-!
# Locks exclude each other

In every reachable state a lock is held by exactly one processor, and from the
point where that processor is one can read off which locks it holds.  A thread
runs on at most one processor, and one that runs nowhere waits just behind a
context switch, to go on with `ptable.lock` held.
-/

namespace Xv6.Sync

open Sync.System

open Function (update update_of_ne update_self)

variable {Cpu Thread L Chan Data Loc : Type}

/-- The locks that a thread holds at a control point. -/
def Program.locks (prog : Program L Chan Data Loc) : Ctl L Chan Loc Thread → Set (Option L)
  | .run ℓ => prog.held ℓ
  | .sleepUnlock _ lk _ => {none, some lk}
  | .sleepReacquire _ _ => ∅
  | .wakeScan _ _ _ next | .wakeRelease next => insert none (prog.held next)
  | .sleepChan _ _ _ | .sleepState _ _ _ | .sleepSwitch _ _ | .sleepTidy _ _
  | .sleepRelease _ _ | .yieldState _ | .yieldSwitch _ | .yieldRelease _ => {none}

/-- The locks that the code after `sleep`, `wakeup` or `yield` counts on. -/
def Program.Fit (prog : Program L Chan Data Loc) : Ctl L Chan Loc Thread → Prop
  | .run _ => True
  | .sleepUnlock _ lk next | .sleepRelease lk next | .sleepReacquire lk next =>
    prog.held next = {some lk}
  | .sleepChan _ lk next | .sleepState _ lk next | .sleepSwitch lk next
  | .sleepTidy lk next => prog.held next = {lk}
  | .wakeScan _ _ unlock next => none ∈ prog.held next ↔ unlock = false
  | .wakeRelease next => none ∉ prog.held next
  | .yieldState back | .yieldSwitch back | .yieldRelease back =>
    prog.Fit back ∧ prog.locks back = ∅

/-- A thread that is not on a processor is at one of these points. -/
inductive Ctl.Resumable : Ctl L Chan Loc Thread → Prop
  | sleepTidy (lk : Option L) (next : Loc) : Resumable (.sleepTidy lk next)
  | yieldRelease (back : Ctl L Chan Loc Thread) : Resumable (.yieldRelease back)

/-- A thread that is about to switch to the scheduler. -/
inductive Ctl.Switching : Ctl L Chan Loc Thread → Prop
  | sleepSwitch (lk : Option L) (next : Loc) : Switching (.sleepSwitch lk next)
  | yieldSwitch (back : Ctl L Chan Loc Thread) : Switching (.yieldSwitch back)

/-- A thread that sleeps, or has just been set to. -/
inductive Ctl.Asleep : Ctl L Chan Loc Thread → Prop
  | sleepSwitch (lk : Option L) (next : Loc) : Asleep (.sleepSwitch lk next)
  | sleepTidy (lk : Option L) (next : Loc) : Asleep (.sleepTidy lk next)

variable {x : Ctl L Chan Loc Thread}

theorem Ctl.Resumable.locks_eq {prog : Program L Chan Data Loc} (resumable : x.Resumable) :
    prog.locks x = {none} := by
  cases resumable <;> rfl

theorem Ctl.Switching.locks_eq {prog : Program L Chan Data Loc} (switching : x.Switching) :
    prog.locks x = {none} := by
  cases switching <;> rfl

/-- The locks that a scheduler holds. -/
def SchedPc.locks (L : Type) : SchedPc Thread → Set (Option L)
  | .acquire => ∅
  | .loop | .switch _ => {none}

/-- The locks that a processor holds, by where it is. -/
def System.locks (prog : Program L Chan Data Loc) (s : System Cpu Thread L Chan Data Loc)
    (c : Cpu) : Set (Option L) :=
  match s.cur c with
  | some p => prog.locks (s.ctl p)
  | none => (s.sched c).locks L

/-- The invariant of processors and locks. -/
structure Exclusive (prog : Program L Chan Data Loc) (s : System Cpu Thread L Chan Data Loc) :
    Prop where
  owned : ∀ lk c, s.holder lk = some c ↔ lk ∈ s.locks prog c
  fit : ∀ p, prog.Fit (s.ctl p)
  single : ∀ {c c' p}, s.cur c = some p → s.cur c' = some p → c = c'
  back : ∀ {c p}, s.cur c = some p → s.sched c = .loop
  off : ∀ {p}, (∀ c, s.cur c ≠ some p) → (s.ctl p).Resumable
  on : ∀ {c p}, s.cur c = some p → s.state p = .running ∨ (s.ctl p).Switching
  asleep : ∀ {p}, s.state p = .sleeping → (s.ctl p).Asleep
  chosen : ∀ {c p}, s.cur c = none → s.sched c = .switch p →
    s.state p = .running ∧ ∀ c', s.cur c' ≠ some p

theorem System.locks_thread {prog : Program L Chan Data Loc} {s : System Cpu Thread L Chan Data Loc}
    {c : Cpu} {p : Thread} (here : s.cur c = some p) : s.locks prog c = prog.locks (s.ctl p) := by
  simp only [locks, here]

theorem System.locks_sched {prog : Program L Chan Data Loc} {s : System Cpu Thread L Chan Data Loc}
    {c : Cpu} (here : s.cur c = none) : s.locks prog c = (s.sched c).locks L := by
  simp only [locks, here]

variable {c' : Cpu} {q : Thread}

namespace Exclusive

variable {prog : Program L Chan Data Loc} {s : System Cpu Thread L Chan Data Loc}

section

variable (inv : Exclusive prog s)
include inv

variable {lk : Option L}

/-- No two processors hold one lock. -/
theorem same_cpu {c : Cpu} (first : lk ∈ s.locks prog c) (second : lk ∈ s.locks prog c') :
    c = c' := by
  rw [← inv.owned] at first second
  exact Option.some.inj (first.symm.trans second)

/-- No two threads hold one lock. -/
theorem same_thread {c : Cpu} {p : Thread} (here : s.cur c = some p) (there : s.cur c' = some q)
    (first : lk ∈ prog.locks (s.ctl p)) (second : lk ∈ prog.locks (s.ctl q)) : p = q := by
  rw [← locks_thread here] at first
  rw [← locks_thread there] at second
  obtain rfl := inv.same_cpu first second
  exact Option.some.inj (here.symm.trans there)

/-- A thread that is not behind a context switch is on a processor. -/
theorem on_cpu {p : Thread} (point : ¬ (s.ctl p).Resumable) : ∃ c, s.cur c = some p := by
  by_contra nowhere
  push Not at nowhere
  exact point (inv.off nowhere)

theorem notMem_of_free {c : Cpu} {p : Thread} (free : s.holder lk = none)
    (here : s.cur c = some p) : lk ∉ prog.locks (s.ctl p) := by
  intro member
  rw [← locks_thread here, ← inv.owned, free] at member
  contradiction

end

theorem boot (data : Data) {start : Thread → Loc} (unlocked : ∀ p, prog.held (start p) = ∅) :
    Exclusive prog (System.boot data start : System Cpu Thread L Chan Data Loc) where
  owned lk c := by simp [System.boot, locks, SchedPc.locks]
  fit p := ⟨trivial, unlocked p⟩
  single here := by simp [System.boot] at here
  back here := by simp [System.boot] at here
  off _ := .yieldRelease _
  on here := by simp [System.boot] at here
  asleep sleeping := by simp [System.boot] at sleeping
  chosen _ pc := by simp [System.boot] at pc

end Exclusive

/-! ## What a step of a thread does -/

variable [DecidableEq Cpu] [DecidableEq Thread] [DecidableEq L] [DecidableEq Chan]

omit [DecidableEq Cpu] [DecidableEq L] [DecidableEq Chan] in
@[simp]
theorem System.setCtl_self (s : System Cpu Thread L Chan Data Loc) (p : Thread)
    (x : Ctl L Chan Loc Thread) : (s.setCtl p x).ctl p = x := by
  simp [setCtl]

omit [DecidableEq Cpu] [DecidableEq L] in
theorem System.wake_ctl (s : System Cpu Thread L Chan Data Loc) (chan : Chan) (t : Thread) :
    (s.wake chan t).ctl = s.ctl := by
  unfold wake
  split <;> rfl

/-- How a step of the thread `p` on the processor `c` changes the locks it holds. -/
inductive Exchange (prog : Program L Chan Data Loc) (c : Cpu) (p : Thread)
    (s s' : System Cpu Thread L Chan Data Loc) : Prop
  | keep : s'.cur = s.cur → s'.holder = s.holder →
      prog.locks (s'.ctl p) = prog.locks (s.ctl p) → Exchange prog c p s s'
  | take (lk : Option L) : s'.cur = s.cur → s.holder lk = none →
      s'.holder = update s.holder lk (some c) →
      prog.locks (s'.ctl p) = insert lk (prog.locks (s.ctl p)) → Exchange prog c p s s'
  | drop (lk : Option L) : s'.cur = s.cur → s.holder lk = some c →
      s'.holder = update s.holder lk none →
      prog.locks (s'.ctl p) = prog.locks (s.ctl p) \ {lk} → Exchange prog c p s s'
  | leave : s'.cur = update s.cur c none → s'.holder = s.holder →
      (s.ctl p).Switching → (s'.ctl p).Resumable → Exchange prog c p s s'

variable {prog : Program L Chan Data Loc} {table : List Thread} {c : Cpu} {p : Thread}
variable {s s' : System Cpu Thread L Chan Data Loc}

section

variable (step : ThreadStep prog table c p s s')
include step

theorem ThreadStep.exchange (fit : prog.Fit (s.ctl p))
    (owned : ∀ lk ∈ prog.locks (s.ctl p), s.holder lk = some c) : Exchange prog c p s s' := by
  cases step with
  | acquire here code free =>
    refine .take _ rfl free rfl ?_
    rw [setCtl_self, here]
    exact (prog.held_acquire code).2
  | release here code mine =>
    refine .drop _ rfl mine rfl ?_
    rw [setCtl_self, here]
    exact (prog.held_release code).2
  | compute here code outcome =>
    refine .keep rfl rfl ?_
    rw [setCtl_self, here]
    exact prog.held_compute code outcome
  | sleepLock here code free =>
    refine .take _ rfl free rfl ?_
    rw [setCtl_self, here]
    exact congrArg (insert none) (prog.held_sleep code).1.symm
  | sleepHeld here code =>
    refine .keep rfl rfl ?_
    rw [setCtl_self, here]
    exact (prog.held_sleep code).1.symm
  | sleepUnlock here mine =>
    refine .drop _ rfl mine rfl ?_
    rw [setCtl_self, here]
    ext lk
    simp only [Program.locks, Set.mem_singleton_iff, Set.mem_sdiff, Set.mem_insert_iff]
    constructor
    · rintro rfl
      simp
    · rintro ⟨rfl | rfl, other⟩
      · rfl
      · exact (other rfl).elim
  | sleepChan here | sleepState here =>
    refine .keep rfl rfl ?_
    rw [setCtl_self, here]
    rfl
  | sleepSwitch here _ =>
    refine .leave rfl rfl (here ▸ .sleepSwitch _ _) ?_
    rw [setCtl_self]
    exact .sleepTidy _ _
  | @sleepTidy lk next here =>
    refine .keep rfl rfl ?_
    rw [here] at fit
    rw [setCtl_self, here]
    cases lk with
    | none => exact fit
    | some lk => rfl
  | sleepRelease here mine =>
    refine .drop _ rfl mine rfl ?_
    rw [setCtl_self, here]
    exact (Set.sdiff_self).symm
  | sleepReacquire here free =>
    rw [here] at fit
    refine .take _ rfl free rfl ?_
    rw [setCtl_self, here]
    exact fit.trans (insert_empty_eq _).symm
  | wakeup here code free =>
    refine .take _ rfl free rfl ?_
    rw [setCtl_self, here]
    exact congrArg (insert none) (prog.held_wakeup code).2
  | wakeup1 here code =>
    obtain ⟨held, same⟩ := prog.held_wakeup1 code
    refine .keep rfl rfl ?_
    rw [setCtl_self, here]
    exact (congrArg (insert none) same).trans (Set.insert_eq_of_mem held)
  | wakeSlot here =>
    refine .keep ?_ ?_ ?_
    · unfold wake
      split <;> rfl
    · unfold wake
      split <;> rfl
    · rw [setCtl_self, here]
      rfl
  | @wakeDone chan unlock next here =>
    refine .keep rfl rfl ?_
    rw [here] at fit
    rw [setCtl_self, here]
    cases unlock with
    | true => rfl
    | false => exact (Set.insert_eq_of_mem (fit.mpr rfl)).symm
  | wakeRelease here mine =>
    rw [here] at fit
    refine .drop _ rfl mine rfl ?_
    rw [setCtl_self, here]
    exact (Set.insert_sdiff_self_of_notMem fit).symm
  | yieldLock point unlocked free =>
    have nothing : prog.locks (s.ctl p) = ∅ := by
      ext lk
      exact iff_of_false (fun held => unlocked lk (owned lk held)) (Set.notMem_empty lk)
    refine .take _ rfl free rfl ?_
    rw [setCtl_self, nothing]
    exact (insert_empty_eq _).symm
  | yieldState here =>
    refine .keep rfl rfl ?_
    rw [setCtl_self, here]
    rfl
  | yieldSwitch here _ =>
    refine .leave rfl rfl (here ▸ .yieldSwitch _) ?_
    rw [setCtl_self]
    exact .yieldRelease _
  | yieldRelease here mine =>
    rw [here] at fit
    refine .drop _ rfl mine rfl ?_
    rw [setCtl_self, here]
    exact fit.2.trans (Set.sdiff_self).symm

theorem ThreadStep.fit (fit : prog.Fit (s.ctl p))
    (owned : ∀ lk ∈ prog.locks (s.ctl p), s.holder lk = some c) : prog.Fit (s'.ctl p) := by
  cases step with
  | acquire | release | compute | sleepReacquire | wakeRelease =>
    rw [setCtl_self]
    trivial
  | sleepLock here code free | sleepHeld here code =>
    rw [setCtl_self]
    exact (prog.held_sleep code).2
  | sleepUnlock here | sleepChan here | sleepState here | sleepSwitch here
  | sleepRelease here | wakeSlot here =>
    rw [here] at fit
    rw [setCtl_self]
    exact fit
  | @sleepTidy lk next here =>
    rw [here] at fit
    rw [setCtl_self]
    cases lk with
    | none => trivial
    | some lk => exact fit
  | wakeup here code =>
    obtain ⟨free, same⟩ := prog.held_wakeup code
    rw [setCtl_self]
    exact iff_of_false (same ▸ free) (by simp)
  | wakeup1 here code =>
    obtain ⟨held, same⟩ := prog.held_wakeup1 code
    rw [setCtl_self]
    exact iff_of_true (same ▸ held) rfl
  | @wakeDone chan unlock next here =>
    rw [here] at fit
    rw [setCtl_self]
    cases unlock with
    | true => exact fun held => by simpa using fit.mp held
    | false => trivial
  | yieldLock point unlocked free =>
    rw [setCtl_self]
    refine ⟨fit, ?_⟩
    ext lk
    exact iff_of_false (fun held => unlocked lk (owned lk held)) (Set.notMem_empty lk)
  | yieldState here | yieldSwitch here =>
    rw [here] at fit
    rw [setCtl_self]
    exact fit
  | yieldRelease here =>
    rw [here] at fit
    rw [setCtl_self]
    exact fit.1

/-- A thread moves only itself. -/
theorem ThreadStep.others (other : q ≠ p) : s'.ctl q = s.ctl q := by
  cases step with
  | wakeSlot here => simp [setCtl, wake_ctl, other]
  | _ => exact update_of_ne other _ _

theorem ThreadStep.sched : s'.sched = s.sched := by
  cases step with
  | wakeSlot here =>
    unfold wake
    split <;> rfl
  | _ => rfl

/-- How a step of the thread `p` changes process states. -/
inductive Restate (p : Thread) (s s' : System Cpu Thread L Chan Data Loc) : Prop
  | same : s'.state = s.state → Restate p s s'
  | sleep : s'.state = update s.state p .sleeping → (s'.ctl p).Asleep →
      (s'.ctl p).Switching → Restate p s s'
  | yield : s'.state = update s.state p .runnable → (s'.ctl p).Switching →
      Restate p s s'
  | wake (t : Thread) : s.state t = .sleeping →
      s'.state = update s.state t .runnable → Restate p s s'

theorem ThreadStep.restate : Restate p s s' := by
  cases step with
  | sleepState here =>
    refine .sleep rfl ?_ ?_
    · rw [setCtl_self]
      exact .sleepSwitch _ _
    · rw [setCtl_self]
      exact .sleepSwitch _ _
  | yieldState here =>
    refine .yield rfl ?_
    rw [setCtl_self]
    exact .yieldSwitch _
  | @wakeSlot chan t todo unlock next here =>
    by_cases hit : s.state t = .sleeping ∧ s.chan t = some chan
    · refine .wake t hit.1 ?_
      unfold wake
      rw [if_pos hit]
      rfl
    · refine .same ?_
      unfold wake
      rw [if_neg hit]
      rfl
  | _ => exact .same rfl

omit step in
omit [DecidableEq Cpu] [DecidableEq L] [DecidableEq Chan] in
/-- A thread cannot stop another one that is running. -/
theorem Restate.running (restate : Restate p s s') (running : s.state q = .running)
    (other : q ≠ p) : s'.state q = .running := by
  cases restate with
  | same state => rw [state, running]
  | sleep state | yield state => rw [state, update_of_ne other, running]
  | wake t sleeping state =>
    have awake : q ≠ t := by
      rintro rfl
      rw [running] at sleeping
      contradiction
    rw [state, update_of_ne awake, running]

/-- Only a context switch moves a thread that is about to make one. -/
theorem ThreadStep.leaves (switching : (s.ctl p).Switching) : s'.cur = update s.cur c none := by
  cases step with
  | sleepSwitch | yieldSwitch => rfl
  | yieldLock point =>
    generalize s.ctl p = x at switching point
    cases point <;> cases switching
  | _ =>
    have here := ‹s.ctl p = _›
    rw [here] at switching
    cases switching

theorem ThreadStep.stays_asleep (switching : (s.ctl p).Switching) (asleep : (s.ctl p).Asleep) :
    (s'.ctl p).Asleep := by
  cases step with
  | sleepSwitch =>
    rw [setCtl_self]
    exact .sleepTidy _ _
  | yieldSwitch here =>
    rw [here] at asleep
    cases asleep
  | yieldLock point =>
    generalize s.ctl p = x at switching point
    cases point <;> cases switching
  | _ =>
    have here := ‹s.ctl p = _›
    rw [here] at switching
    cases switching

end

/-! ## Preservation -/

namespace Exclusive

section

variable (inv : Exclusive prog s)
include inv

theorem thread_owned (here : s.cur c = some p) (step : ThreadStep prog table c p s s')
    (lk : Option L) (c' : Cpu) : s'.holder lk = some c' ↔ lk ∈ s'.locks prog c' := by
  have mine : ∀ lk ∈ prog.locks (s.ctl p), s.holder lk = some c := by
    intro lk held
    rw [inv.owned, locks_thread here]
    exact held
  have before := inv.owned lk c'
  -- On the other processors nothing moves.
  have elsewhere (cur : s'.cur c' = s.cur c') (other : c' ≠ c) :
      s'.locks prog c' = s.locks prog c' := by
    unfold locks
    rw [cur, step.sched]
    cases there : s.cur c' with
    | none => rfl
    | some q =>
      have different : q ≠ p := by
        rintro rfl
        exact other (inv.single there here)
      exact congrArg prog.locks (step.others different)
  cases step.exchange (inv.fit p) mine with
  | keep cur holder locks =>
    by_cases same : c' = c
    · subst same
      rw [locks_thread here] at before
      rw [locks_thread (cur ▸ here), locks, holder]
      exact before
    · rw [elsewhere (cur ▸ rfl) same, holder]
      exact before
  | take lk₀ cur free holder locks =>
    by_cases same : c' = c
    · subst same
      rw [locks_thread here] at before
      rw [locks_thread (cur ▸ here), locks, holder]
      by_cases target : lk = lk₀
      · subst target
        simp
      · simp [target, before]
    · rw [elsewhere (cur ▸ rfl) same, holder]
      by_cases target : lk = lk₀
      · subst target
        rw [free] at before
        simp only [update_self, Option.some.injEq]
        exact iff_of_false (fun equal => same equal.symm) (before.not.mp (by simp))
      · rw [update_of_ne target]
        exact before
  | drop lk₀ cur held holder locks =>
    by_cases same : c' = c
    · subst same
      rw [locks_thread here] at before
      rw [locks_thread (cur ▸ here), locks, holder]
      by_cases target : lk = lk₀
      · subst target
        simp
      · simp [target, before]
    · rw [elsewhere (cur ▸ rfl) same, holder]
      by_cases target : lk = lk₀
      · subst target
        rw [held, Option.some.injEq] at before
        rw [update_self]
        exact iff_of_false (by simp) (before.not.mp fun equal => same equal.symm)
      · rw [update_of_ne target]
        exact before
  | leave cur holder switching resumable =>
    by_cases same : c' = c
    · subst same
      have gone : s'.cur c' = none := by rw [cur, update_self]
      rw [locks_thread here, switching.locks_eq] at before
      rw [locks_sched gone, holder, before, step.sched, inv.back here]
      rfl
    · rw [elsewhere (by rw [cur, update_of_ne same]) same, holder]
      exact before

theorem thread (here : s.cur c = some p) (step : ThreadStep prog table c p s s') :
    Exclusive prog s' := by
  have mine : ∀ lk ∈ prog.locks (s.ctl p), s.holder lk = some c := by
    intro lk held
    rw [inv.owned, locks_thread here]
    exact held
  -- A processor of the new state ran the same thread before.
  have earlier {c' : Cpu} {q : Thread} (there : s'.cur c' = some q) : s.cur c' = some q := by
    cases step.exchange (inv.fit p) mine with
    | keep cur | take _ cur | drop _ cur => rw [← cur, there]
    | leave cur =>
      rw [cur] at there
      by_cases same : c' = c
      · subst same
        simp at there
      · rwa [update_of_ne same] at there
  -- Unless it has just switched to the scheduler, the thread stays where it is.
  have stays (q : Thread) : (∀ c', s'.cur c' ≠ some q) → (∀ c', s.cur c' ≠ some q) ∨
      q = p ∧ (s'.ctl p).Resumable := by
    intro nowhere
    cases step.exchange (inv.fit p) mine with
    | keep cur | take _ cur | drop _ cur => exact .inl (cur ▸ nowhere)
    | leave cur _ _ resumable =>
      by_cases same : q = p
      · exact .inr ⟨same, resumable⟩
      · refine .inl fun c' there => nowhere c' ?_
        have other : c' ≠ c := by
          rintro rfl
          exact same (Option.some.inj (there.symm.trans here))
        rw [cur, update_of_ne other, there]
  refine
    { owned := inv.thread_owned here step
      fit := fun q => ?_
      single := fun first second => inv.single (earlier first) (earlier second)
      back := fun there => ?_
      off := fun {q} nowhere => ?_
      on := fun {c' q} there => ?_
      asleep := fun {q} sleeping => ?_
      chosen := fun {c' q} idle pc => ?_ }
  · by_cases same : q = p
    · subst same
      exact step.fit (inv.fit q) mine
    · rw [step.others same]
      exact inv.fit q
  · rw [step.sched]
    exact inv.back (earlier there)
  · rcases stays q nowhere with before | ⟨rfl, resumable⟩
    · have same : q ≠ p := by
        rintro rfl
        exact before c here
      rw [step.others same]
      exact inv.off before
    · exact resumable
  · have before := inv.on (earlier there)
    by_cases same : q = p
    · subst same
      obtain rfl := inv.single (earlier there) here
      have running : s.state q = .running := before.resolve_right fun switching => by
        rw [step.leaves switching, update_self] at there
        contradiction
      cases step.restate with
      | same state => exact .inl (state ▸ running)
      | sleep _ _ switching | yield _ switching => exact .inr switching
      | wake t sleeping state =>
        have other : q ≠ t := by
          rintro rfl
          rw [running] at sleeping
          contradiction
        rw [state, update_of_ne other]
        exact .inl running
    · rw [step.others same]
      exact before.imp_left fun running => step.restate.running running same
  · -- A thread that slept before keeps its place, or makes its context switch.
    have kept (before : s.state q = .sleeping) : (s'.ctl q).Asleep := by
      by_cases same : q = p
      · subst same
        refine step.stays_asleep ((inv.on here).resolve_left ?_) (inv.asleep before)
        rw [before]
        simp
      · rw [step.others same]
        exact inv.asleep before
    cases step.restate with
    | same state => exact kept (state ▸ sleeping)
    | sleep state asleep =>
      by_cases same : q = p
      · exact same ▸ asleep
      · rw [state, update_of_ne same] at sleeping
        exact kept sleeping
    | yield state =>
      by_cases same : q = p
      · simp [state, same] at sleeping
      · rw [state, update_of_ne same] at sleeping
        exact kept sleeping
    | wake t _ state =>
      by_cases same : q = t
      · simp [state, same] at sleeping
      · rw [state, update_of_ne same] at sleeping
        exact kept sleeping
  · rw [step.sched] at pc
    have other : c' ≠ c := by
      rintro rfl
      rw [inv.back here] at pc
      contradiction
    have before : s.cur c' = none := by
      cases step.exchange (inv.fit p) mine with
      | keep cur | take _ cur | drop _ cur => rw [← cur, idle]
      | leave cur => rwa [cur, update_of_ne other] at idle
    obtain ⟨running, nowhere⟩ := inv.chosen before pc
    have different : q ≠ p := by
      rintro rfl
      exact nowhere c here
    exact ⟨step.restate.running running different, fun c'' there => nowhere c'' (earlier there)⟩

omit inv in
omit [DecidableEq Cpu] [DecidableEq Thread] [DecidableEq L] [DecidableEq Chan] in
theorem ne_of_idle (idle : s.cur c = none) (there : s.cur c' = some q) : c' ≠ c := by
  rintro rfl
  rw [idle] at there
  contradiction

attribute [local simp] setSched setState setCur

omit [DecidableEq Thread] [DecidableEq Chan] in
/-- What changes when a scheduler takes or gives back `ptable.lock`. -/
theorem sched_lock (idle : s.cur c = none) {pc : SchedPc Thread} {held : Option Cpu}
    (atLoop : ∀ p, pc ≠ .switch p)
    (owner : ∀ c', held = some c' ↔ none ∈ if c' = c then pc.locks L else s.locks prog c')
    (others : ∀ lk, some lk ∉ (s.sched c).locks L ∧ some lk ∉ pc.locks L) :
    Exclusive prog
      (({ s with holder := update s.holder none held } :
        System Cpu Thread L Chan Data Loc).setSched c pc) where
  owned lk c' := by
    have before := inv.owned lk c'
    by_cases same : c' = c
    · subst same
      have locks : locks prog (({ s with holder := update s.holder none held } :
          System Cpu Thread L Chan Data Loc).setSched c' pc) c' = pc.locks L := by
        unfold locks
        simp [idle]
      rw [locks]
      cases lk with
      | none => simpa using owner c'
      | some lk =>
        rw [locks_sched idle] at before
        simp only [setSched, ne_eq, reduceCtorEq, not_false_eq_true,
          update_of_ne]
        exact before.trans (iff_of_false (others lk).1 (others lk).2)
    · have locks : locks prog (({ s with holder := update s.holder none held } :
          System Cpu Thread L Chan Data Loc).setSched c pc) c' = s.locks prog c' := by
        unfold locks
        simp [same]
      rw [locks]
      cases lk with
      | none => simpa [same] using owner c'
      | some lk => simpa using before
  fit := inv.fit
  single := inv.single
  back {c' p} there := by
    change update s.sched c pc c' = .loop
    rw [update_of_ne (ne_of_idle idle there)]
    exact inv.back there
  off := inv.off
  on := inv.on
  asleep := inv.asleep
  chosen {c' p} free at_ := by
    have other : c' ≠ c := by
      rintro rfl
      have impossible : update s.sched c' pc c' = .switch p := at_
      rw [update_self] at impossible
      exact atLoop p impossible
    change update s.sched c pc c' = .switch p at at_
    rw [update_of_ne other] at at_
    exact inv.chosen free at_

omit [DecidableEq Chan] in
theorem sched (idle : s.cur c = none) (step : SchedStep c s s') : Exclusive prog s' := by
  cases step with
  | acquire pc held | release pc held =>
    apply inv.sched_lock idle (by simp)
    · intro c'
      by_cases same : c' = c
      · simp [same, SchedPc.locks]
      · rw [if_neg same, ← inv.owned, held]
        simp [Ne.symm same]
    · simp [pc, SchedPc.locks]
  | @choose p pc ready =>
    have locked : none ∈ s.locks prog c := by
      rw [locks_sched idle, pc]
      exact rfl
    -- Whoever else could run the chosen process would hold the lock.
    have nowhere (c' : Cpu) : s.cur c' ≠ some p := by
      intro there
      rcases inv.on there with running | switching
      · rw [ready] at running
        contradiction
      · have held : none ∈ s.locks prog c' := by
          rw [locks_thread there, switching.locks_eq]
          exact rfl
        rw [inv.same_cpu held locked, idle] at there
        contradiction
    exact
      { owned := fun lk c' => by
          rw [show locks prog ((s.setState p .running).setSched c (.switch p)) c' =
            s.locks prog c' from ?_]
          · exact inv.owned lk c'
          · by_cases same : c' = c
            · subst same
              unfold locks
              simp [idle, pc, SchedPc.locks]
            · unfold locks
              simp [same]
        fit := inv.fit
        single := inv.single
        back := fun {c' q} there => by
          have other := ne_of_idle idle there
          simpa [other] using inv.back there
        off := inv.off
        on := fun {c' q} there => by
          have other : q ≠ p := by
            rintro rfl
            exact nowhere c' there
          simpa [other] using inv.on there
        asleep := fun {q} sleeping => by
          by_cases same : q = p
          · simp [same] at sleeping
          · simp only [setSched, setState, ne_eq, same, not_false_eq_true,
              update_of_ne] at sleeping
            exact inv.asleep sleeping
        chosen := fun {c' q} free at_ => by
          by_cases same : c' = c
          · simp only [setSched, same, update_self, SchedPc.switch.injEq] at at_
            subst at_
            exact ⟨by simp, nowhere⟩
          · simp only [setSched, ne_eq, same, not_false_eq_true,
              update_of_ne] at at_
            have held : none ∈ s.locks prog c' := by
              change s.cur c' = none at free
              change s.sched c' = .switch q at at_
              rw [locks_sched free, at_]
              exact rfl
            exact (same (inv.same_cpu held locked)).elim }
  | @switch p pc =>
    obtain ⟨running, nowhere⟩ := inv.chosen idle pc
    have locked : none ∈ s.locks prog c := by
      rw [locks_sched idle, pc]
      exact rfl
    -- A processor of the new state ran the same thread before, unless it is this one.
    have earlier {c' : Cpu} {q : Thread}
        (there : ((s.setCur c (some p)).setSched c .loop).cur c' = some q) :
        s.cur c' = some q ∧ c' ≠ c ∨ c' = c ∧ q = p := by
      by_cases same : c' = c
      · simp only [setSched, setCur, same, update_self,
          Option.some.injEq] at there
        exact .inr ⟨same, there.symm⟩
      · simp only [setSched, setCur, ne_eq, same, not_false_eq_true,
          update_of_ne] at there
        exact .inl ⟨there, same⟩
    exact
      { owned := fun lk c' => by
          rw [show locks prog ((s.setCur c (some p)).setSched c .loop) c' =
            s.locks prog c' from ?_]
          · exact inv.owned lk c'
          · by_cases same : c' = c
            · subst same
              rw [locks_sched idle, pc]
              simp only [locks, setSched, setCur, update_self]
              exact (inv.off nowhere).locks_eq
            · unfold locks
              simp [same]
        fit := inv.fit
        single := fun {c₁ c₂ q} first second => by
          rcases earlier first with ⟨before, _⟩ | ⟨rfl, rfl⟩
          · rcases earlier second with ⟨before', _⟩ | ⟨rfl, rfl⟩
            · exact inv.single before before'
            · exact (nowhere _ before).elim
          · rcases earlier second with ⟨before', _⟩ | ⟨rfl, _⟩
            · exact (nowhere _ before').elim
            · rfl
        back := fun {c' q} there => by
          rcases earlier there with ⟨before, other⟩ | ⟨rfl, _⟩
          · simpa [other] using inv.back before
          · simp
        off := fun {q} everywhere => by
          apply inv.off
          intro c' there
          apply everywhere c'
          have other := ne_of_idle idle there
          simpa [other] using there
        on := fun {c' q} there => by
          rcases earlier there with ⟨before, _⟩ | ⟨_, rfl⟩
          · exact inv.on before
          · exact .inl running
        asleep := inv.asleep
        chosen := fun {c' q} free at_ => by
          have other : c' ≠ c := by
            rintro rfl
            simp at free
          simp only [setSched, setCur, ne_eq, other, not_false_eq_true,
            update_of_ne] at free at_
          have held : none ∈ s.locks prog c' := by
            rw [locks_sched free, at_]
            exact rfl
          exact (other (inv.same_cpu held locked)).elim }

theorem step (step : Step prog table s s') : Exclusive prog s' := by
  cases step with
  | thread here step => exact inv.thread here step
  | sched idle step => exact inv.sched idle step

end

/-- Locks are exclusive in every reachable state. -/
theorem reachable {first : System Cpu Thread L Chan Data Loc} (inv : Exclusive prog first)
    (run : Reachable prog table first s) : Exclusive prog s := by
  induction run with
  | refl => exact inv
  | tail _ step ih => exact ih.step step

end Exclusive

end Xv6.Sync
