import Xv6.Sync.Projection

/-!
# Data that a lock protects

A lock protects the shared data when an invariant of the data holds whenever the
lock is free, and at each point of the program where the lock is held the data
satisfies an assertion of that point.  It is enough to check the instructions one
by one: taking the lock turns the invariant into the assertion, giving it back or
going to sleep turns the assertion into the invariant, and a computation leads
from the assertion of its point to that of the next.  Besides, each thread may rely on
facts about the data that hold at its point whether or not it has the lock; no other
thread may invalidate them.

Besides the threads of the program, other code may act: it changes the data as it
is allowed to and may make sleepers runnable, as `kill` does.
-/

namespace Xv6.Sync

open Relation Sync.System
open Function (update update_of_ne update_self)

variable {Cpu Thread L Chan Data Loc : Type}

/-- What code outside of the program does: it may change the data and make sleepers
runnable. -/
structure External (s s' : System Cpu Thread L Chan Data Loc) : Prop where
  ctl : s'.ctl = s.ctl
  chan : s'.chan = s.chan
  cur : s'.cur = s.cur
  sched : s'.sched = s.sched
  holder : s'.holder = s.holder
  state : ∀ t, s'.state t = s.state t ∨ s.state t = .sleeping ∧ s'.state t = .runnable

/-- Code that changes the data and makes one thread runnable if it sleeps. -/
def System.rouse [DecidableEq Thread] (s : System Cpu Thread L Chan Data Loc) (data : Data)
    (t : Thread) : System Cpu Thread L Chan Data Loc :=
  { s with
    data := data
    state := if s.state t = .sleeping then update s.state t .runnable else s.state }

theorem External.rouse [DecidableEq Thread] (s : System Cpu Thread L Chan Data Loc) (data : Data)
    (t : Thread) : External s (s.rouse data t) where
  ctl := rfl
  chan := rfl
  cur := rfl
  sched := rfl
  holder := rfl
  state t' := by
    by_cases asleep : s.state t = .sleeping
    · by_cases same : t' = t
      · subst same
        exact .inr ⟨asleep, by simp [System.rouse, asleep]⟩
      · exact .inl (by simp [System.rouse, asleep, same])
    · exact .inl (by simp [System.rouse, asleep])

/-- The instruction and the place to go on of a thread that is in `sleep`. -/
def Ctl.sleeper? : Ctl L Chan Loc Thread → Option (Option L × Loc)
  | .sleepUnlock _ lk next | .sleepRelease lk next | .sleepReacquire lk next => some (some lk, next)
  | .sleepChan _ lk next | .sleepState _ lk next | .sleepSwitch lk next | .sleepTidy lk next =>
    some (lk, next)
  | .run _ | .wakeScan _ _ _ _ | .wakeRelease _ => none
  | .yieldState back | .yieldSwitch back | .yieldRelease back => back.sleeper?

/-- What the data satisfies where a thread holds the lock: the assertion of the point to
go on from, or the invariant when the thread is about to give the lock back. -/
def Ctl.Asserts (inv : Data → Prop) (assertion : Loc → Data → Prop) :
    Ctl L Chan Loc Thread → Data → Prop
  | .run ℓ | .wakeScan _ _ _ ℓ | .wakeRelease ℓ => assertion ℓ
  | _ => inv

/-- The lock protects the data, in runs whose computations start as `allowed`. -/
structure Program.Protects (prog : Program L Chan Data Loc) (lk : L) (inv : Data → Prop)
    (assertion : Loc → Data → Prop) (fact : Thread → Loc → Data → Prop)
    (allowed : Loc → Data → Prop) : Prop where
  acquire : ∀ {p ℓ next d}, prog.code ℓ = .acquire (some lk) next → fact p next d → inv d →
    assertion next d
  release : ∀ {p ℓ next d}, prog.code ℓ = .release (some lk) next → fact p ℓ d →
    assertion ℓ d → inv d
  asleep : ∀ {p ℓ chan next d}, prog.code ℓ = .sleep chan (some lk) next → fact p ℓ d →
    assertion ℓ d → inv d
  awake : ∀ {p ℓ chan next d}, prog.code ℓ = .sleep chan (some lk) next → fact p next d → inv d →
    assertion next d
  /-- The other instructions do not touch the data. -/
  pass : ∀ {ℓ next d}, (prog.code ℓ).next? = some next → some lk ∈ prog.held ℓ →
    some lk ∈ prog.held next → (∀ chan, prog.code ℓ ≠ .sleep chan (some lk) next) →
    assertion ℓ d → assertion next d
  compute : ∀ {p ℓ outcomes d d' next}, prog.code ℓ = .compute outcomes →
    some lk ∈ prog.held ℓ → (d', next) ∈ outcomes d → allowed ℓ d → fact p ℓ d →
    assertion ℓ d → assertion next d'
  /-- Without the lock a computation keeps every assertion. -/
  outside : ∀ {p ℓ outcomes d d' next}, prog.code ℓ = .compute outcomes →
    some lk ∉ prog.held ℓ → (d', next) ∈ outcomes d → fact p ℓ d →
    (inv d → inv d') ∧ ∀ ℓ', assertion ℓ' d → assertion ℓ' d'
  /-- The facts of a thread go with it. -/
  follow : ∀ {p ℓ next d}, (prog.code ℓ).next? = some next → fact p ℓ d → fact p next d
  /-- A computation leads to the facts of the next point. -/
  establish : ∀ {p ℓ outcomes d d' next}, prog.code ℓ = .compute outcomes →
    (d', next) ∈ outcomes d → allowed ℓ d → (some lk ∈ prog.held ℓ → assertion ℓ d) →
    fact p ℓ d → fact p next d'
  /-- No computation invalidates the facts of other threads. -/
  keep : ∀ {p q ℓ ℓ' outcomes d d' next}, prog.code ℓ = .compute outcomes →
    (d', next) ∈ outcomes d → (some lk ∈ prog.held ℓ → assertion ℓ d) → fact p ℓ d → q ≠ p →
    fact q ℓ' d → fact q ℓ' d'

/-- The invariant of protected data. -/
structure Monitored (prog : Program L Chan Data Loc) (lk : L) (inv : Data → Prop)
    (assertion : Loc → Data → Prop) (fact : Thread → Loc → Data → Prop)
    (s : System Cpu Thread L Chan Data Loc) : Prop where
  facts : ∀ p, fact p (s.ctl p).loc s.data
  free : s.holder (some lk) = none → inv s.data
  inside : ∀ {c p}, s.cur c = some p → some lk ∈ prog.locks (s.ctl p) →
    (s.ctl p).Asserts inv assertion s.data
  origin : ∀ {p lk' next}, (s.ctl p).sleeper? = some (lk', next) →
    ∃ ℓ chan, prog.code ℓ = .sleep chan lk' next

variable {prog : Program L Chan Data Loc} {lk : L} {inv : Data → Prop}
variable {assertion allowed : Loc → Data → Prop} {fact : Thread → Loc → Data → Prop}
variable {chan : Chan} {cond : Data → Prop}
variable {s s' : System Cpu Thread L Chan Data Loc} {c : Cpu} {p : Thread}

/-! ## The first state -/

theorem Monitored.boot {data : Data} {start : Thread → Loc} (initial : inv data)
    (facts : ∀ p, fact p (start p) data) : Monitored prog lk inv assertion fact
      (System.boot data start : System Cpu Thread L Chan Data Loc) where
  facts := facts
  free _ := initial
  inside here := by simp [System.boot] at here
  origin sleeper := by simp [System.boot, Ctl.sleeper?] at sleeper

/-! ## Steps of other code -/

theorem Exclusive.external (exclusive : Exclusive prog s) (external : External s s') :
    Exclusive prog s' := by
  have locks (c : Cpu) : s'.locks prog c = s.locks prog c := by
    simp only [locks, external.cur, external.ctl, external.sched]
  refine
    { owned := fun lk c => ?_
      fit := fun p => ?_
      single := fun here there => ?_
      back := fun here => ?_
      off := fun nowhere => ?_
      on := fun {c p} here => ?_
      asleep := fun {p} sleeping => ?_
      chosen := fun {c p} idle pc => ?_ }
  · rw [external.holder, locks]
    exact exclusive.owned lk c
  · rw [external.ctl]
    exact exclusive.fit p
  · rw [external.cur] at here there
    exact exclusive.single here there
  · rw [external.cur] at here
    rw [external.sched]
    exact exclusive.back here
  · rw [external.cur] at nowhere
    rw [external.ctl]
    exact exclusive.off nowhere
  · rw [external.cur] at here
    rw [external.ctl]
    rcases external.state p with same | ⟨before, -⟩
    · rw [same]
      exact exclusive.on here
    · refine .inr ((exclusive.on here).resolve_left fun running => ?_)
      rw [before] at running
      cases running
  · rw [external.ctl]
    rcases external.state p with same | ⟨before, -⟩
    · exact exclusive.asleep (same.symm.trans sleeping)
    · exact exclusive.asleep before
  · rw [external.cur] at idle ⊢
    rw [external.sched] at pc
    obtain ⟨running, nowhere⟩ := exclusive.chosen idle pc
    rcases external.state p with same | ⟨before, -⟩
    · exact ⟨same.trans running, nowhere⟩
    · rw [before] at running
      cases running

theorem Heard.external {lk : Option L} (heard : Heard prog lk chan cond s)
    (external : External s s') (kept : cond s'.data → cond s.data) :
    Heard prog lk chan cond s' := by
  refine
    { tested := fun {p} test holds => ?_
      falling := fun {p} fell holds => ?_
      returns := fun {p next} after => ?_
      unlocking := fun {p lk' next} point => ?_
      noted := fun {p chan' lk' next} point => ?_
      sleeping := fun {t} asleep on holds => ?_ }
  · rw [external.ctl] at test
    exact heard.tested test (kept holds)
  · rw [external.ctl] at fell ⊢
    rw [external.cur]
    exact heard.falling fell (kept holds)
  · rw [external.ctl] at after
    exact heard.returns after
  · rw [external.ctl] at point
    exact heard.unlocking point
  · rw [external.ctl] at point
    rw [external.chan]
    exact heard.noted point
  · rw [external.chan] at on
    rw [external.cur, external.ctl]
    rcases external.state t with same | ⟨before, -⟩
    · exact heard.sleeping (same.symm.trans asleep) on (kept holds)
    · exact heard.sleeping before on (kept holds)

theorem Monitored.external (monitored : Monitored prog lk inv assertion fact s)
    (external : External s s') (keepsInv : inv s.data → inv s'.data)
    (keeps : ∀ ℓ, assertion ℓ s.data → assertion ℓ s'.data)
    (keepsFacts : ∀ p ℓ, fact p ℓ s.data → fact p ℓ s'.data) :
    Monitored prog lk inv assertion fact s' := by
  refine ⟨fun p => ?_, fun free => ?_, fun {c p} here held => ?_, fun {p lk' next} sleeper => ?_⟩
  · rw [external.ctl]
    exact keepsFacts p _ (monitored.facts p)
  · rw [external.holder] at free
    exact keepsInv (monitored.free free)
  · rw [external.cur] at here
    rw [external.ctl] at held ⊢
    have before := monitored.inside here held
    generalize s.ctl p = x at before ⊢
    cases x <;> first | exact keeps _ before | exact keepsInv before
  · rw [external.ctl] at sleeper
    exact monitored.origin sleeper

/-! ## Steps of the program -/

theorem System.cur_of_setCur_none [DecidableEq Cpu] {c' : Cpu} {q : Thread}
    (there : (s.setCur c none).cur c' = some q) : s.cur c' = some q := by
  have elsewhere : c' ≠ c := by
    rintro rfl
    simp [setCur] at there
  simpa [setCur, elsewhere] using there

namespace Monitored

variable (monitored : Monitored prog lk inv assertion fact s)
include monitored

/-- Where the lock is held, the assertion of the point holds. -/
theorem assertion_of_run (exclusive : Exclusive prog s) {ℓ : Loc} (point : s.ctl p = .run ℓ)
    (held : some lk ∈ prog.held ℓ) : assertion ℓ s.data := by
  obtain ⟨c, here⟩ := exclusive.on_cpu (p := p) fun resumable => by
    rw [point] at resumable
    cases resumable
  have asserts := monitored.inside here (by rw [point]; exact held)
  rw [point] at asserts
  exact asserts

/-- What the invariant and all assertions imply holds whether or not the lock is free. -/
theorem always {fact' : Data → Prop} (exclusive : Exclusive prog s) (free : ∀ {d}, inv d → fact' d)
    (implies : ∀ {ℓ d}, assertion ℓ d → fact' d) : fact' s.data := by
  cases holder : s.holder (some lk) with
  | none => exact free (monitored.free holder)
  | some c =>
    have held := (exclusive.owned _ c).mp holder
    cases current : s.cur c with
    | none =>
      rw [locks_sched current] at held
      cases pc : s.sched c <;> rw [pc] at held <;> cases held
    | some p =>
      rw [locks_thread current] at held
      have asserts := monitored.inside current held
      generalize s.ctl p = x at asserts
      cases x <;> first | exact implies asserts | exact free asserts

variable [DecidableEq Thread] {x : Ctl L Chan Loc Thread}

/-- A step that moves the thread `p` and does not change the data. -/
theorem moved (data : s'.data = s.data) (ctl : s'.ctl = update s.ctl p x)
    (cur : ∀ {c q}, s'.cur c = some q → s.cur c = some q) (facts : fact p x.loc s.data)
    (free : s'.holder (some lk) = none → s.holder (some lk) = none ∨ inv s.data)
    (inside : some lk ∈ prog.locks x → x.Asserts inv assertion s.data)
    (origin : ∀ {lk' next}, x.sleeper? = some (lk', next) →
      (s.ctl p).sleeper? = some (lk', next) ∨ ∃ ℓ chan, prog.code ℓ = .sleep chan lk' next) :
    Monitored prog lk inv assertion fact s' := by
  have self : s'.ctl p = x := by rw [ctl, update_self]
  have others {q : Thread} (other : q ≠ p) : s'.ctl q = s.ctl q := by
    rw [ctl, update_of_ne other]
  refine ⟨fun q => ?_, fun unlocked => ?_, fun {c q} here held => ?_,
    fun {q lk' next} sleeper => ?_⟩
  · rw [data]
    by_cases same : q = p
    · rw [same, self]
      exact facts
    · rw [others same]
      exact monitored.facts q
  · rw [data]
    exact (free unlocked).elim monitored.free id
  · rw [data]
    by_cases same : q = p
    · rw [same, self] at held ⊢
      exact inside held
    · rw [others same] at held ⊢
      exact monitored.inside (cur here) held
  · by_cases same : q = p
    · rw [same, self] at sleeper
      exact (origin sleeper).elim monitored.origin id
    · rw [others same] at sleeper
      exact monitored.origin sleeper

/-- A step within `sleep`, `sched` or `yield` to a point without the lock. -/
theorem aside {y : Ctl L Chan Loc Thread} (point : s.ctl p = y) (data : s'.data = s.data)
    (ctl : s'.ctl = update s.ctl p x) (cur : ∀ {c q}, s'.cur c = some q → s.cur c = some q)
    (free : s'.holder (some lk) = s.holder (some lk)) (loc : x.loc = y.loc)
    (unlocked : some lk ∉ prog.locks x) (sleeper : x.sleeper? = y.sleeper?) :
    Monitored prog lk inv assertion fact s' := by
  subst point
  refine monitored.moved data ctl cur ?_ (fun isFree => .inl (free ▸ isFree))
    (fun held => (unlocked held).elim) fun same => .inl (sleeper ▸ same)
  rw [loc]
  exact monitored.facts p

variable (protects : prog.Protects lk inv assertion fact allowed)
include protects

omit [DecidableEq Thread] in
/-- An instruction that keeps the lock. -/
theorem passed (exclusive : Exclusive prog s) {ℓ next : Loc} (point : s.ctl p = .run ℓ)
    (follows : (prog.code ℓ).next? = some next) (before : some lk ∈ prog.held ℓ)
    (after : some lk ∈ prog.held next) (awake : ∀ chan, prog.code ℓ ≠ .sleep chan (some lk) next) :
    assertion next s.data :=
  protects.pass follows before after awake (monitored.assertion_of_run exclusive point before)

variable [DecidableEq Cpu] [DecidableEq L] [DecidableEq Chan]
variable {table : List Thread}

omit [DecidableEq Cpu] [DecidableEq L] [DecidableEq Chan] in
/-- A computation leads to the assertion of the next point, or keeps all assertions. -/
theorem computed (exclusive : Exclusive prog s) (here : s.cur c = some p) {ℓ next : Loc} {d : Data}
    {outcomes : Data → Set (Data × Loc)} (point : s.ctl p = .run ℓ)
    (code : prog.code ℓ = .compute outcomes) (outcome : (d, next) ∈ outcomes s.data)
    (meets : allowed ℓ s.data) :
    Monitored prog lk inv assertion fact
      (({ s with data := d } : System Cpu Thread L Chan Data Loc).setCtl p (.run next)) := by
  have same := prog.held_compute code outcome
  have fact' : fact p ℓ s.data := by
    have known := monitored.facts p
    rw [point] at known
    exact known
  have inside (held : some lk ∈ prog.held ℓ) : assertion ℓ s.data :=
    monitored.assertion_of_run exclusive point held
  have facts (q : Thread) : fact q (update s.ctl p (.run next) q).loc d := by
    by_cases equal : q = p
    · subst equal
      rw [update_self]
      exact protects.establish code outcome meets inside fact'
    · rw [update_of_ne equal]
      exact protects.keep code outcome inside fact' equal (monitored.facts q)
  have others (q : Thread) (other : q ≠ p) : update s.ctl p (.run next) q = s.ctl q :=
    update_of_ne other _ _
  have origin {q : Thread} {lk' : Option L} {next' : Loc}
      (sleeper : (update s.ctl p (.run next) q).sleeper? = some (lk', next')) :
      ∃ ℓ chan, prog.code ℓ = .sleep chan lk' next' := by
    by_cases equal : q = p
    · subst equal
      rw [update_self] at sleeper
      cases sleeper
    · rw [others q equal] at sleeper
      exact monitored.origin sleeper
  by_cases held : some lk ∈ prog.held ℓ
  · -- Nobody else holds the lock.
    have mine : some lk ∈ prog.locks (s.ctl p) := by
      rw [point]
      exact held
    refine ⟨facts, fun free => ?_, fun {c' q} there within => ?_, origin⟩
    · exact (exclusive.notMem_of_free free here mine).elim
    · by_cases equal : q = p
      · subst equal
        rw [setCtl_self]
        exact protects.compute code held outcome meets fact' (inside held)
      · have theirs : some lk ∈ prog.locks (s.ctl q) := others q equal ▸ within
        exact (equal (exclusive.same_thread there here theirs mine)).elim
  · obtain ⟨keepsInv, keeps⟩ := protects.outside code held outcome fact'
    refine ⟨facts, fun free => keepsInv (monitored.free free), fun {c' q} there within => ?_,
      origin⟩
    by_cases equal : q = p
    · subst equal
      rw [setCtl_self] at within
      exact (held (same ▸ within)).elim
    · have theirs : some lk ∈ prog.locks (s.ctl q) := others q equal ▸ within
      have before := monitored.inside there theirs
      change (update s.ctl p (.run next) q).Asserts inv assertion d
      rw [others q equal]
      generalize s.ctl q = x at before ⊢
      cases x <;> first | exact keeps _ before | exact keepsInv before

/-- Every step of a thread keeps the data protected. -/
theorem thread (exclusive : Exclusive prog s) (meets : ∀ {ℓ}, s.ctl p = .run ℓ → allowed ℓ s.data)
    (here : s.cur c = some p) (step : ThreadStep prog table c p s s') :
    Monitored prog lk inv assertion fact s' := by
  have inside {ℓ : Loc} (point : s.ctl p = .run ℓ) (held : some lk ∈ prog.held ℓ) :
      assertion ℓ s.data :=
    monitored.assertion_of_run exclusive point held
  have fit := exclusive.fit p
  have known := monitored.facts p
  have other {lk' : Option L} {holder : Option Cpu} (different : some lk ≠ lk')
      (unlocked : update s.holder lk' holder (some lk) = none) :
      s.holder (some lk) = none ∨ inv s.data := by
    rw [update_of_ne different] at unlocked
    exact .inl unlocked
  cases step with
  | @acquire ℓ lk' next point code free =>
    rw [point] at known
    have known' := protects.follow (congrArg Instr.next? code) known
    obtain ⟨-, after⟩ := prog.held_acquire code
    by_cases same : lk' = some lk
    · subst same
      refine monitored.moved rfl rfl id known' (fun unlocked => .inl free) (fun _ => ?_)
        (by simp [Ctl.sleeper?])
      exact protects.acquire code known' (monitored.free free)
    · refine monitored.moved rfl rfl id known' (other (Ne.symm same)) (fun held => ?_)
        (by simp [Ctl.sleeper?])
      have held : some lk ∈ prog.held next := held
      have before : some lk ∈ prog.held ℓ := by
        rw [after] at held
        exact held.resolve_left (Ne.symm same)
      exact monitored.passed protects exclusive point (congrArg Instr.next? code) before held
        (by simp [code])
  | @release ℓ lk' next point code mine =>
    rw [point] at known
    have known' := protects.follow (congrArg Instr.next? code) known
    obtain ⟨before, after⟩ := prog.held_release code
    by_cases same : lk' = some lk
    · subst same
      refine monitored.moved rfl rfl id known' (fun unlocked => .inr ?_) (fun held => ?_)
        (by simp [Ctl.sleeper?])
      · exact protects.release code known (inside point before)
      · change some lk ∈ prog.held next at held
        rw [after] at held
        exact (held.2 rfl).elim
    · refine monitored.moved rfl rfl id known' (other (Ne.symm same)) (fun held => ?_)
        (by simp [Ctl.sleeper?])
      have held : some lk ∈ prog.held next := held
      have before : some lk ∈ prog.held ℓ := by
        rw [after] at held
        exact held.1
      exact monitored.passed protects exclusive point (congrArg Instr.next? code) before held
        (by simp [code])
  | compute point code outcome =>
    exact monitored.computed protects exclusive here point code outcome (meets point)
  | @sleepLock ℓ chan lk' next point code free =>
    rw [point] at known
    have known' := protects.follow (congrArg Instr.next? code) known
    refine monitored.moved rfl rfl id known' .inl (fun held => ?_)
      (fun sleeper => .inr ?_)
    · have same : lk = lk' := by
        rcases held with wrong | equal
        · cases wrong
        · exact Option.some.inj equal
      subst same
      exact protects.asleep code known (inside point (by rw [(prog.held_sleep code).1]; exact rfl))
    · cases sleeper
      exact ⟨ℓ, chan, code⟩
  | @sleepHeld ℓ chan next point code =>
    rw [point] at known
    have known' := protects.follow (congrArg Instr.next? code) known
    refine monitored.moved rfl rfl id known' .inl (fun held => ?_) (fun sleeper => .inr ?_)
    · cases held
    · cases sleeper
      exact ⟨ℓ, chan, code⟩
  | @sleepUnlock chan lk' next point mine =>
    rw [point] at known
    refine monitored.moved rfl rfl id known (fun unlocked => ?_) (fun held => ?_)
      (fun sleeper => .inl (point ▸ sleeper))
    · by_cases same : lk' = lk
      · subst same
        have asserts := monitored.inside here (by rw [point]; exact .inr rfl)
        rw [point] at asserts
        exact .inr asserts
      · exact other (by simpa using Ne.symm same) unlocked
    · cases held
  | sleepChan point | sleepState point | yieldState point =>
    exact monitored.aside point rfl rfl id rfl rfl (by rintro ⟨⟩) rfl
  | sleepSwitch point mine | yieldSwitch point mine =>
    exact monitored.aside point rfl rfl cur_of_setCur_none rfl rfl (by rintro ⟨⟩) rfl
  | @sleepTidy lk' next point =>
    cases lk' with
    | none =>
      rw [point] at fit known
      refine monitored.moved rfl rfl id known .inl (fun held => ?_) (by rintro _ _ ⟨⟩)
      change some lk ∈ prog.held next at held
      rw [show prog.held next = {none} from fit] at held
      cases held
    | some lk' =>
      exact monitored.aside point rfl rfl id rfl rfl (by rintro ⟨⟩) rfl
  | sleepRelease point mine =>
    exact monitored.aside point rfl rfl id rfl rfl (by rintro ⟨⟩) rfl
  | @sleepReacquire lk' next point free =>
    rw [point] at fit known
    refine monitored.moved rfl rfl id known (fun unlocked => ?_) (fun held => ?_)
      (by simp [Ctl.sleeper?])
    · by_cases same : lk' = lk
      · subst same
        exact .inl free
      · exact other (by simpa using Ne.symm same) unlocked
    · change some lk ∈ prog.held next at held
      rw [show prog.held next = {some lk'} from fit] at held
      obtain rfl := Option.some.inj held
      obtain ⟨ℓ, chan, code⟩ := monitored.origin (p := p)
        (by rw [point]; rfl : (s.ctl p).sleeper? = some (some lk, next))
      exact protects.awake code known (monitored.free free)
  | @wakeup ℓ chan next point code free =>
    rw [point] at known
    have known' := protects.follow (congrArg Instr.next? code) known
    obtain ⟨unheld, same⟩ := prog.held_wakeup code
    refine monitored.moved rfl rfl id known' .inl (fun held => ?_)
      (by simp [Ctl.sleeper?])
    have after : some lk ∈ prog.held next := held.resolve_left (by simp)
    exact monitored.passed protects exclusive point (congrArg Instr.next? code) (same ▸ after)
      after (by simp [code])
  | @wakeup1 ℓ chan next point code =>
    rw [point] at known
    have known' := protects.follow (congrArg Instr.next? code) known
    obtain ⟨held, same⟩ := prog.held_wakeup1 code
    refine monitored.moved rfl rfl id known' .inl (fun held => ?_) (by simp [Ctl.sleeper?])
    have after : some lk ∈ prog.held next := held.resolve_left (by simp)
    exact monitored.passed protects exclusive point (congrArg Instr.next? code) (same ▸ after)
      after (by simp [code])
  | @wakeSlot chan t todo unlock next point =>
    rw [point] at known
    have unchanged : (s.wake chan t).data = s.data ∧ (s.wake chan t).cur = s.cur ∧
        (s.wake chan t).holder = s.holder := by
      unfold wake
      split <;> exact ⟨rfl, rfl, rfl⟩
    obtain ⟨data, cur, holder⟩ := unchanged
    refine monitored.moved data (congrArg (update · p _) (wake_ctl ..))
      (cur ▸ id) known (holder ▸ .inl) (fun held => ?_) (by simp [Ctl.sleeper?])
    have asserts := monitored.inside here (by rw [point]; exact held)
    rw [point] at asserts
    exact asserts
  | @wakeDone chan unlock next point =>
    rw [point] at known
    refine monitored.moved rfl rfl id (by cases unlock <;> exact known) .inl (fun held => ?_) ?_
    · have before : some lk ∈ prog.locks (s.ctl p) := by
        rw [point]
        cases unlock with
        | true => exact held
        | false => exact Set.mem_insert_of_mem none held
      have asserts := monitored.inside here before
      rw [point] at asserts
      cases unlock <;> exact asserts
    · cases unlock <;> simp [Ctl.afterScan, Ctl.sleeper?]
  | @wakeRelease next point mine =>
    rw [point] at known
    refine monitored.moved rfl rfl id known .inl (fun held => ?_)
      (by simp [Ctl.sleeper?])
    have asserts := monitored.inside here
      (by rw [point]; exact Set.mem_insert_of_mem none held)
    rw [point] at asserts
    exact asserts
  | yieldLock point unlocked free =>
    exact monitored.aside rfl rfl rfl id rfl rfl (by rintro ⟨⟩) rfl
  | @yieldRelease back point mine =>
    rw [point] at fit
    refine monitored.aside point rfl rfl id rfl rfl ?_ rfl
    rw [fit.2]
    rintro ⟨⟩

omit protects in
omit [DecidableEq Chan] in
/-- Every step of a scheduler keeps the data protected. -/
theorem sched (exclusive : Exclusive prog s) (idle : s.cur c = none) (step : SchedStep c s s') :
    Monitored prog lk inv assertion fact s' := by
  cases step with
  | acquire pc free =>
    refine ⟨monitored.facts, fun unlocked => monitored.free ?_, monitored.inside, monitored.origin⟩
    change update s.holder none (some c) (some lk) = none at unlocked
    rwa [update_of_ne (by simp)] at unlocked
  | choose => exact ⟨monitored.facts, monitored.free, monitored.inside, monitored.origin⟩
  | @switch q pc =>
    refine ⟨monitored.facts, monitored.free, fun {c' r} there held => ?_, monitored.origin⟩
    by_cases same : c' = c
    · subst same
      have equal : q = r := by simpa [setSched, setCur] using there
      subst equal
      have resumable := exclusive.off (exclusive.chosen idle pc).2
      have held : some lk ∈ prog.locks (s.ctl q) := held
      rw [resumable.locks_eq] at held
      cases held
    · exact monitored.inside (by simpa [setSched, setCur, same] using there) held
  | release pc mine =>
    refine ⟨monitored.facts, fun unlocked => monitored.free ?_, monitored.inside, monitored.origin⟩
    change update s.holder none none (some lk) = none at unlocked
    rwa [update_of_ne (by simp)] at unlocked

/-- Every step keeps the data protected. -/
theorem step (exclusive : Exclusive prog s) (meets : ∀ {p ℓ}, s.ctl p = .run ℓ → allowed ℓ s.data)
    (step : Step prog table s s') : Monitored prog lk inv assertion fact s' := by
  cases step with
  | thread here step => exact monitored.thread protects exclusive meets here step
  | sched idle step => exact monitored.sched exclusive idle step

end Monitored

end Xv6.Sync
