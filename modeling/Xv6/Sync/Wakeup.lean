import Xv6.Sync.Exclusion

/-!
# No wakeup is lost

A condition on the shared data is guarded by a lock and a channel when threads
sleep on the channel with that lock and only after they have found the condition
false, and when every step that makes the condition true is made under the lock
and goes on to a wakeup of the channel.  Then no thread sleeps on the channel
while the lock is free and the condition holds.

The reason is the order of locks in `sleep`: a thread takes `ptable.lock` before it
gives back the lock of the condition.  From its test until it is `SLEEPING` it holds
one of them, so a thread that makes the condition true in between is still waiting
for `ptable.lock` and will find the sleeper.
-/

namespace Xv6.Sync

open Sync.System

open Function (update update_of_ne update_self)

variable {Cpu Thread L Chan Data Loc : Type}

/-- The point goes to sleep on the channel. -/
def Program.Sleeps (prog : Program L Chan Data Loc) (chan : Chan) (ℓ : Loc) : Prop :=
  ∃ lk next, prog.code ℓ = .sleep chan lk next

/-- The point wakes the channel. -/
def Program.Wakes (prog : Program L Chan Data Loc) (chan : Chan) (ℓ : Loc) : Prop :=
  ∃ next, prog.code ℓ = .wakeup chan next ∨ prog.code ℓ = .wakeup1 chan next

/-- Where an instruction that does not compute goes on. -/
def Instr.next? : Instr L Chan Data Loc → Option Loc
  | .acquire _ next | .release _ next | .sleep _ _ next | .wakeup _ next | .wakeup1 _ next =>
    some next
  | .compute _ => none

/-- Where a thread goes on after `sleep`, `wakeup` or `yield`. -/
def Ctl.next? : Ctl L Chan Loc Thread → Option Loc
  | .run _ => none
  | .sleepUnlock _ _ next | .sleepChan _ _ next | .sleepState _ _ next | .sleepSwitch _ next
  | .sleepTidy _ next | .sleepRelease _ next | .sleepReacquire _ next | .wakeScan _ _ _ next
  | .wakeRelease next => some next
  | .yieldState back | .yieldSwitch back | .yieldRelease back => back.next?

/-- The program waits for `cond` on `chan` under `lk`.  What is known of the data at each
point may be used to see when the condition becomes true. -/
structure Program.Guards (prog : Program L Chan Data Loc) (lk : Option L) (chan : Chan)
    (cond : Data → Prop) (known : Loc → Data → Prop) : Prop where
  /-- Sleepers use the lock of the condition. -/
  lock : ∀ {ℓ lk' next}, prog.code ℓ = .sleep chan lk' next → lk' = lk
  /-- Another instruction leads to a sleep only where the condition is known to be false. -/
  entered : ∀ {ℓ next d}, (prog.code ℓ).next? = some next → prog.Sleeps chan next →
    known next d → ¬ cond d
  /-- A computation that leads to a sleep has found the condition false. -/
  tested : ∀ {ℓ outcomes d d' next}, prog.code ℓ = .compute outcomes →
    (d', next) ∈ outcomes d → prog.Sleeps chan next → known ℓ d → known next d' → ¬ cond d'
  /-- The condition is made true under the lock, and a wakeup follows. -/
  signalled : ∀ {ℓ outcomes d d' next}, prog.code ℓ = .compute outcomes →
    (d', next) ∈ outcomes d → known ℓ d → ¬ cond d → cond d' →
    lk ∈ prog.held ℓ ∧ prog.Wakes chan next

section Points

variable (prog : Program L Chan Data Loc) (lk : Option L) (chan : Chan)

/-- A thread that has tested the condition and still holds its lock. -/
inductive Ctl.Tested : Ctl L Chan Loc Thread → Prop
  | run {ℓ : Loc} : prog.Sleeps chan ℓ → Tested (.run ℓ)
  | sleepUnlock (lk : L) (next : Loc) : Tested (.sleepUnlock chan lk next)

/-- A thread on its way to sleep that holds `ptable.lock` only. -/
inductive Ctl.Falling : Ctl L Chan Loc Thread → Prop
  | sleepChan (lk : Option L) (next : Loc) : Falling (.sleepChan chan lk next)
  | sleepState (lk : Option L) (next : Loc) : Falling (.sleepState chan lk next)

/-- A thread that is about to wake the channel under the lock. -/
inductive Ctl.Signals : Ctl L Chan Loc Thread → Prop
  | run {ℓ : Loc} : prog.Wakes chan ℓ → lk ∈ prog.held ℓ → Signals (.run ℓ)

/-- A thread that will wake `t`, and keeps the lock until then. -/
inductive Ctl.WillWake (t : Thread) : Ctl L Chan Loc Thread → Prop
  | signals {x : Ctl L Chan Loc Thread} : x.Signals prog lk chan → WillWake t x
  | scan {todo : List Thread} (unlock : Bool) {next : Loc} : t ∈ todo → lk ∈ prog.held next →
      WillWake t (.wakeScan chan todo unlock next)

end Points

/-- The invariant of a guarded condition. -/
structure Heard (prog : Program L Chan Data Loc) (lk : Option L) (chan : Chan)
    (cond : Data → Prop) (s : System Cpu Thread L Chan Data Loc) : Prop where
  tested : ∀ {p}, (s.ctl p).Tested prog chan → ¬ cond s.data
  falling : ∀ {p}, (s.ctl p).Falling chan → cond s.data →
    ∃ c q, s.cur c = some q ∧ (s.ctl q).Signals prog lk chan
  returns : ∀ {p next}, (s.ctl p).next? = some next → ∃ ℓ, (prog.code ℓ).next? = some next
  unlocking : ∀ {p lk' next}, s.ctl p = .sleepUnlock chan lk' next → some lk' = lk
  noted : ∀ {p chan' lk' next}, s.ctl p = .sleepState chan' lk' next → s.chan p = some chan'
  sleeping : ∀ {p}, s.state p = .sleeping → s.chan p = some chan → cond s.data →
    ∃ c q, s.cur c = some q ∧ (s.ctl q).WillWake prog lk chan p

variable {prog : Program L Chan Data Loc} {lk : Option L} {chan : Chan} {cond : Data → Prop}
variable {known : Loc → Data → Prop}
variable {s s' : System Cpu Thread L Chan Data Loc} {c : Cpu} {p : Thread}

variable {t : Thread} {d : Data} {next ℓ : Loc} {holds : Prop}

theorem Ctl.WillWake.locked {x : Ctl L Chan Loc Thread} (wakes : x.WillWake prog lk chan t) :
    lk ∈ prog.locks x := by
  cases wakes with
  | signals signals =>
    cases signals with
    | run _ held => exact held
  | scan _ _ held => exact Set.mem_insert_of_mem none held

theorem Ctl.Falling.locked {x : Ctl L Chan Loc Thread} (falling : x.Falling chan) :
    none ∈ prog.locks x := by
  cases falling <;> exact rfl

theorem Ctl.Falling.not_resumable {x : Ctl L Chan Loc Thread} (falling : x.Falling chan) :
    ¬ x.Resumable := by
  intro resumable
  cases falling <;> cases resumable

namespace Heard

theorem locked_of_tested (heard : Heard prog lk chan cond s)
    (guards : prog.Guards lk chan cond known)
    (tested : (s.ctl p).Tested prog chan) : lk ∈ prog.locks (s.ctl p) := by
  generalize point : s.ctl p = x at tested
  cases tested with
  | run sleeps =>
    obtain ⟨lk', next, code⟩ := sleeps
    obtain rfl := guards.lock code
    change lk' ∈ prog.held _
    rw [(prog.held_sleep code).1]
    exact rfl
  | sleepUnlock lk' next =>
    rw [← heard.unlocking point]
    exact Set.mem_insert_of_mem none rfl

/-- A step that moves the thread `p` and does not change the data. -/
theorem of_thread [DecidableEq Thread] {x : Ctl L Chan Loc Thread}
    (heard : Heard prog lk chan cond s) (data : s'.data = s.data) (ctl : s'.ctl = update s.ctl p x)
    (channel : ∀ q ≠ p, s'.chan q = s.chan q)
    (cur : ∀ {c q}, q ≠ p → s.cur c = some q → s'.cur c = some q)
    (tested : x.Tested prog chan → ¬ cond s.data)
    (falling : x.Falling chan → ¬ cond s.data ∨ (s.ctl p).Falling chan)
    (returns : ∀ {next}, x.next? = some next →
      (s.ctl p).next? = some next ∨ ∃ ℓ, (prog.code ℓ).next? = some next)
    (unlocking : ∀ {lk' next}, x = .sleepUnlock chan lk' next → some lk' = lk)
    (noted : ∀ {chan' lk' next}, x = .sleepState chan' lk' next → s'.chan p = some chan')
    (signals : (s.ctl p).Signals prog lk chan → ∀ q, ¬ (s.ctl q).Falling chan)
    (sleepers : ∀ {t}, s'.state t = .sleeping → s'.chan t = some chan →
      s.state t = .sleeping ∧ s.chan t = some chan ∨ (s.ctl t).Falling chan)
    (waker : ∀ {t}, s'.state t = .sleeping → s'.chan t = some chan →
      (s.ctl p).WillWake prog lk chan t →
      (∃ c, s'.cur c = some p) ∧ x.WillWake prog lk chan t) : Heard prog lk chan cond s' := by
  have self : s'.ctl p = x := by rw [ctl, update_self]
  have others (q : Thread) (other : q ≠ p) : s'.ctl q = s.ctl q := by
    rw [ctl, update_of_ne other]
  -- A thread that signals while another falls asleep is not the one that steps.
  have signalled {q : Thread} (fell : (s.ctl q).Falling chan) (holds : cond s.data) :
      ∃ c q, s'.cur c = some q ∧ (s'.ctl q).Signals prog lk chan := by
    obtain ⟨c, r, there, signal⟩ := heard.falling fell holds
    have other : r ≠ p := by
      rintro rfl
      exact signals signal q fell
    exact ⟨c, r, cur other there, others r other ▸ signal⟩
  refine
    { tested := fun {q} test => ?_
      falling := fun {q} fell holds => ?_
      returns := fun {q next} after => ?_
      unlocking := fun {q lk' next} point => ?_
      noted := fun {q chan' lk' next} point => ?_
      sleeping := fun {t} asleep on holds => ?_ }
  · rw [data]
    by_cases same : q = p
    · exact tested (by rwa [same, self] at test)
    · exact heard.tested (others q same ▸ test)
  · rw [data] at holds
    by_cases same : q = p
    · rw [same, self] at fell
      exact signalled ((falling fell).resolve_left fun not => not holds) holds
    · exact signalled (others q same ▸ fell) holds
  · by_cases same : q = p
    · rw [same, self] at after
      exact (returns after).elim heard.returns id
    · exact heard.returns (others q same ▸ after)
  · by_cases same : q = p
    · exact unlocking (self.symm.trans (same ▸ point))
    · exact heard.unlocking (others q same ▸ point)
  · by_cases same : q = p
    · subst same
      exact noted (self.symm.trans point)
    · rw [channel q same]
      exact heard.noted (others q same ▸ point)
  · rw [data] at holds
    rcases sleepers asleep on with ⟨before, on'⟩ | fell
    · obtain ⟨c, q, there, wakes⟩ := heard.sleeping before on' holds
      by_cases same : q = p
      · subst same
        obtain ⟨⟨c', here⟩, still⟩ := waker asleep on wakes
        exact ⟨c', q, here, self ▸ still⟩
      · exact ⟨c, q, cur same there, others q same ▸ wakes⟩
    · obtain ⟨c, q, there, signal⟩ := signalled fell holds
      exact ⟨c, q, there, .signals signal⟩

end Heard

/-- A point that is not on the way to sleep, unless the condition is false. -/
structure Ctl.Plain (prog : Program L Chan Data Loc) (chan : Chan) (holds : Prop)
    (x : Ctl L Chan Loc Thread) : Prop where
  tested : x.Tested prog chan → ¬ holds
  falling : ¬ x.Falling chan
  unlocking : ∀ {lk next}, x ≠ .sleepUnlock chan lk next
  noted : ∀ {chan' lk next}, x ≠ .sleepState chan' lk next

theorem Program.Guards.plain_next (guards : prog.Guards lk chan cond known)
    (follows : (prog.code ℓ).next? = some next) (fact : known next d) :
    (.run next : Ctl L Chan Loc Thread).Plain prog chan (cond d) where
  tested test := by
    cases test with
    | run sleeps => exact guards.entered follows sleeps fact
  falling fell := by cases fell
  unlocking point := by cases point
  noted point := by cases point

/-- A thread without locks is not on the way to sleep. -/
theorem Ctl.plain_of_unlocked {x : Ctl L Chan Loc Thread} (unlocked : prog.locks x = ∅) :
    x.Plain prog chan holds where
  tested test := by
    exfalso
    cases test with
    | run sleeps =>
      obtain ⟨lk, next, code⟩ := sleeps
      change prog.held _ = ∅ at unlocked
      rw [(prog.held_sleep code).1] at unlocked
      exact Set.singleton_ne_empty lk unlocked
    | sleepUnlock lk next => exact (Set.insert_nonempty _ _).ne_empty unlocked
  falling fell := by cases fell <;> exact Set.singleton_ne_empty _ unlocked
  unlocking point := by
    subst point
    exact (Set.insert_nonempty _ _).ne_empty unlocked
  noted point := by
    subst point
    exact Set.singleton_ne_empty _ unlocked

/-- The points after a thread has gone to sleep or has woken others. -/
def Ctl.inert : Ctl L Chan Loc Thread → Bool
  | .run _ | .sleepUnlock _ _ _ | .sleepChan _ _ _ | .sleepState _ _ _ | .wakeScan _ _ _ _ => false
  | _ => true

theorem Ctl.plain_of_inert {x : Ctl L Chan Loc Thread} (inert : x.inert = true) :
    x.Plain prog chan holds where
  tested test := by cases test <;> contradiction
  falling fell := by cases fell <;> contradiction
  unlocking point := by
    subst point
    contradiction
  noted point := by
    subst point
    contradiction

theorem Ctl.not_willWake_of_inert {x : Ctl L Chan Loc Thread} (inert : x.inert = true)
    (t : Thread) : ¬ x.WillWake prog lk chan t := by
  intro wakes
  cases wakes with
  | signals signals => cases signals; contradiction
  | scan => contradiction

theorem Ctl.not_willWake_run (code : ¬ prog.Wakes chan ℓ) :
    ¬ (.run ℓ : Ctl L Chan Loc Thread).WillWake prog lk chan t := by
  intro wakes
  cases wakes with
  | signals signals =>
    cases signals with
    | run wakes => exact code wakes

namespace Heard

variable [DecidableEq Thread] {x : Ctl L Chan Loc Thread}

variable (heard : Heard prog lk chan cond s)
include heard

/-- A step of a thread that neither wakes others nor goes to sleep. -/
theorem quiet (data : s'.data = s.data) (ctl : s'.ctl = update s.ctl p x)
    (channel : ∀ q ≠ p, s'.chan q = s.chan q)
    (cur : ∀ {c q}, q ≠ p → s.cur c = some q → s'.cur c = some q)
    (before : ∀ t, ¬ (s.ctl p).WillWake prog lk chan t) (after : x.Plain prog chan (cond s.data))
    (returns : ∀ {next}, x.next? = some next → (s.ctl p).next? = some next)
    (sleepers : ∀ {t}, s'.state t = .sleeping → s'.chan t = some chan →
      s.state t = .sleeping ∧ s.chan t = some chan) : Heard prog lk chan cond s' :=
  heard.of_thread data ctl channel cur
    after.tested
    (fun fell => (after.falling fell).elim)
    (fun next => .inl (returns next))
    (fun point => (after.unlocking point).elim)
    (fun point => (after.noted point).elim)
    (fun signals => (before p (.signals signals)).elim)
    (fun asleep on => .inl (sleepers asleep on))
    (fun {t} _ _ wakes => (before t wakes).elim)

/-- A step that only moves the thread and its locks. -/
theorem moved (holder : Option L → Option Cpu) (before : ∀ t, ¬ (s.ctl p).WillWake prog lk chan t)
    (after : x.Plain prog chan (cond s.data))
    (returns : ∀ {next}, x.next? = some next → (s.ctl p).next? = some next) :
    Heard prog lk chan cond
      (({ s with holder } : System Cpu Thread L Chan Data Loc).setCtl p x) :=
  heard.quiet rfl rfl (fun _ _ => rfl) (fun _ there => there) before after returns
    fun asleep on => ⟨asleep, on⟩

variable [DecidableEq Cpu]

/-- A context switch to the scheduler. -/
theorem left (here : s.cur c = some p) (before : (s.ctl p).inert = true) (after : x.inert = true)
    (returns : ∀ {next}, x.next? = some next → (s.ctl p).next? = some next) :
    Heard prog lk chan cond ((s.setCur c none).setCtl p x) := by
  refine heard.quiet rfl rfl (fun _ _ => rfl) (fun {c' q} other there => ?_)
    (Ctl.not_willWake_of_inert before) (Ctl.plain_of_inert after) returns
    fun asleep on => ⟨asleep, on⟩
  have elsewhere : c' ≠ c := by
    rintro rfl
    exact other (Option.some.inj (there.symm.trans here))
  simpa [setCtl, setCur, elsewhere] using there

variable [DecidableEq L] [DecidableEq Chan] {table : List Thread}

omit [DecidableEq Cpu] [DecidableEq L] [DecidableEq Chan] in
/-- A computation keeps the invariant: what makes the condition true is followed by a
wakeup, and excludes a thread that has just tested it. -/
theorem computed (guards : prog.Guards lk chan cond known) (inv : Exclusive prog s)
    (here : s.cur c = some p) {outcomes : Data → Set (Data × Loc)} (point : s.ctl p = .run ℓ)
    (code : prog.code ℓ = .compute outcomes) (outcome : (d, next) ∈ outcomes s.data)
    (knownHere : known ℓ s.data) (knownNext : known next d) :
    Heard prog lk chan cond
      (({ s with data := d } : System Cpu Thread L Chan Data Loc).setCtl p (.run next)) := by
  have others (q : Thread) (other : q ≠ p) : update s.ctl p (.run next) q = s.ctl q :=
    update_of_ne other _ _
  have idle (t : Thread) : ¬ (s.ctl p).WillWake prog lk chan t := by
    rw [point]
    exact Ctl.not_willWake_run (by rintro ⟨_, wakes | wakes⟩ <;> simp [code] at wakes)
  have signals (before : ¬ cond s.data) (holds : cond d) :
      (.run next : Ctl L Chan Loc Thread).Signals prog lk chan := by
    obtain ⟨held, wakes⟩ := guards.signalled code outcome knownHere before holds
    exact .run wakes (prog.held_compute code outcome ▸ held)
  refine
    { tested := fun {q} test holds => ?_
      falling := fun {q} fell holds => ?_
      returns := fun {q next'} after => ?_
      unlocking := fun {q lk' next'} at_ => ?_
      noted := fun {q chan' lk' next'} at_ => ?_
      sleeping := fun {t} asleep on holds => ?_ }
  · by_cases same : q = p
    · subst same
      rw [setCtl_self] at test
      cases test with
      | run sleeps => exact guards.tested code outcome sleeps knownHere knownNext holds
    · have test : (s.ctl q).Tested prog chan := others q same ▸ test
      have held := (guards.signalled code outcome knownHere (heard.tested test) holds).1
      obtain ⟨c', there⟩ := inv.on_cpu (p := q) fun resumable => by
        generalize s.ctl q = x at test resumable
        cases resumable <;> cases test
      have mine : lk ∈ prog.locks (s.ctl p) := by
        rw [point]
        exact held
      exact same (inv.same_thread there here (heard.locked_of_tested guards test) mine)
  · by_cases same : q = p
    · subst same
      rw [setCtl_self] at fell
      cases fell
    · have fell : (s.ctl q).Falling chan := others q same ▸ fell
      by_cases before : cond s.data
      · obtain ⟨c', r, there, signal⟩ := heard.falling fell before
        have other : r ≠ p := by
          rintro rfl
          exact idle r (.signals signal)
        exact ⟨c', r, there, by rw [← others r other] at signal; exact signal⟩
      · exact ⟨c, p, here, by rw [setCtl_self]; exact signals before holds⟩
  · by_cases same : q = p
    · subst same
      rw [setCtl_self] at after
      cases after
    · exact heard.returns (p := q) (others q same ▸ after)
  · by_cases same : q = p
    · subst same
      rw [setCtl_self] at at_
      cases at_
    · exact heard.unlocking (p := q) ((others q same).symm.trans at_)
  · by_cases same : q = p
    · subst same
      rw [setCtl_self] at at_
      cases at_
    · exact heard.noted (p := q) ((others q same).symm.trans at_)
  · by_cases before : cond s.data
    · obtain ⟨c', r, there, wakes⟩ := heard.sleeping asleep on before
      have other : r ≠ p := by
        rintro rfl
        exact idle t wakes
      exact ⟨c', r, there, by rw [← others r other] at wakes; exact wakes⟩
    · refine ⟨c, p, here, .signals ?_⟩
      rw [setCtl_self]
      exact signals before holds

omit [DecidableEq Cpu] [DecidableEq L] [DecidableEq Chan] in
/-- A step towards sleep before the process state changes. -/
theorem fallsAsleep (holder : Option L → Option Cpu) {x' : Ctl L Chan Loc Thread}
    (point : s.ctl p = x) (before : ∀ t, ¬ x.WillWake prog lk chan t)
    (tested : x'.Tested prog chan → x.Tested prog chan)
    (falling : x'.Falling chan → x.Tested prog chan) (returns : ∀ {next}, x'.next? = some next →
      x.next? = some next ∨ ∃ ℓ, (prog.code ℓ).next? = some next)
    (unlocking : ∀ {lk' next}, x' = .sleepUnlock chan lk' next → some lk' = lk)
    (noted : ∀ {chan' lk' next}, x' ≠ .sleepState chan' lk' next) :
    Heard prog lk chan cond
      (({ s with holder } : System Cpu Thread L Chan Data Loc).setCtl p x') := by
  subst point
  exact heard.of_thread rfl rfl (fun _ _ => rfl) (fun _ there => there)
    (fun test => heard.tested (tested test))
    (fun fell => .inl (heard.tested (falling fell)))
    returns unlocking
    (fun same => (noted same).elim)
    (fun signals => (before p (.signals signals)).elim)
    (fun asleep on => .inl ⟨asleep, on⟩)
    (fun {t} _ _ wakes => (before t wakes).elim)

omit [DecidableEq Cpu] [DecidableEq L] [DecidableEq Chan] in
/-- The start of a scan for sleepers, while nobody is falling asleep. -/
theorem startsScan (holder : Option L → Option Cpu) (here : s.cur c = some p) {chan' : Chan}
    {unlock : Bool} (point : s.ctl p = .run ℓ)
    (code : prog.code ℓ = .wakeup chan' next ∨ prog.code ℓ = .wakeup1 chan' next)
    (everyone : ∀ t, t ∈ table) (nobody : ∀ q, ¬ (s.ctl q).Falling chan) :
    Heard prog lk chan cond (({ s with holder } : System Cpu Thread L Chan Data Loc).setCtl p
      (.wakeScan chan' table unlock next)) := by
  refine heard.of_thread rfl rfl (fun _ _ => rfl) (fun _ there => there) nofun nofun ?_ nofun nofun
    (fun _ => nobody) (fun asleep on => .inl ⟨asleep, on⟩) ?_
  · intro next' after
    refine .inr ⟨ℓ, ?_⟩
    rcases code with code | code <;> exact (congrArg Instr.next? code).trans after
  · intro t _ _ wakes
    rw [point] at wakes
    refine ⟨⟨c, here⟩, ?_⟩
    cases wakes with
    | signals signals =>
      cases signals with
      | run wakes held =>
        obtain ⟨next', wakes⟩ := wakes
        have same : chan' = chan ∧ prog.held next = prog.held ℓ := by
          rcases code with code | code
          · refine ⟨?_, (prog.held_wakeup code).2⟩
            rcases wakes with wakes | wakes <;> rw [code] at wakes <;> cases wakes
            rfl
          · refine ⟨?_, (prog.held_wakeup1 code).2⟩
            rcases wakes with wakes | wakes <;> rw [code] at wakes <;> cases wakes
            rfl
        obtain ⟨rfl, sameHeld⟩ := same
        exact .scan unlock (everyone t) (sameHeld ▸ held)

/-- Every step of a thread keeps the invariant. -/
theorem thread (guards : prog.Guards lk chan cond known) (everyone : ∀ t, t ∈ table)
    (inv : Exclusive prog s) (facts : ∀ {p ℓ}, s.ctl p = .run ℓ → known ℓ s.data)
    (here : s.cur c = some p) (facts' : ∀ {p ℓ}, s'.ctl p = .run ℓ → known ℓ s'.data)
    (step : ThreadStep prog table c p s s') : Heard prog lk chan cond s' := by
  cases step with
  | acquire point code free | release point code mine =>
    refine heard.moved _ ?_
      (guards.plain_next (congrArg Instr.next? code) (facts' (setCtl_self ..)))
      (by simp [Ctl.next?])
    rw [point]
    exact fun t => Ctl.not_willWake_run (by rintro ⟨_, wakes | wakes⟩ <;> simp [code] at wakes)
  | compute point code outcome =>
    exact heard.computed guards inv here point code outcome (facts point) (facts' (setCtl_self ..))
  | @sleepLock ℓ chan' lk' next point code free =>
    refine heard.fallsAsleep _ point
      (fun t => Ctl.not_willWake_run (by rintro ⟨_, wakes | wakes⟩ <;> simp [code] at wakes))
      (fun test => ?_) nofun (fun after => .inr ⟨ℓ, (congrArg Instr.next? code).trans after⟩)
      (fun same => ?_) nofun
    · cases test with
      | sleepUnlock => exact .run ⟨some lk', next, code⟩
    · cases same
      exact guards.lock code
  | @sleepHeld ℓ chan' next point code =>
    refine heard.fallsAsleep s.holder point
      (fun t => Ctl.not_willWake_run (by rintro ⟨_, wakes | wakes⟩ <;> simp [code] at wakes))
      nofun (fun fell => ?_) (fun after => .inr ⟨ℓ, (congrArg Instr.next? code).trans after⟩)
      nofun nofun
    cases fell with
    | sleepChan => exact .run ⟨none, next, code⟩
  | @sleepUnlock chan' lk' next point mine =>
    refine heard.fallsAsleep _ point (fun t wakes => ?_) nofun (fun fell => ?_) .inl nofun nofun
    · cases wakes with
      | signals signals => cases signals
    · cases fell with
      | sleepChan => exact .sleepUnlock lk' next
  | @sleepChan chan' lk' next point =>
    refine heard.of_thread rfl rfl (fun q other => update_of_ne other _ _)
      (fun _ there => there) nofun (fun fell => .inr ?_) (fun after => .inl (point ▸ after)) nofun
      (fun same => ?_) ?_ (fun {t} asleep on => .inl ?_) ?_
    · cases fell with
      | sleepState =>
        rw [point]
        exact .sleepChan _ _
    · cases same
      exact update_self _ _ _
    · rw [point]
      exact nofun
    · have other : t ≠ p := by
        rintro rfl
        have atSleep := inv.asleep asleep
        rw [point] at atSleep
        cases atSleep
      exact ⟨asleep, (update_of_ne other _ _).symm.trans on⟩
    · rw [point]
      intro t _ _ wakes
      cases wakes with
      | signals signals => cases signals
  | @sleepState chan' lk' next point =>
    refine heard.of_thread rfl rfl (fun _ _ => rfl) (fun _ there => there) nofun nofun
      (fun after => .inl (point ▸ after)) nofun nofun ?_ (fun {t} asleep on => ?_) ?_
    · rw [point]
      exact nofun
    · by_cases same : t = p
      · subst same
        obtain rfl := Option.some.inj ((heard.noted point).symm.trans on)
        exact .inr (point ▸ .sleepState _ _)
      · exact .inl ⟨(update_of_ne same _ _).symm.trans asleep, on⟩
    · rw [point]
      intro t _ _ wakes
      cases wakes with
      | signals signals => cases signals
  | sleepSwitch point mine | yieldSwitch point mine =>
    exact heard.left here (point ▸ rfl) rfl (fun after => point ▸ after)
  | @sleepTidy lk' next point =>
    obtain ⟨ℓ, follows⟩ := heard.returns (p := p) (point ▸ rfl : (s.ctl p).next? = some next)
    refine heard.quiet rfl rfl (fun q other => update_of_ne other _ _)
      (fun _ there => there) ?_ ?_ ?_ fun {t} asleep on => ?_
    · rw [point]
      exact Ctl.not_willWake_of_inert rfl
    · cases lk' with
      | none => exact guards.plain_next follows (facts' (setCtl_self ..))
      | some lk' => exact Ctl.plain_of_inert rfl
    · rw [point]
      cases lk' with
      | none => simp [Ctl.afterTidy, Ctl.next?]
      | some lk' => exact id
    · by_cases same : t = p
      · simp [setCtl, setChan, same] at on
      · exact ⟨asleep, by simpa [setCtl, setChan, same] using on⟩
  | sleepRelease point mine =>
    refine heard.moved _ ?_ (Ctl.plain_of_inert rfl) (fun after => point ▸ after)
    rw [point]
    exact Ctl.not_willWake_of_inert rfl
  | @sleepReacquire lk' next point free | @wakeRelease next point mine =>
    obtain ⟨ℓ, follows⟩ := heard.returns (p := p) (point ▸ rfl : (s.ctl p).next? = some next)
    refine heard.moved _ ?_ (guards.plain_next follows (facts' (setCtl_self ..)))
      (by simp [Ctl.next?])
    rw [point]
    exact Ctl.not_willWake_of_inert rfl
  | @wakeup ℓ chan' next point code free =>
    apply heard.startsScan _ here point (.inl code) everyone
    intro q fell
    obtain ⟨c', there⟩ := inv.on_cpu (p := q) fell.not_resumable
    exact inv.notMem_of_free free there fell.locked
  | @wakeup1 ℓ chan' next point code =>
    apply heard.startsScan s.holder here point (.inr code) everyone
    intro q fell
    obtain ⟨c', there⟩ := inv.on_cpu (p := q) fell.not_resumable
    have mine : none ∈ prog.locks (s.ctl p) := by
      rw [point]
      exact (prog.held_wakeup1 code).1
    obtain rfl := inv.same_thread there here fell.locked mine
    rw [point] at fell
    cases fell
  | @wakeSlot chan' t todo unlock next point =>
    have states (t' : Thread) (asleep : (s.wake chan' t).state t' = .sleeping) :
        s.state t' = .sleeping ∧ ¬ (t' = t ∧ s.chan t = some chan') := by
      unfold wake at asleep
      split at asleep
      · rename_i hit
        have other : t' ≠ t := by
          rintro rfl
          simp [setState] at asleep
        rw [setState] at asleep
        exact ⟨(update_of_ne other _ _).symm.trans asleep, fun same => other same.1⟩
      · rename_i miss
        refine ⟨asleep, ?_⟩
        rintro ⟨rfl, on⟩
        exact miss ⟨asleep, on⟩
    have unchanged : (s.wake chan' t).data = s.data ∧ (s.wake chan' t).cur = s.cur ∧
        (s.wake chan' t).chan = s.chan := by
      unfold wake
      split <;> exact ⟨rfl, rfl, rfl⟩
    obtain ⟨data, cur, channel⟩ := unchanged
    refine heard.of_thread data (congrArg (update · p _) (wake_ctl ..))
      (fun q _ => congrFun channel q) (cur ▸ fun _ there => there) (by rintro ⟨⟩)
      (by rintro ⟨⟩) (fun after => .inl (point ▸ after)) (by rintro _ _ ⟨⟩) (by rintro _ _ _ ⟨⟩) ?_
      (fun asleep on => .inl ⟨(states _ asleep).1, channel ▸ on⟩) ?_
    · rw [point]
      rintro ⟨⟩
    · intro t' asleep on wakes
      rw [point] at wakes
      refine ⟨⟨c, cur ▸ here⟩, ?_⟩
      cases wakes with
      | signals signals => cases signals
      | scan _ member held =>
        refine .scan unlock ?_ held
        rcases List.mem_cons.mp member with rfl | member
        · exact ((states t' asleep).2 ⟨rfl, channel ▸ on⟩).elim
        · exact member
  | @wakeDone chan' unlock next point =>
    obtain ⟨ℓ, follows⟩ := heard.returns (p := p) (point ▸ rfl : (s.ctl p).next? = some next)
    refine heard.moved s.holder ?_ ?_ ?_
    · rw [point]
      intro t wakes
      cases wakes with
      | signals signals => cases signals
      | scan _ member => simp at member
    · cases unlock with
      | true => exact Ctl.plain_of_inert rfl
      | false => exact guards.plain_next follows (facts' (setCtl_self ..))
    · rw [point]
      cases unlock with
      | true => exact id
      | false => simp [Ctl.afterScan, Ctl.next?]
  | yieldLock point unlocked free =>
    have nothing : prog.locks (s.ctl p) = ∅ := by
      ext lk'
      rw [← locks_thread here, ← inv.owned]
      exact iff_of_false (unlocked lk') (Set.notMem_empty lk')
    refine heard.moved _ (fun t wakes => ?_) (Ctl.plain_of_inert rfl) id
    exact Set.notMem_empty lk (nothing ▸ wakes.locked)
  | yieldState point =>
    refine heard.quiet rfl rfl (fun _ _ => rfl) (fun _ there => there) ?_ (Ctl.plain_of_inert rfl)
      (fun after => point ▸ after) fun {t} asleep on => ?_
    · rw [point]
      exact Ctl.not_willWake_of_inert rfl
    · by_cases same : t = p
      · simp [setCtl, setState, same] at asleep
      · exact ⟨by simpa [setCtl, setState, same] using asleep, on⟩
  | yieldRelease point mine =>
    have fit := inv.fit p
    rw [point] at fit
    refine heard.moved _ ?_ (Ctl.plain_of_unlocked fit.2) (fun after => point ▸ after)
    rw [point]
    exact Ctl.not_willWake_of_inert rfl

omit [DecidableEq Chan] in
/-- Every step of a scheduler keeps the invariant. -/
theorem sched (idle : s.cur c = none) (step : SchedStep c s s') : Heard prog lk chan cond s' := by
  cases step with
  | acquire | release =>
    exact ⟨heard.tested, heard.falling, heard.returns, heard.unlocking, heard.noted,
      heard.sleeping⟩
  | @choose q pc ready =>
    refine ⟨heard.tested, heard.falling, heard.returns, heard.unlocking, heard.noted, ?_⟩
    intro t asleep on holds
    have other : t ≠ q := by
      rintro rfl
      simp [setSched, setState] at asleep
    exact heard.sleeping ((update_of_ne other _ _).symm.trans asleep) on holds
  | @switch q pc =>
    -- No processor loses its thread.
    have still {c' : Cpu} {r : Thread} (there : s.cur c' = some r) :
        update s.cur c (some q) c' = some r := by
      have elsewhere : c' ≠ c := by
        rintro rfl
        rw [idle] at there
        contradiction
      rw [update_of_ne elsewhere, there]
    refine ⟨heard.tested, ?_, heard.returns, heard.unlocking, heard.noted, ?_⟩
    · intro t fell holds
      obtain ⟨c', r, there, signals⟩ := heard.falling fell holds
      exact ⟨c', r, still there, signals⟩
    · intro t asleep on holds
      obtain ⟨c', r, there, wakes⟩ := heard.sleeping asleep on holds
      exact ⟨c', r, still there, wakes⟩

theorem step (guards : prog.Guards lk chan cond known) (everyone : ∀ t, t ∈ table)
    (exclusive : Exclusive prog s) (facts : ∀ {p ℓ}, s.ctl p = .run ℓ → known ℓ s.data)
    (facts' : ∀ {p ℓ}, s'.ctl p = .run ℓ → known ℓ s'.data) (step : Step prog table s s') :
    Heard prog lk chan cond s' := by
  cases step with
  | thread here step => exact heard.thread guards everyone exclusive facts here facts' step
  | sched idle step => exact heard.sched idle step

omit heard in
omit [DecidableEq Cpu] [DecidableEq Thread] [DecidableEq L] [DecidableEq Chan] in
theorem boot (data : Data) (start : Thread → Loc) (lk : Option L) :
    Heard prog lk chan cond (System.boot data start : System Cpu Thread L Chan Data Loc) where
  tested test := by cases test
  falling fell := by cases fell
  returns after := by cases after
  unlocking point := by cases point
  noted point := by cases point
  sleeping asleep := by simp [System.boot] at asleep

omit heard in
theorem reachable {first : System Cpu Thread L Chan Data Loc}
    (guards : prog.Guards lk chan cond known) (everyone : ∀ t, t ∈ table)
    (inv : Exclusive prog first) (heard : Heard prog lk chan cond first)
    (facts : ∀ {s}, Reachable prog table first s → ∀ {p ℓ}, s.ctl p = .run ℓ → known ℓ s.data)
    (run : Reachable prog table first s) : Heard prog lk chan cond s := by
  induction run with
  | refl => exact heard
  | tail earlier step ih =>
    exact ih.step guards everyone (inv.reachable earlier) (facts earlier)
      (facts (earlier.tail step)) step

omit [DecidableEq Cpu] [DecidableEq Thread] [DecidableEq L] [DecidableEq Chan] in
/-- While the lock is free, no thread sleeps on a condition that holds. -/
theorem not_sleeping (inv : Exclusive prog s) (free : s.holder lk = none) (holds : cond s.data)
    (t : Thread) : ¬ (s.state t = .sleeping ∧ s.chan t = some chan) := by
  rintro ⟨asleep, on⟩
  obtain ⟨c, q, there, wakes⟩ := heard.sleeping asleep on holds
  exact inv.notMem_of_free free there wakes.locked

end Heard

end Xv6.Sync
