import Xv6.Sync.Wakeup

/-!
# Invariants of the data

Only computations change the shared data.  When a property of the points of a
program stays the same across the other instructions, an invariant that relates the
data to that property of each thread has to be checked for computations only,
whatever `sleep`, `wakeup` and the schedulers do in between.
-/

namespace Xv6.Sync

open Function (update update_of_ne update_self)

variable {Cpu Thread L Chan Data Loc τ : Type}

/-- The point of the program where a thread is, or where `sleep`, `wakeup` or `yield`
returns to. -/
def Ctl.loc : Ctl L Chan Loc Thread → Loc
  | .run ℓ => ℓ
  | .sleepUnlock _ _ next | .sleepChan _ _ next | .sleepState _ _ next | .sleepSwitch _ next
  | .sleepTidy _ next | .sleepRelease _ next | .sleepReacquire _ next | .wakeScan _ _ _ next
  | .wakeRelease next => next
  | .yieldState back | .yieldSwitch back | .yieldRelease back => back.loc

variable [DecidableEq Cpu] [DecidableEq Thread] [DecidableEq L] [DecidableEq Chan]
variable {prog : Program L Chan Data Loc} {table : List Thread} {c : Cpu} {p : Thread}
variable {s s' : System Cpu Thread L Chan Data Loc}

/-- A step of a thread that is not a computation. -/
structure Passive (track : Loc → τ) (s s' : System Cpu Thread L Chan Data Loc) : Prop where
  data : s'.data = s.data
  track : ∀ q, track (s'.ctl q).loc = track (s.ctl q).loc

/-- A computation of the thread `p`. -/
structure Computes (prog : Program L Chan Data Loc) (p : Thread)
    (s s' : System Cpu Thread L Chan Data Loc) (ℓ next : Loc) : Prop where
  point : s.ctl p = .run ℓ
  outcome : ∃ outcomes, prog.code ℓ = .compute outcomes ∧ (s'.data, next) ∈ outcomes s.data
  ctl : s'.ctl = update s.ctl p (.run next)

variable {track : Loc → τ}

omit [DecidableEq Cpu] [DecidableEq L] [DecidableEq Chan] in
theorem Passive.of_update {x : Ctl L Chan Loc Thread} (data : s'.data = s.data)
    (ctl : s'.ctl = update s.ctl p x) (same : track x.loc = track (s.ctl p).loc) :
    Passive track s s' := by
  refine ⟨data, fun q => ?_⟩
  rw [ctl]
  by_cases equal : q = p
  · subst equal
    rw [update_self, same]
  · rw [update_of_ne equal]

theorem ThreadStep.passive_or_computes
    (stable : ∀ {ℓ next}, (prog.code ℓ).next? = some next → track next = track ℓ)
    (step : ThreadStep prog table c p s s') :
    Passive track s s' ∨ ∃ ℓ next, Computes prog p s s' ℓ next := by
  cases step with
  | compute point code outcome =>
    exact .inr ⟨_, _, point, ⟨_, code, outcome⟩, rfl⟩
  | acquire point code | release point code | sleepLock point code | sleepHeld point code
  | wakeup point code | wakeup1 point code =>
    refine .inl (Passive.of_update rfl rfl ?_)
    rw [point]
    exact stable (congrArg Instr.next? code)
  | @sleepTidy lk next point =>
    refine .inl (Passive.of_update rfl rfl ?_)
    rw [point]
    cases lk <;> rfl
  | @wakeDone chan unlock next point =>
    refine .inl (Passive.of_update rfl rfl ?_)
    rw [point]
    cases unlock <;> rfl
  | @wakeSlot chan t todo unlock next point =>
    refine .inl (Passive.of_update (p := p) (x := .wakeScan chan todo unlock next) ?_ ?_ ?_)
    · unfold System.wake
      split <;> rfl
    · simp only [System.setCtl, System.wake_ctl]
    · rw [point]
      rfl
  | yieldLock => exact .inl (Passive.of_update rfl rfl rfl)
  | _ =>
    have point := ‹s.ctl p = _›
    refine .inl (Passive.of_update rfl rfl ?_)
    rw [point]
    rfl

theorem Step.passive_or_computes
    (stable : ∀ {ℓ next}, (prog.code ℓ).next? = some next → track next = track ℓ)
    (step : Step prog table s s') :
    Passive track s s' ∨ ∃ p ℓ next, Computes prog p s s' ℓ next := by
  cases step with
  | thread here step => exact (step.passive_or_computes stable).imp_right fun found => ⟨_, found⟩
  | sched idle step => exact .inl (by cases step <;> exact ⟨rfl, fun _ => rfl⟩)

/-- The invariant rule: what computations keep holds in every reachable state. -/
theorem tracked_of_run (track : Loc → τ)
    (stable : ∀ {ℓ next}, (prog.code ℓ).next? = some next → track next = track ℓ)
    {inv : Data → (Thread → τ) → Prop} {first : System Cpu Thread L Chan Data Loc}
    (initial : inv first.data fun q => track (first.ctl q).loc)
    (computes : ∀ {d d' p ℓ outcomes next} (points : Thread → τ), prog.code ℓ = .compute outcomes →
      (d', next) ∈ outcomes d → points p = track ℓ → inv d points →
      inv d' (update points p (track next))) (run : Reachable prog table first s) :
    inv s.data fun q => track (s.ctl q).loc := by
  induction run with
  | refl => exact initial
  | @tail s s' _ step ih =>
    rcases step.passive_or_computes stable with passive | ⟨p, ℓ, next, computation⟩
    · rw [passive.data, funext passive.track]
      exact ih
    · obtain ⟨outcomes, code, outcome⟩ := computation.outcome
      have moved := computes (p := p) (fun q => track (s.ctl q).loc) code outcome
        (by rw [computation.point]; rfl) ih
      have same : (fun q => track (s'.ctl q).loc) =
          update (fun q => track (s.ctl q).loc) p (track next) := by
        funext q
        rw [computation.ctl]
        by_cases equal : q = p
        · subst equal
          simp [Ctl.loc]
        · simp [equal]
      rw [same]
      exact moved

end Xv6.Sync
