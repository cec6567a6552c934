import Mathlib

/-!
# Labelled runs

Runs of a labelled transition relation, with the labels collected newest first.
A property of a state and of the labels that led to it holds along every run as
soon as it holds at the start and each step keeps it.
-/

namespace Labelled

universe u v

variable {σ : Type u} {ε : Type v}

/-- `Trace step start events last`: a run from `start` to `last` whose labels,
newest first, are `events`. -/
inductive Trace (step : σ → ε → σ → Prop) (start : σ) : List ε → σ → Prop
  | refl : Trace step start [] start
  | step {events : List ε} {event : ε} {middle last : σ} :
      Trace step start events middle → step middle event last →
      Trace step start (event :: events) last

namespace Trace

variable {step : σ → ε → σ → Prop} {start middle last : σ} {events later : List ε}

/-- The invariant rule, for invariants that mention the history. -/
theorem invariant (run : Trace step start events last) (inv : List ε → σ → Prop)
    (initial : inv [] start) (preserved : ∀ events event middle last,
      inv events middle → step middle event last → inv (event :: events) last) :
    inv events last := by
  induction run with
  | refl => exact initial
  | step _ edge ih => exact preserved _ _ _ _ ih edge

/-- Runs compose; the labels of the later run come first. -/
theorem append (first : Trace step start events middle) (second : Trace step middle later last) :
    Trace step start (later ++ events) last := by
  induction second with
  | refl => exact first
  | step _ edge ih => exact Trace.step ih edge

/-- A run that ends with `newer` after `event` splits at that event. -/
theorem split {newer older : List ε} {event : ε}
    (run : Trace step start (newer ++ event :: older) last) :
    ∃ before after, Trace step start older before ∧ step before event after ∧
      Trace step after newer last := by
  induction newer generalizing last with
  | nil =>
    cases run with
    | step earlier edge => exact ⟨_, last, earlier, edge, Trace.refl⟩
  | cons newest newer ih =>
    cases run with
    | step earlier edge =>
      obtain ⟨before, after, prior, here, onward⟩ := ih earlier
      exact ⟨before, after, prior, here, Trace.step onward edge⟩

end Trace

/-! ## Executing a list of actions -/

/-- Take the given actions, first to last, on top of the labels shown so far. -/
def execute {α : Type*} (next : σ → α → Option (ε × σ)) (state : σ) (events : List ε) :
    List α → Option (List ε × σ)
  | [] => some (events, state)
  | action :: rest =>
    (next state action).bind fun (event, state') => execute next state' (event :: events) rest

theorem Trace.of_execute {α : Type*} {next : σ → α → Option (ε × σ)} {step : σ → ε → σ → Prop}
    {start state last : σ} {events events' : List ε} {actions : List α}
    (sound : ∀ {s a e s'}, next s a = some (e, s') → step s e s')
    (sofar : Trace step start events state)
    (done : execute next state events actions = some (events', last)) :
    Trace step start events' last := by
  induction actions generalizing state events with
  | nil =>
    cases done
    exact sofar
  | cons action rest ih =>
    simp only [execute, Option.bind_eq_some_iff] at done
    obtain ⟨⟨event, middle⟩, taken, done⟩ := done
    exact ih (sofar.step (sound taken)) done

/-- Actions that can be taken give a run, and a property that can be computed at
its end holds there. -/
theorem Trace.exists_of_execute {α : Type*} (next : σ → α → Option (ε × σ)) (actions : List α)
    {step : σ → ε → σ → Prop} {start : σ} {p : List ε → σ → Prop}
    [∀ events state, Decidable (p events state)]
    (sound : ∀ {s a e s'}, next s a = some (e, s') → step s e s')
    (computed : (execute next start [] actions).any
      (fun (events, last) => decide (p events last)) = true) :
    ∃ events last, Trace step start events last ∧ p events last := by
  cases done : execute next start [] actions with
  | none => simp [done] at computed
  | some result =>
    refine ⟨result.1, result.2, Trace.of_execute sound Trace.refl done, ?_⟩
    simpa [done] using computed

end Labelled
