import Xv6.Sync.Machine

/-!
# Runs that can be computed

A processor that is given a number of turns: in its scheduler it goes for one thread, and on a
thread it takes the thread's next step.  Where the program leaves a choice, a function makes it.
Timer interrupts and what happens outside the program are steps between such stretches.
-/

namespace Xv6.Sync

open Relation

variable {Cpu Thread L Chan Data Loc : Type} [DecidableEq Cpu] [DecidableEq Thread]
variable [DecidableEq L] [DecidableEq Chan]
variable (prog : Program L Chan Data Loc) (table : List Thread)
variable (outcome : Loc → Data → Option (Data × Loc))

namespace System

/-- The next step of the thread `p` on the processor `c`. -/
def threadStep (c : Cpu) (p : Thread) (s : System Cpu Thread L Chan Data Loc) :
    Option (System Cpu Thread L Chan Data Loc) :=
  let free (lk : Option L) (x : Ctl L Chan Loc Thread) :=
    if s.holder lk = none then some ((s.lock lk c).setCtl p x) else none
  let mine (lk : Option L) (x : Ctl L Chan Loc Thread) :=
    if s.holder lk = some c then some ((s.unlock lk).setCtl p x) else none
  let switch (x : Ctl L Chan Loc Thread) :=
    if s.holder none = some c then some ((s.setCur c none).setCtl p x) else none
  match s.ctl p with
  | .run ℓ =>
    match prog.code ℓ with
    | .acquire lk next => free lk (.run next)
    | .release lk next => mine lk (.run next)
    | .compute _ => (outcome ℓ s.data).map fun (d, next) =>
      ({ s with data := d } : System Cpu Thread L Chan Data Loc).setCtl p (.run next)
    | .sleep chan (some lk) next => free none (.sleepUnlock chan lk next)
    | .sleep chan none next => some (s.setCtl p (.sleepChan chan none next))
    | .wakeup chan next => free none (.wakeScan chan table true next)
    | .wakeup1 chan next => some (s.setCtl p (.wakeScan chan table false next))
  | .sleepUnlock chan lk next => mine (some lk) (.sleepChan chan (some lk) next)
  | .sleepChan chan lk next =>
    some ((s.setChan p (some chan)).setCtl p (.sleepState chan lk next))
  | .sleepState _ lk next => some ((s.setState p .sleeping).setCtl p (.sleepSwitch lk next))
  | .sleepSwitch lk next => switch (.sleepTidy lk next)
  | .sleepTidy lk next => some ((s.setChan p none).setCtl p (.afterTidy lk next))
  | .sleepRelease lk next => mine none (.sleepReacquire lk next)
  | .sleepReacquire lk next => free (some lk) (.run next)
  | .wakeScan chan (t :: todo) unlock next =>
    some ((s.wake chan t).setCtl p (.wakeScan chan todo unlock next))
  | .wakeScan _ [] unlock next => some (s.setCtl p (.afterScan unlock next))
  | .wakeRelease next => mine none (.run next)
  | .yieldState back => some ((s.setState p .runnable).setCtl p (.yieldSwitch back))
  | .yieldSwitch back => switch (.yieldRelease back)
  | .yieldRelease back => mine none back

/-- The next step of the processor `c`, whose scheduler looks for the thread `p`. -/
def turn (c : Cpu) (p : Thread) (s : System Cpu Thread L Chan Data Loc) :
    Option (System Cpu Thread L Chan Data Loc) :=
  match s.cur c, s.sched c with
  | some q, _ => s.threadStep prog table outcome c q
  | none, .acquire =>
    if s.holder none = none then some ((s.lock none c).setSched c .loop) else none
  | none, .loop =>
    if s.state p = .runnable then some ((s.setState p .running).setSched c (.switch p))
    else if s.holder none = some c then some ((s.unlock none).setSched c .acquire) else none
  | none, .switch q => some ((s.setCur c (some q)).setSched c .loop)

/-- So many steps, from states that are `good`. -/
def turns (good : System Cpu Thread L Chan Data Loc → Bool) (c : Cpu) (p : Thread) :
    Nat → System Cpu Thread L Chan Data Loc → Option (System Cpu Thread L Chan Data Loc)
  | 0, s => some s
  | k + 1, s => if good s then s.turn prog table outcome c p >>= turns good c p k else none

end System

/-- The function makes choices that the program has. -/
def Program.Offers : Prop :=
  ∀ {ℓ d x}, outcome ℓ d = some x → ∀ {outcomes}, prog.code ℓ = .compute outcomes → x ∈ outcomes d

variable {prog table outcome} (offers : prog.Offers outcome) {c : Cpu} {p : Thread}
variable {s s' : System Cpu Thread L Chan Data Loc}
include offers

theorem ThreadStep.of_eq_some (taken : s.threadStep prog table outcome c p = some s') :
    ThreadStep prog table c p s s' := by
  unfold System.threadStep at taken
  have given {P : Prop} [Decidable P] {x : System Cpu Thread L Chan Data Loc}
      (taken : (if P then some x else none) = some s') : P ∧ x = s' := by
    simpa using taken
  dsimp only at taken
  split at taken
  · rename_i ℓ point
    split at taken
    · obtain ⟨free, rfl⟩ := given taken
      exact .acquire point ‹_› free
    · obtain ⟨mine, rfl⟩ := given taken
      exact .release point ‹_› mine
    · obtain ⟨⟨d, next⟩, computed, rfl⟩ := Option.map_eq_some_iff.mp taken
      exact .compute point ‹_› (offers computed ‹_›)
    · obtain ⟨free, rfl⟩ := given taken
      exact .sleepLock point ‹_› free
    · cases taken
      exact .sleepHeld point ‹_›
    · obtain ⟨free, rfl⟩ := given taken
      exact .wakeup point ‹_› free
    · cases taken
      exact .wakeup1 point ‹_›
  · obtain ⟨mine, rfl⟩ := given taken
    exact .sleepUnlock ‹_› mine
  · cases taken
    exact .sleepChan ‹_›
  · cases taken
    exact .sleepState ‹_›
  · obtain ⟨mine, rfl⟩ := given taken
    exact .sleepSwitch ‹_› mine
  · cases taken
    exact .sleepTidy ‹_›
  · obtain ⟨mine, rfl⟩ := given taken
    exact .sleepRelease ‹_› mine
  · obtain ⟨free, rfl⟩ := given taken
    exact .sleepReacquire ‹_› free
  · cases taken
    exact .wakeSlot ‹_›
  · cases taken
    exact .wakeDone ‹_›
  · obtain ⟨mine, rfl⟩ := given taken
    exact .wakeRelease ‹_› mine
  · cases taken
    exact .yieldState ‹_›
  · obtain ⟨mine, rfl⟩ := given taken
    exact .yieldSwitch ‹_› mine
  · obtain ⟨mine, rfl⟩ := given taken
    exact .yieldRelease ‹_› mine

theorem Step.of_turn (taken : s.turn prog table outcome c p = some s') : Step prog table s s' := by
  unfold System.turn at taken
  split at taken
  · exact .thread ‹_› (.of_eq_some offers taken)
  · obtain ⟨free, ⟨⟩⟩ := Option.ite_none_right_eq_some.mp taken
    exact .sched ‹_› (.acquire ‹_› free)
  · split at taken
    · cases taken
      exact .sched ‹_› (.choose ‹_› ‹_›)
    · obtain ⟨mine, ⟨⟩⟩ := Option.ite_none_right_eq_some.mp taken
      exact .sched ‹_› (.release ‹_› mine)
  · cases taken
    exact .sched ‹_› (.switch ‹_›)

/-- The computed states are reached. -/
theorem reaches_of_turns {good : System Cpu Thread L Chan Data Loc → Bool} {k : Nat}
    (taken : s.turns prog table outcome good c p k = some s') :
    ReflTransGen (fun s s' => Step prog table s s' ∧ good s = true) s s' := by
  induction k generalizing s with
  | zero =>
    cases taken
    exact .refl
  | succ k ih =>
    obtain ⟨isGood, taken⟩ := Option.ite_none_right_eq_some.mp taken
    obtain ⟨s₁, first, rest⟩ := Option.bind_eq_some_iff.mp taken
    exact .head ⟨.of_turn offers first, isGood⟩ (ih rest)

end Xv6.Sync
