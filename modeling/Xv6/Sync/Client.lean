import Xv6.Sync.Monitor
import Xv6.Sync.Schedule

/-!
# Threads that share data under one lock

All threads run the same code: at each of its points a thread takes the lock or gives it back,
sleeps with it, wakes sleepers or computes.  Such code is checked operation by operation.  Each
one leads from the assertion of its point to that of the next, and the invariant of the data
goes with the lock from one thread to another.
-/

namespace Xv6.Sync

open Relation

variable {Cpu Thread Chan Data Point : Type}

/-- What a thread does at a point of the code. -/
inductive Op (Chan Data Point : Type)
  | acquire (next : Point)
  | release (next : Point)
  | sleep (chan : Chan) (next : Point)
  | wakeup (chan : Chan) (next : Point)
  /-- New data and where to go on, or nothing while the code spins. -/
  | compute (outcome : Data → Option (Data × Point))
  /-- What the thread does of its own accord. -/
  | choose (outcomes : Data → Set (Data × Point))

/-- A point in the kernel stack of a thread. -/
structure At (Thread Point : Type) where
  proc : Thread
  point : Point

namespace Op

/-- The outcomes of a computation. -/
def outcomes : Op Chan Data Point → Data → Set (Data × Point)
  | compute outcome, d => {x | outcome d = some x}
  | choose outcomes, d => outcomes d
  | _, _ => ∅

/-- Where an operation leads that is not a computation. -/
def next? : Op Chan Data Point → Option Point
  | acquire next | release next | sleep _ next | wakeup _ next => some next
  | _ => none

/-- The operation of the thread `t`. -/
def instr (t : Thread) : Op Chan Data Point → Instr Unit Chan Data (At Thread Point)
  | acquire next => .acquire (some ()) ⟨t, next⟩
  | release next => .release (some ()) ⟨t, next⟩
  | sleep chan next => .sleep chan (some ()) ⟨t, next⟩
  | wakeup chan next => .wakeup chan ⟨t, next⟩
  | op => .compute fun d => {x | x.2.proc = t ∧ (x.1, x.2.point) ∈ op.outcomes d}

/-- The operation goes into and out of the critical sections as it should, from a point that is
outside or not. -/
def Fits (outside : Point → Bool) (here : Bool) : Op Chan Data Point → Prop
  | acquire next => here = true ∧ outside next = false
  | release next => here = false ∧ outside next = true
  | sleep _ next => here = false ∧ outside next = false
  | wakeup _ next => outside next = here
  | op => ∀ d d' next, (d', next) ∈ op.outcomes d → outside next = here

/-- What the operations other than computations do to the assertions. -/
def Carries (inv : Data → Prop) (assertion : Point → Data → Prop) (point : Point) :
    Op Chan Data Point → Prop
  | acquire next => ∀ d, inv d → assertion next d
  | release _ => ∀ d, assertion point d → inv d
  | sleep _ next => ∀ d, (assertion point d → inv d) ∧ (inv d → assertion next d)
  | wakeup _ next => ∀ d, assertion point d → assertion next d
  | _ => True

variable {op : Op Chan Data Point} {t : Thread} {next : At Thread Point} {lk : Option Unit}
variable {chan : Chan} {d d' : Data}

theorem of_acquire (here : op.instr t = .acquire lk next) :
    lk = some () ∧ op = .acquire next.point := by
  cases op <;> cases here
  exact ⟨rfl, rfl⟩

theorem of_release (here : op.instr t = .release lk next) :
    lk = some () ∧ op = .release next.point := by
  cases op <;> cases here
  exact ⟨rfl, rfl⟩

theorem of_sleep (here : op.instr t = .sleep chan lk next) :
    lk = some () ∧ op = .sleep chan next.point := by
  cases op <;> cases here
  exact ⟨rfl, rfl⟩

theorem of_wakeup (here : op.instr t = .wakeup chan next) : op = .wakeup chan next.point := by
  cases op <;> cases here
  rfl

theorem of_next? (follows : (op.instr t).next? = some next) :
    next.proc = t ∧ op.next? = some next.point := by
  cases op <;> cases follows <;> exact ⟨rfl, rfl⟩

theorem of_compute {outcomes : Data → Set (Data × At Thread Point)}
    (here : op.instr t = .compute outcomes) (outcome : (d', next) ∈ outcomes d) :
    next.proc = t ∧ (d', next.point) ∈ op.outcomes d := by
  cases op <;> cases here <;> exact outcome

theorem Fits.outcome {outside : Point → Bool} {here : Bool} (fits : op.Fits outside here)
    {point : Point} (outcome : (d', point) ∈ op.outcomes d) : outside point = here := by
  cases op <;> first | cases outcome | exact fits _ _ _ outcome

end Op

/-- Code that threads run on data under one lock. -/
structure Client (Thread Chan Data Point : Type) where
  op : Thread → Point → Op Chan Data Point
  /-- The points outside of the critical sections. -/
  outside : Point → Bool
  fits : ∀ t point, (op t point).Fits outside (outside point)

namespace Client

def program (k : Client Thread Chan Data Point) : Program Unit Chan Data (At Thread Point) where
  code ℓ := (k.op ℓ.proc ℓ.point).instr ℓ.proc
  held ℓ := if k.outside ℓ.point then ∅ else {some ()}
  held_acquire {ℓ _ _} here := by
    obtain ⟨rfl, op⟩ := Op.of_acquire here
    obtain ⟨before, after⟩ : _ ∧ _ := op ▸ k.fits ℓ.proc ℓ.point
    simp [before, after]
  held_release {ℓ _ _} here := by
    obtain ⟨rfl, op⟩ := Op.of_release here
    obtain ⟨before, after⟩ : _ ∧ _ := op ▸ k.fits ℓ.proc ℓ.point
    simp [before, after]
  held_sleep {ℓ _ _ _} here := by
    obtain ⟨rfl, op⟩ := Op.of_sleep here
    obtain ⟨before, after⟩ : _ ∧ _ := op ▸ k.fits ℓ.proc ℓ.point
    simp [before, after]
  held_wakeup {ℓ _ next} here := by
    have same : k.outside next.point = _ := Op.of_wakeup here ▸ k.fits ℓ.proc ℓ.point
    rw [same]
    split <;> simp
  held_wakeup1 {ℓ _ _} here := by cases op : k.op ℓ.proc ℓ.point <;> rw [op] at here <;> cases here
  held_compute {ℓ _ _ _ _} here outcome := by
    rw [(k.fits ℓ.proc ℓ.point).outcome (Op.of_compute here outcome).2]

variable {k : Client Thread Chan Data Point} {ℓ next : At Thread Point} {d d' : Data} {chan : Chan}

theorem mem_held : some () ∈ k.program.held ℓ ↔ k.outside ℓ.point = false := by
  unfold program
  cases isOutside : k.outside ℓ.point <;> simp [isOutside]

theorem notMem_held : some () ∉ k.program.held ℓ ↔ k.outside ℓ.point = true := by
  rw [mem_held, Bool.not_eq_false]

/-! ## Assertions -/

/-- The lock protects the data, in runs whose computations start as `allowed`. -/
structure Keeps (k : Client Thread Chan Data Point) (inv : Data → Prop)
    (assertion : Point → Data → Prop) (fact allowed : Thread → Point → Data → Prop) : Prop where
  carries : ∀ t point, (k.op t point).Carries inv assertion point
  compute : ∀ {t point d d' next}, (d', next) ∈ (k.op t point).outcomes d →
    k.outside point = false → allowed t point d → fact t point d → assertion point d →
    assertion next d'
  /-- Without the lock a computation keeps every assertion. -/
  outside : ∀ {t point d d' next}, (d', next) ∈ (k.op t point).outcomes d →
    k.outside point = true → fact t point d →
    (inv d → inv d') ∧ ∀ point', assertion point' d → assertion point' d'
  /-- The facts of a thread go with it. -/
  follow : ∀ {t point next d}, (k.op t point).next? = some next → fact t point d →
    fact t next d := by intros; trivial
  establish : ∀ {t point d d' next}, (d', next) ∈ (k.op t point).outcomes d →
    (k.outside point = false → assertion point d) → fact t point d →
    fact t next d' := by intros; trivial
  /-- No computation invalidates the facts of other threads. -/
  keep : ∀ {t q point point' d d' next}, (d', next) ∈ (k.op t point).outcomes d →
    (k.outside point = false → assertion point d) → fact t point d → q ≠ t →
    fact q point' d → fact q point' d' := by intros; trivial

theorem Keeps.protects {inv : Data → Prop} {assertion : Point → Data → Prop}
    {fact allowed : Thread → Point → Data → Prop} (keeps : k.Keeps inv assertion fact allowed) :
    k.program.Protects () inv (fun ℓ => assertion ℓ.point)
      (fun t ℓ d => ℓ.proc = t ∧ fact t ℓ.point d) (fun ℓ => allowed ℓ.proc ℓ.point) where
  acquire {_ ℓ _ d} here _ holds := by
    have carries := keeps.carries ℓ.proc ℓ.point
    rw [(Op.of_acquire here).2] at carries
    exact carries d holds
  release {_ ℓ _ d} here _ holds := by
    have carries := keeps.carries ℓ.proc ℓ.point
    rw [(Op.of_release here).2] at carries
    exact carries d holds
  asleep {_ ℓ _ _ d} here _ holds := by
    have carries := keeps.carries ℓ.proc ℓ.point
    rw [(Op.of_sleep here).2] at carries
    exact (carries d).1 holds
  awake {_ ℓ _ _ d} here _ holds := by
    have carries := keeps.carries ℓ.proc ℓ.point
    rw [(Op.of_sleep here).2] at carries
    exact (carries d).2 holds
  pass {ℓ next d} follows before after awake holds := by
    have carries := keeps.carries ℓ.proc ℓ.point
    have fits := k.fits ℓ.proc ℓ.point
    change ((k.op ℓ.proc ℓ.point).instr _).next? = _ at follows
    have awake : ∀ chan, (k.op ℓ.proc ℓ.point).instr ℓ.proc ≠ .sleep chan (some ()) next := awake
    rw [mem_held] at before after
    generalize k.op ℓ.proc ℓ.point = op at follows carries fits awake
    cases op <;> cases follows
    · cases before.symm.trans fits.1
    · cases after.symm.trans fits.2
    · exact (awake _ rfl).elim
    · exact carries d holds
  compute here held outcome allowed fact holds := by
    obtain ⟨rfl, fact⟩ := fact
    exact keeps.compute (Op.of_compute here outcome).2 (mem_held.mp held) allowed fact holds
  outside here held outcome fact := by
    obtain ⟨rfl, fact⟩ := fact
    obtain ⟨first, rest⟩ := keeps.outside (Op.of_compute here outcome).2 (notMem_held.mp held) fact
    exact ⟨first, fun ℓ' => rest ℓ'.point⟩
  follow follows fact := by
    obtain ⟨rfl, fact⟩ := fact
    obtain ⟨same, follows⟩ := Op.of_next? follows
    exact ⟨same, keeps.follow follows fact⟩
  establish here outcome _ holds fact := by
    obtain ⟨rfl, fact⟩ := fact
    obtain ⟨same, outcome⟩ := Op.of_compute here outcome
    exact ⟨same, keeps.establish outcome (fun inside => holds (mem_held.mpr inside)) fact⟩
  keep here outcome holds fact different theirs := by
    obtain ⟨rfl, fact⟩ := fact
    exact ⟨theirs.1, keeps.keep (Op.of_compute here outcome).2
      (fun inside => holds (mem_held.mpr inside)) fact different theirs.2⟩

/-- The code waits for a condition on a channel: the condition is false where an operation leads
to a sleep, and a wakeup follows when it becomes true. -/
theorem guards {cond : Data → Prop} {known : Thread → Point → Data → Prop}
    (sleeps : ∀ {t point point' next d d'}, (k.op t point).next? = some point' ∧ d' = d ∨
        (d', point') ∈ (k.op t point).outcomes d →
      k.op t point' = .sleep chan next → known t point' d' → ¬ cond d')
    (signalled : ∀ {t point d d' next}, (d', next) ∈ (k.op t point).outcomes d →
      known t point d → ¬ cond d → cond d' →
      k.outside point = false ∧ ∃ next', k.op t next = .wakeup chan next') :
    k.program.Guards (some ()) chan cond fun ℓ => known ℓ.proc ℓ.point where
  lock here := (Op.of_sleep here).1
  entered follows asleep fact := by
    obtain ⟨_, _, here⟩ := asleep
    obtain ⟨same, follows⟩ := Op.of_next? follows
    exact sleeps (.inl ⟨same ▸ follows, rfl⟩) (Op.of_sleep here).2 fact
  tested here outcome asleep _ fact := by
    obtain ⟨same, outcome⟩ := Op.of_compute here outcome
    obtain ⟨_, _, here⟩ := asleep
    exact sleeps (.inr (same ▸ outcome)) (Op.of_sleep here).2 fact
  signalled {ℓ _ d d' next} here outcome fact before after := by
    obtain ⟨same, outcome⟩ := Op.of_compute here outcome
    obtain ⟨inside, next', wakes⟩ := signalled outcome fact before after
    refine ⟨mem_held.mpr inside, ⟨ℓ.proc, next'⟩, .inl ?_⟩
    change (k.op next.proc next.point).instr _ = _
    rw [same, wakes]
    rfl

/-! ## Runs -/

/-- The computations that leave no choice. -/
def outcome (k : Client Thread Chan Data Point) (ℓ : At Thread Point) (d : Data) :
    Option (Data × At Thread Point) :=
  match k.op ℓ.proc ℓ.point with
  | .compute outcome => (outcome d).map fun (d, point) => (d, ⟨ℓ.proc, point⟩)
  | _ => none

theorem offers : k.program.Offers k.outcome := by
  intro ℓ d x chosen outcomes here
  unfold outcome at chosen
  split at chosen
  · rename_i outcome op
    obtain ⟨⟨d', point⟩, computed, rfl⟩ := Option.map_eq_some_iff.mp chosen
    change (k.op ℓ.proc ℓ.point).instr _ = _ at here
    rw [op] at here
    cases here
    exact ⟨rfl, computed⟩
  · cases chosen

variable [DecidableEq Cpu] [DecidableEq Thread] [DecidableEq Chan] {table : List Thread}
variable {s : System Cpu Thread Unit Chan Data (At Thread Point)} {c : Cpu} {p : Thread}

/-- A thread does something of its own accord. -/
theorem step_of_choose {point next : Point} {outcomes : Data → Set (Data × Point)}
    (here : s.cur c = some p) (control : s.ctl p = .run ⟨p, point⟩)
    (op : k.op p point = .choose outcomes) (chosen : (d, next) ∈ outcomes s.data) :
    Step k.program table s ({ s with data := d }.setCtl p (.run ⟨p, next⟩)) := by
  have code : k.program.code ⟨p, point⟩ = (Op.choose outcomes).instr p :=
    congrArg (Op.instr p) op
  exact .thread here (.compute control code ⟨rfl, chosen⟩)

end Client

end Xv6.Sync
