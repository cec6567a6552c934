import Mathlib

/-!
# Programs that may stop

Imperative code as a state transformer that returns a value or stops, and the
weakest precondition of such a program: from which states it ends in a given
postcondition, and stops only for given reasons.  A specification of a function
is a lemma that establishes a `Wp`; a caller chains the specifications of its
callees with `Wp.bind`.
-/

namespace Stateful

universe u v

variable {ε : Type v} {σ τ α β : Type u}

/-- A program over states `σ` that returns an `α` or stops with a reason. -/
abbrev Prog (ε : Type v) (σ α : Type u) := StateT σ (Except ε) α

/-- From `s` the program returns and establishes `post`, or stops as `stop`
allows. -/
def Wp (prog : Prog ε σ α) (stop : ε → Prop) (post : α → σ → Prop) (s : σ) : Prop :=
  match prog.run s with
  | .ok (value, s') => post value s'
  | .error reason => stop reason

variable {prog : Prog ε σ α} {next : α → Prog ε σ β} {stop stop' : ε → Prop} {s s' : σ}

variable {post mid : α → σ → Prop} {value : α} {f : σ → σ}

theorem Wp.ok (wp : Wp prog stop post s) (returned : prog.run s = .ok (value, s')) :
    post value s' := by
  simpa [Wp, returned] using wp

theorem Wp.error {reason : ε} (wp : Wp prog stop post s) (stopped : prog.run s = .error reason) :
    stop reason := by
  simpa [Wp, stopped] using wp

theorem Wp.of_ok (returned : prog.run s = .ok (value, s')) (holds : post value s') :
    Wp prog stop post s := by
  simpa [Wp, returned] using holds

/-- A program that cannot stop returns. -/
theorem Wp.returns_of (wp : Wp prog stop post s) (never : ∀ reason, ¬ stop reason) :
    ∃ value s', prog.run s = .ok (value, s') ∧ post value s' := by
  cases outcome : prog.run s with
  | error reason => exact (never reason (wp.error outcome)).elim
  | ok result => exact ⟨result.1, result.2, rfl, wp.ok outcome⟩

theorem Wp.returns (wp : Wp prog (fun _ => False) post s) :
    ∃ value s', prog.run s = .ok (value, s') ∧ post value s' :=
  wp.returns_of fun _ => id

/-- What is left of a specification without a postcondition. -/
theorem Wp.self : Wp prog (fun _ => True) (fun value s' => prog.run s = .ok (value, s')) s := by
  unfold Wp
  split
  · assumption
  · trivial

/-- A program that cannot return stops. -/
theorem Wp.stops (wp : Wp prog stop (fun _ _ => False) s) :
    ∃ reason, prog.run s = .error reason ∧ stop reason := by
  cases outcome : prog.run s with
  | error reason => exact ⟨reason, rfl, wp.error outcome⟩
  | ok result => exact (wp.ok outcome).elim

/-! ## Rules -/

@[simp]
theorem wp_pure (value : α) : Wp (pure value : Prog ε σ α) stop post s ↔ post value s := Iff.rfl

@[simp]
theorem wp_throw (reason : ε) : Wp (throw reason : Prog ε σ α) stop post s ↔ stop reason := Iff.rfl

@[simp]
theorem wp_get {post : σ → σ → Prop} : Wp (get : Prog ε σ σ) stop post s ↔ post s s := Iff.rfl

@[simp]
theorem wp_modify {post : PUnit → σ → Prop} :
    Wp (modify f : Prog ε σ PUnit) stop post s ↔ post ⟨⟩ (f s) := Iff.rfl

@[simp]
theorem wp_bind {post : β → σ → Prop} :
    Wp (prog >>= next) stop post s ↔ Wp prog stop (fun value => Wp (next value) stop post) s := by
  have step : (prog >>= next).run s = (prog.run s).bind fun result =>
      (next result.1).run result.2 := rfl
  unfold Wp
  rw [step]
  cases prog.run s <;> rfl

/-- The consequence rule. -/
theorem Wp.mono {post' : α → σ → Prop} (wp : Wp prog stop post s)
    (weaken : ∀ reason, stop reason → stop' reason)
    (imp : ∀ value s', post value s' → post' value s') : Wp prog stop' post' s := by
  unfold Wp at wp ⊢
  split at wp
  · exact imp _ _ wp
  · exact weaken _ wp

/-- Sequencing: the rest of the program starts from what the first part
establishes. -/
theorem Wp.bind {post : β → σ → Prop} (wp : Wp prog stop' mid s)
    (weaken : ∀ reason, stop' reason → stop reason)
    (rest : ∀ value s', mid value s' → Wp (next value) stop post s') :
    Wp (prog >>= next) stop post s := by
  rw [wp_bind]
  exact wp.mono weaken rest

/-- The consequence rule, when the program may stop for the same reasons. -/
theorem Wp.imp {post' : α → σ → Prop} (wp : Wp prog stop post s)
    (imp : ∀ value s', post value s' → post' value s') : Wp prog stop post' s :=
  wp.mono (fun _ => id) imp

/-- Sequencing, when the first part may stop for the same reasons as the whole. -/
theorem Wp.seq {post : β → σ → Prop} (wp : Wp prog stop mid s)
    (rest : ∀ value s', mid value s' → Wp (next value) stop post s') :
    Wp (prog >>= next) stop post s :=
  wp.bind (fun _ => id) rest

/-- Sequencing, when the first part returns. -/
theorem Wp.always {post : β → σ → Prop} (wp : Wp prog (fun _ => False) mid s)
    (rest : ∀ value s', mid value s' → Wp (next value) stop post s') :
    Wp (prog >>= next) stop post s :=
  wp.bind (fun _ => False.elim) rest

/-- Both postconditions of one program hold together. -/
theorem Wp.and {post' : α → σ → Prop} (first : Wp prog stop post s)
    (second : Wp prog stop' post' s) :
    Wp prog (fun reason => stop reason ∧ stop' reason)
      (fun value s' => post value s' ∧ post' value s') s := by
  unfold Wp at first second ⊢
  split at first
  · rename_i returned
    rw [returned] at second
    exact ⟨first, second⟩
  · rename_i stopped
    rw [stopped] at second
    exact ⟨first, second⟩

/-! ## What every run does -/

/-- Every run that returns relates its first state to its last one. -/
def Advances (R : σ → σ → Prop) (prog : Prog ε σ α) : Prop :=
  ∀ s, Wp prog (fun _ => True) (fun _ s' => R s s') s

namespace Advances

variable {R : σ → σ → Prop}

theorem throw (reason : ε) : Advances R (throw reason : Prog ε σ α) :=
  fun _ => trivial

theorem modify (related : ∀ s, R s (f s)) : Advances R (modify f : Prog ε σ PUnit) :=
  fun s => related s

theorem bind (trans : ∀ {a b c}, R a b → R b c → R a c) (first : Advances R prog)
    (rest : ∀ value, Advances R (next value)) : Advances R (prog >>= next) := by
  intro s
  apply (first s).seq
  intro value s₁ related
  exact (rest value s₁).imp fun _ _ => trans related

end Advances

/-! ## Programs on a part of the state -/

end Stateful
