import Xv6.Log.State

/-!
# Reading and writing through the buffer cache

`bread` changes nothing but the set of clean copies in the cache (`Loaded`), and
a block write changes one block on the disk and leaves its buffer clean
(`Wrote`).  Neither touches the dirty buffers of other blocks.
-/

namespace Xv6.Log

open Function

variable {Pid : Type}

namespace State

variable {s s' : State Pid} {area : Area}

@[simp]
theorem bread_status (s : State Pid) (b : Nat) : (s.bread b).2.status = s.status := by
  unfold bread
  split <;> rfl

@[simp]
theorem bread_outstanding (s : State Pid) (b : Nat) :
    (s.bread b).2.outstanding = s.outstanding := by
  unfold bread
  split <;> rfl

@[simp]
theorem bread_committing (s : State Pid) (b : Nat) : (s.bread b).2.committing = s.committing := by
  unfold bread
  split <;> rfl

@[simp]
theorem bread_phase (s : State Pid) (b : Nat) : (s.bread b).2.phase = s.phase := by
  unfold bread
  split <;> rfl

@[simp]
theorem bread_lh (s : State Pid) (b : Nat) : (s.bread b).2.lh = s.lh := by
  unfold bread
  split <;> rfl

@[simp]
theorem bread_panicked (s : State Pid) (b : Nat) : (s.bread b).2.panicked = s.panicked := by
  unfold bread
  split <;> rfl

@[simp]
theorem bread_disk (s : State Pid) (b : Nat) : (s.bread b).2.disk = s.disk := by
  unfold bread
  split <;> rfl

/-- Clean buffers hold what is on the disk. -/
def Coherent (s : State Pid) : Prop :=
  ∀ b buf, s.cache b = some buf → buf.dirty = false → buf.data = s.disk b

/-- Some blocks have been read into the cache. -/
def Loaded (s s' : State Pid) : Prop :=
  s'.disk = s.disk ∧ ∀ b, s'.cache b = s.cache b ∨
    s.cache b = none ∧ s'.cache b = some ⟨s.disk b, false⟩

theorem bread_loaded (s : State Pid) (b : Nat) : s.Loaded (s.bread b).2 := by
  refine ⟨s.bread_disk b, fun b' => ?_⟩
  unfold bread
  cases cached : s.cache b with
  | some buf => exact .inl rfl
  | none =>
    by_cases same : b' = b
    · subst same
      exact .inr ⟨cached, by simp⟩
    · exact .inl (by simp [same])

theorem bread_fst (s : State Pid) (b : Nat) : (s.bread b).1 = s.view b := by
  unfold bread view
  cases s.cache b <;> rfl

theorem Loaded.view (loaded : s.Loaded s') (b : Nat) : s'.view b = s.view b := by
  unfold State.view
  rcases loaded.2 b with same | ⟨absent, present⟩
  · rw [same, loaded.1]
  · rw [absent, present]

theorem Loaded.trans {s'' : State Pid} (first : s.Loaded s') (second : s'.Loaded s'') :
    s.Loaded s'' := by
  refine ⟨second.1.trans first.1, fun b => ?_⟩
  rcases second.2 b with same | ⟨absent, present⟩
  · rw [same]
    exact first.2 b
  · rw [first.1] at present
    rcases first.2 b with same | ⟨-, loaded⟩
    · exact .inr ⟨same ▸ absent, present⟩
    · simp [absent] at loaded

theorem Loaded.coherent (loaded : s.Loaded s') (coherent : s.Coherent) : s'.Coherent := by
  intro b buf cached clean
  rw [loaded.1]
  rcases loaded.2 b with same | ⟨-, present⟩
  · exact coherent b buf (same ▸ cached) clean
  · rw [present] at cached
    cases cached
    rfl

variable {b target : Nat} {buf : Buf} {data : Block}

theorem Loaded.dirty (loaded : s.Loaded s') (cached : s'.cache b = some buf)
    (isDirty : buf.dirty = true) : s.cache b = some buf := by
  rcases loaded.2 b with same | ⟨-, present⟩
  · exact same ▸ cached
  · rw [present] at cached
    cases cached
    cases isDirty

theorem Loaded.pinned (loaded : s.Loaded s') (cached : s.cache b = some buf) :
    s'.cache b = some buf := by
  rcases loaded.2 b with same | ⟨absent, -⟩
  · rw [same, cached]
  · simp [absent] at cached

/-- One block has been written, after some have been read. -/
def Wrote (s s' : State Pid) (target : Nat) (data : Block) : Prop :=
  ∃ middle, s.Loaded middle ∧ s'.disk = update middle.disk target data ∧
    s'.cache = update middle.cache target (some ⟨data, false⟩)

theorem Wrote.disk (wrote : s.Wrote s' target data) : s'.disk = update s.disk target data := by
  obtain ⟨middle, loaded, disk, -⟩ := wrote
  rw [disk, loaded.1]

theorem Wrote.coherent (wrote : s.Wrote s' target data) (coherent : s.Coherent) : s'.Coherent := by
  obtain ⟨middle, loaded, disk, cache⟩ := wrote
  intro b buf cached clean
  rw [cache] at cached
  rw [disk]
  by_cases same : b = target
  · subst same
    rw [update_self] at cached
    cases cached
    rw [update_self]
  · rw [update_of_ne same] at cached ⊢
    exact loaded.coherent coherent b buf cached clean

theorem Wrote.dirty (wrote : s.Wrote s' target data) (cached : s'.cache b = some buf)
    (isDirty : buf.dirty = true) : b ≠ target ∧ s.cache b = some buf := by
  obtain ⟨middle, loaded, -, cache⟩ := wrote
  rw [cache] at cached
  by_cases same : b = target
  · subst same
    rw [update_self] at cached
    cases cached
    cases isDirty
  · rw [update_of_ne same] at cached
    exact ⟨same, loaded.dirty cached isDirty⟩

theorem Wrote.pinned (wrote : s.Wrote s' target data) (different : b ≠ target)
    (cached : s.cache b = some buf) : s'.cache b = some buf := by
  obtain ⟨middle, loaded, -, cache⟩ := wrote
  rw [cache, update_of_ne different]
  exact loaded.pinned cached

theorem writeLogBlock_wrote (area : Area) (s : State Pid) (tail b : Nat) :
    s.Wrote (s.writeLogBlock area tail b) (area.start + tail + 1) (s.view b) := by
  have first := s.bread_loaded (area.start + tail + 1)
  have second := (s.bread (area.start + tail + 1)).2.bread_loaded b
  refine ⟨_, first.trans second, ?_, ?_⟩ <;>
    simp [writeLogBlock, bwrite, bread_fst, first.view b]

theorem writeHeadBlock_wrote (area : Area) (s : State Pid) :
    s.Wrote (s.writeHeadBlock area) area.start (writeHead (s.view area.start) s.lh) := by
  refine ⟨_, s.bread_loaded area.start, ?_, ?_⟩ <;> simp [writeHeadBlock, bwrite, bread_fst]

theorem installBlock_wrote (area : Area) (s : State Pid) (tail b : Nat) :
    s.Wrote (s.installBlock area tail b) b (s.view (area.start + tail + 1)) := by
  have first := s.bread_loaded (area.start + tail + 1)
  have second := (s.bread (area.start + tail + 1)).2.bread_loaded b
  refine ⟨_, first.trans second, ?_, ?_⟩ <;> simp [installBlock, bwrite, bread_fst]

end State

end Xv6.Log
