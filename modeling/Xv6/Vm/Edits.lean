import Xv6.Vm.Roles

/-!
# What a call leaves unchanged

A call for a directory writes to free pages, to the directory, to its tables and to some
of its user pages.  `Edited` says so, and that the entries of its other pages are the
same.  It is part of the specification of every function of `vm.c`.
-/

namespace Xv6.Vm

open Function

variable {link : Link} {s s' s₁ s₂ : Machine} {V V' V₁ V₂ : View} {R R' : Nat → Prop}
  {a d i t p q v w : Nat}

/-! ## Entries -/

/-- The page table entry of page `v`, or 0 if there is no table for it. -/
def Machine.entry (s : Machine) (d v : Nat) : Nat :=
  if isPresent (s.mem d (v / 1024)) then s.mem (target (s.mem d (v / 1024))) (v % 1024) else 0

namespace Models

variable (models : Models link s V)
include models

theorem entry_table (table : V.role t = .table d (v / 1024)) :
    s.entry d v = s.mem t (v % 1024) := by
  obtain ⟨-, -, present, isTarget⟩ := models.of_table t d _ table
  rw [Machine.entry, if_pos present, isTarget]

/-- The page that a present entry of the user half refers to. -/
theorem role_entry (isDirectory : V.role d = .directory) (low : v < 2 ^ 19)
    (present : isPresent (s.entry d v) = true) : V.role (target (s.entry d v)) = .user d v := by
  unfold Machine.entry at present ⊢
  split at present
  · rename_i has
    have table := models.table_of d _ isDirectory (show v / 1024 < 1024 by omega) has
    have user := models.user_of _ d _ (v % 1024) table (by omega) (Nat.mod_lt v (by decide)) present
    rw [Nat.div_add_mod] at user
    rw [if_pos has]
    exact user
  · simp [isPresent] at present

/-- The entry of a user page. -/
theorem entry_user (user : V.role p = .user d v) :
    isPresent (s.entry d v) = true ∧ target (s.entry d v) = p := by
  obtain ⟨-, t, table, present, isTarget⟩ := models.of_user p d v user
  rw [models.entry_table table]
  exact ⟨present, isTarget⟩

/-- The entries are in the directory and its tables. -/
theorem entry_congr (isDirectory : V.role d = .directory) (root : s'.mem d = s.mem d)
    (tables : ∀ t i, V.role t = .table d i → s'.mem t = s.mem t) (high : v < 2 ^ 20) :
    s'.entry d v = s.entry d v := by
  unfold Machine.entry
  rw [root]
  split
  · rename_i present
    rw [tables _ _ (models.table_of d _ isDirectory (show v / 1024 < 1024 by omega) present)]
  · rfl

theorem table_ne (table : V.role t = .table d i) : d ≠ t := by
  have isDirectory := (models.of_table t d i table).1
  rintro rfl
  rw [isDirectory] at table
  cases table

theorem entry_setWord (table : V.role t = .table d (v / 1024)) (below : p < 2 ^ 20) :
    (s.setWord t (v % 1024) w).entry d p = if p = v then w else s.entry d p := by
  obtain ⟨isDirectory, -, present, isTarget⟩ := models.of_table t d _ table
  unfold Machine.entry
  rw [Models.mem_setWord_of_ne (models.table_ne table)]
  by_cases same : p / 1024 = v / 1024
  · rw [same, if_pos present, if_pos present, isTarget, Models.mem_setWord_self]
    by_cases here : p = v
    · rw [here, if_pos rfl, update_self]
    · rw [if_neg here, update_of_ne (by omega)]
  · rw [if_neg (show p ≠ v by rintro rfl; exact same rfl)]
    split
    · rename_i present'
      have table' := models.table_of d _ isDirectory (show p / 1024 < 1024 by omega) present'
      rw [Models.mem_setWord_of_ne]
      intro wrong
      rw [wrong, table] at table'
      injection table' with _ sameTable
      exact same sameTable.symm
    · rfl

end Models

/-! ## Edits -/

/-- The role of a page that is left alone when the user pages in `R` of a directory are
edited. -/
def Role.Kept (d : Nat) (R : Nat → Prop) : Role → Prop
  | .free | .held => False
  | .table d' _ => d' ≠ d
  | .user d' v => d' = d → ¬ R v
  | _ => True

theorem Role.Kept.mono {r : Role} (kept : r.Kept d R) (fewer : ∀ v, R' v → R v) : r.Kept d R' := by
  cases r with
  | user d' v => exact fun same inside => kept same (fewer v inside)
  | _ => exact kept

/-- The user pages in `R` of a directory have been edited, with the tables for them. -/
structure Edited (link : Link) (d : Nat) (R : Nat → Prop) (s : Machine) (V : View) (s' : Machine)
    (V' : View) : Prop where
  models : Models link s' V'
  loads : s'.loads = s.loads
  spared : ∀ q ≠ d, (V.role q).Kept d R → V'.role q = V.role q ∧ s'.mem q = s.mem q
  entry : ∀ v < 2 ^ 20, ¬ R v → s'.entry d v = s.entry d v

namespace Edited

theorem of_mem (models : Models link s' V) (mem : s'.mem = s.mem) (loads : s'.loads = s.loads) :
    Edited link d R s V s' V := by
  refine ⟨models, loads, fun q _ _ => ⟨rfl, by rw [mem]⟩, fun v _ _ => ?_⟩
  unfold Machine.entry
  rw [mem]

theorem refl (models : Models link s V) : Edited link d R s V s V :=
  of_mem models rfl rfl

theorem trans (first : Edited link d R s V s₁ V₁) (second : Edited link d R s₁ V₁ s₂ V₂) :
    Edited link d R s V s₂ V₂ where
  models := second.models
  loads := second.loads.trans first.loads
  spared q notRoot kept := by
    obtain ⟨role, mem⟩ := first.spared q notRoot kept
    rw [← role] at kept ⊢
    rw [← mem]
    exact second.spared q notRoot kept
  entry v high outside := (second.entry v high outside).trans (first.entry v high outside)

variable (edited : Edited link d R s V s' V')
include edited

theorem mono (more : ∀ v, R v → R' v) : Edited link d R' s V s' V' where
  models := edited.models
  loads := edited.loads
  spared q notRoot kept := edited.spared q notRoot (kept.mono more)
  entry v high outside := edited.entry v high fun inside => outside (more v inside)

omit edited in
/-- A store to a held page or to a user page that may be edited. -/
theorem setPage (models : Models link s V) (isDirectory : V.role d = .directory)
    (own : V.role p = .held ∨ ∃ v, R v ∧ V.role p = .user d v) (words : Nat → Nat) :
    Edited link d R s V (s.setPage p words) V := by
  have plain : V.Plain p := by
    rcases own with held | ⟨v, -, user⟩
    · exact .of_held held
    · exact .of_user user
  have other : ∀ q, V.role q ≠ V.role p → (s.setPage p words).mem q = s.mem q := by
    intro q different
    apply update_of_ne
    rintro rfl
    exact different rfl
  refine ⟨models.setPage plain words, rfl, fun q _ kept => ⟨rfl, other q ?_⟩, fun v high _ => ?_⟩
  · intro same
    rw [same] at kept
    rcases own with held | ⟨v, inside, user⟩
    · rw [held] at kept
      exact kept
    · rw [user] at kept
      exact kept rfl inside
  · apply models.entry_congr isDirectory (other d ?_) (fun t i table => other t ?_) high
    · rcases own with held | ⟨v, -, user⟩ <;> simp [*]
    · rcases own with held | ⟨v, -, user⟩ <;> simp [*]

/-- The entries of another directory are the same. -/
theorem entry_other (models : Models link s V) (isRoot : V.role d = .directory ∨ V.role d = .free)
    (old : V.role a = .directory) (other : a ≠ d) (high : v < 2 ^ 20) :
    s'.entry a v = s.entry a v := by
  apply models.entry_congr old (edited.spared a other (by rw [old]; trivial)).2 _ high
  intro t i table
  refine (edited.spared t ?_ (by rw [table]; exact other)).2
  rintro rfl
  rcases isRoot with role | role
  · rw [table] at role
    cases role
  · rw [table] at role
    cases role

/-- Edits of user pages leave the kernel's half of every directory alone. -/
theorem entry_kernel (models : Models link s V) (isDirectory : V.role d = .directory)
    (low : ∀ v, R v → v < 2 ^ 19) (old : V.role a = .directory) (kernel : 2 ^ 19 ≤ v)
    (high : v < 2 ^ 20) : s'.entry a v = s.entry a v := by
  by_cases same : a = d
  · rw [same]
    exact edited.entry v high fun inside => absurd (low v inside) (by omega)
  · exact edited.entry_other models (.inl isDirectory) old same high

/-- A user page that is not edited. -/
theorem page (isRoot : V.role d = .directory ∨ V.role d = .free) (user : V.role q = .user a v)
    (outside : a = d → ¬ R v) : V'.role q = .user a v ∧ s'.mem q = s.mem q := by
  rw [← user]
  apply edited.spared q _ (by rw [user]; exact outside)
  rintro rfl
  rcases isRoot with role | role
  · rw [user] at role
    cases role
  · rw [user] at role
    cases role

end Edited

/-! ## Calls that use free pages only -/

namespace Models

/-- No role names a page that is not a directory. -/
theorem without_eq (models : Models link s V) (notDirectory : V.role d ≠ .directory) :
    ∀ q, (V.role q).without d = V.role q := by
  intro q
  cases role : V.role q with
  | table d' i =>
    apply if_neg
    rintro rfl
    exact notDirectory (models.of_table q d' i role).1
  | user d' v =>
    apply if_neg
    rintro rfl
    obtain ⟨-, t, table, -⟩ := models.of_user q d' v role
    exact notDirectory (models.of_table t d' _ table).1
  | outside | free | directory | held => rfl

/-- Editing a directory that is new edits no page that was in use. -/
theorem kept (models : Models link s V) (notDirectory : V.role d ≠ .directory)
    (notFree : V.role q ≠ .free) (notHeld : V.role q ≠ .held) : (V.role q).Kept d R := by
  cases role : V.role q with
  | table d' i =>
    rintro rfl
    exact notDirectory (models.of_table q d' i role).1
  | user d' v =>
    rintro rfl
    obtain ⟨-, t, table, -⟩ := models.of_user q d' v role
    exact absurd (models.of_table t d' _ table).1 notDirectory
  | free => exact absurd role notFree
  | held => exact absurd role notHeld
  | outside => trivial
  | directory => trivial

end Models

/-- The pages that were in use are as they were. -/
structure Preserves (link : Link) (s : Machine) (V : View) (s' : Machine) (V' : View) : Prop where
  models : Models link s' V'
  loads : s'.loads = s.loads
  spared : ∀ q, V.role q ≠ .free → V.role q ≠ .held → V'.role q = V.role q ∧ s'.mem q = s.mem q

namespace Preserves

theorem of_mem (models : Models link s' V) (mem : s'.mem = s.mem) (loads : s'.loads = s.loads) :
    Preserves link s V s' V :=
  ⟨models, loads, fun q _ _ => ⟨rfl, by rw [mem]⟩⟩

/-- A directory that was not there is edited. -/
theorem edited (first : Preserves link s V s₁ V₁) (models : Models link s V)
    (isFree : V.role d = .free) (second : Edited link d R s₁ V₁ s₂ V₂) :
    Preserves link s V s₂ V₂ where
  models := second.models
  loads := second.loads.trans first.loads
  spared q notFree notHeld := by
    obtain ⟨role, mem⟩ := first.spared q notFree notHeld
    have kept := models.kept (R := R) (d := d) (by simp [isFree]) notFree notHeld
    rw [← role] at kept ⊢
    rw [← mem]
    refine second.spared q ?_ kept
    rintro rfl
    exact notFree isFree

/-- The entries of the directories are the same. -/
theorem entry (preserved : Preserves link s V s' V') (models : Models link s V)
    (old : V.role a = .directory) (high : v < 2 ^ 20) : s'.entry a v = s.entry a v := by
  apply models.entry_congr old (preserved.spared a (by simp [old]) (by simp [old])).2 _ high
  intro t i table
  exact (preserved.spared t (by simp [table]) (by simp [table])).2

end Preserves

end Xv6.Vm
