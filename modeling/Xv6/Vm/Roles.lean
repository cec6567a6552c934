import Xv6.Lib.Chain
import Xv6.Vm.Memory

/-!
# The roles of page frames

A view of the machine gives every page frame one role, so that a page cannot be used
in two ways, and lists the free pages in order.  The memory agrees with the view: the
free list runs through the free pages, the present entries of the directories are the
table pages and the present entries of the user tables are the user pages, each for
the place that its role names.

The lemmas say how the writes of the kernel move a page from one role to another.
What a page holds matters only while it is free, a directory or a table.
-/

namespace Xv6.Vm

open Linked Function Machine

/-- What a page is used for. -/
inductive Role
  /-- It does not belong to the allocator, or not yet. -/
  | outside
  | free
  | directory
  /-- The page table of entry `i` of a directory. -/
  | table (pgdir i : Nat)
  /-- The user page `v` of a directory, at the address `v * PGSIZE`. -/
  | user (pgdir v : Nat)
  /-- A caller of `kalloc` has it. -/
  | held
  deriving DecidableEq

/-- The roles that the page tables record. -/
structure Role.Paging (r : Role) : Prop where
  not_outside : r ≠ .outside
  not_free : r ≠ .free
  not_held : r ≠ .held

/-- The directory that a page belongs to. -/
def Role.owner : Role → Option Nat
  | .table d _ => some d
  | .user d _ => some d
  | _ => none

/-- The role of a page after its directory has been given up. -/
def Role.without (d : Nat) : Role → Role
  | .table d' i => if d' = d then .held else .table d' i
  | .user d' v => if d' = d then .held else .user d' v
  | r => r

/-- The roles of all pages, and the order of the free list. -/
structure View where
  role : Nat → Role
  free : List Nat

namespace Role

variable {d d' i v : Nat} {r : Role}

theorem without_of_owner (owned : r.owner = some d) : r.without d = .held := by
  cases r <;> simp_all [owner, without]

theorem without_of_not_owner (other : r.owner ≠ some d) : r.without d = r := by
  cases r <;> simp_all [owner, without]

theorem without_eq_free : r.without d = .free ↔ r = .free := by
  unfold without
  cases r <;> grind

theorem without_eq_directory : r.without d = .directory ↔ r = .directory := by
  unfold without
  cases r <;> grind

theorem without_eq_table : r.without d = .table d' i ↔ r = .table d' i ∧ d' ≠ d := by
  unfold without
  cases r <;> grind

theorem without_eq_user : r.without d = .user d' v ↔ r = .user d' v ∧ d' ≠ d := by
  unfold without
  cases r <;> grind

end Role

variable {rest : List Nat} {V' : View}

namespace View

def set (V : View) (p : Nat) (r : Role) : View :=
  { V with role := update V.role p r }

/-- The first free page gets a role. -/
def use (V : View) (p : Nat) (rest : List Nat) (r : Role) : View :=
  ⟨update V.role p r, rest⟩

/-- `kfree` -/
def give (V : View) (p : Nat) : View :=
  ⟨update V.role p .free, p :: V.free⟩

/-- A directory is given up: its pages are held until they are freed. -/
def retire (V : View) (d : Nat) : View :=
  { V with role := fun p => if p = d then .held else (V.role p).without d }

/-- The directory has a page at the address `v * PGSIZE`. -/
def Mapped (V : View) (d v : Nat) : Prop :=
  ∃ p, V.role p = .user d v

/-- What the page holds does not matter. -/
structure Plain (V : View) (p : Nat) : Prop where
  not_free : V.role p ≠ .free
  not_directory : V.role p ≠ .directory
  not_table : ∀ d i, V.role p ≠ .table d i

variable {V : View} {p q : Nat} {r : Role}

@[simp]
theorem set_role_self : (V.set p r).role p = r := by
  simp [set]

theorem set_role_of_ne (different : q ≠ p) : (V.set p r).role q = V.role q := by
  simp [set, different]

@[simp]
theorem set_free : (V.set p r).free = V.free := rfl

@[simp]
theorem use_role_self : (V.use p rest r).role p = r := by
  simp [use]

theorem use_role_of_ne (different : q ≠ p) : (V.use p rest r).role q = V.role q := by
  simp [use, different]

variable {r' : Role}

@[simp]
theorem use_set : (V.use p rest r).set p r' = V.use p rest r' := by
  simp [use, set]

@[simp]
theorem give_role_self : (V.give p).role p = .free := by
  simp [give]

theorem give_role_of_ne (different : q ≠ p) : (V.give p).role q = V.role q := by
  simp [give, different]

@[simp]
theorem retire_role_self {d : Nat} : (V.retire d).role d = .held :=
  if_pos rfl

theorem retire_role_of_ne {d : Nat} (different : q ≠ d) :
    (V.retire d).role q = (V.role q).without d :=
  if_neg different

theorem ne_of_role (first : V.role p = r) (second : V.role q = r') (different : r ≠ r') :
    p ≠ q := by
  rintro rfl
  exact different (first.symm.trans second)

/-- The other pages keep their roles. -/
theorem keep (old : V.role q = r') (other : V.role p ≠ r') : (V.set p r).role q = r' := by
  subst old
  apply set_role_of_ne
  rintro rfl
  exact other rfl

theorem back (new : (V.set p r).role q = r') (other : r' ≠ r) : V.role q = r' := by
  subst new
  rw [set_role_of_ne]
  rintro rfl
  exact other set_role_self

theorem Plain.of_held (held : V.role p = .held) : V.Plain p := by
  constructor <;> simp [held]

theorem Plain.of_user {d v : Nat} (user : V.role p = .user d v) : V.Plain p := by
  constructor <;> simp [user]

end View

/-- The memory agrees with the view. -/
structure Models (link : Link) (s : Machine) (V : View) : Prop where
  chain : Chain s.next s.freelist V.free
  free_iff : ∀ p, p ∈ V.free ↔ V.role p = .free
  managed : ∀ p, V.role p ≠ .outside → link.firstPage ≤ p ∧ p < phystop / pgsize
  table_of : ∀ d i, V.role d = .directory → i < 1024 → isPresent (s.mem d i) = true →
    V.role (target (s.mem d i)) = .table d i
  of_table : ∀ t d i, V.role t = .table d i →
    V.role d = .directory ∧ i < 1024 ∧ isPresent (s.mem d i) = true ∧ target (s.mem d i) = t
  user_of : ∀ t d i j, V.role t = .table d i → i < 512 → j < 1024 →
    isPresent (s.mem t j) = true → V.role (target (s.mem t j)) = .user d (1024 * i + j)
  of_user : ∀ p d v, V.role p = .user d v → v < 2 ^ 19 ∧ ∃ t, V.role t = .table d (v / 1024) ∧
    isPresent (s.mem t (v % 1024)) = true ∧ target (s.mem t (v % 1024)) = p

/-- The entry of page `v` in a directory is present. -/
def View.Present (V : View) (s : Machine) (d v : Nat) : Prop :=
  ∃ t, V.role t = .table d (v / 1024) ∧ isPresent (s.mem t (v % 1024)) = true

/-- The entries only depend on the tables. -/
theorem View.present_congr {s s' : Machine} {V : View}
    (tables : ∀ t d i, V'.role t = .table d i ↔ V.role t = .table d i)
    (mem : ∀ t d i, V.role t = .table d i → s'.mem t = s.mem t) (d v : Nat) :
    V'.Present s' d v ↔ V.Present s d v := by
  constructor
  · rintro ⟨t, table, present⟩
    rw [tables] at table
    rw [mem t d _ table] at present
    exact ⟨t, table, present⟩
  · rintro ⟨t, table, present⟩
    rw [← mem t d _ table] at present
    rw [← tables] at table
    exact ⟨t, table, present⟩

/-! ## Entries -/

theorem isPresent_entry (pa perm : Nat) : isPresent (pa ||| (perm ||| pteP)) = true := by
  simp [isPresent, pteP, Nat.or_mod_two_eq_one]

theorem target_or {p flags : Nat} (small : flags < pgsize) : target (p * pgsize ||| flags) = p := by
  unfold target pteAddr
  rw [show pgsize = 2 ^ 12 by rfl] at small ⊢
  rw [Nat.mul_div_cancel _ (by decide), Nat.or_div_two_pow, Nat.mul_div_cancel _ (by decide),
    Nat.div_eq_of_lt small, Nat.or_zero]

theorem target_entry {p perm : Nat} (small : perm < pgsize) :
    target (p * pgsize ||| (perm ||| pteP)) = p :=
  target_or (show perm ||| pteP < 2 ^ 12 from Nat.or_lt_two_pow small (by decide))

theorem Machine.pointer_address (p : Option Nat) : pointer (address p) = p := by
  cases p with
  | none => rfl
  | some p =>
    have positive : kernbase + p * pgsize ≠ 0 := by
      unfold kernbase
      omega
    rw [address, pointer, if_neg positive, Nat.add_sub_cancel_left,
      Nat.mul_div_cancel _ (by decide)]

namespace Models

variable {link : Link} {s s' : Machine} {V : View} {d i j t p q v w : Nat}

/-! ## What the view implies -/

theorem plain_ne (plain : V.Plain p) (used : ¬ V.Plain q) : q ≠ p := by
  rintro rfl
  exact used plain

variable (models : Models link s V)
include models

theorem table_unique (first : V.role t = .table d i) (second : V.role q = .table d i) : t = q := by
  rw [← (models.of_table t d i first).2.2.2, ← (models.of_table q d i second).2.2.2]

/-- The user pages are the present entries below `KERNBASE`. -/
theorem mapped_iff : V.Mapped d v ↔ v < 2 ^ 19 ∧ V.Present s d v := by
  constructor
  · rintro ⟨p, user⟩
    obtain ⟨low, t, table, present, -⟩ := models.of_user p d v user
    exact ⟨low, t, table, present⟩
  · rintro ⟨low, t, table, present⟩
    have user := models.user_of t d (v / 1024) (v % 1024) table (by omega)
      (Nat.mod_lt v (by decide)) present
    rw [Nat.div_add_mod] at user
    exact ⟨_, user⟩

theorem present_iff (table : V.role t = .table d (v / 1024)) :
    V.Present s d v ↔ isPresent (s.mem t (v % 1024)) = true := by
  constructor
  · rintro ⟨t', table', present⟩
    rw [models.table_unique table table']
    exact present
  · intro present
    exact ⟨t, table, present⟩

theorem not_present_of_absent (absent : isPresent (s.mem d (v / 1024)) = false) :
    ¬ V.Present s d v := by
  rintro ⟨t, table, -⟩
  rw [(models.of_table t d _ table).2.2.1] at absent
  contradiction

/-! ## The free list -/

/-- The page tables are unchanged: only the free list has to be looked at. -/
theorem transfer (roles : ∀ q r, r.Paging → (V'.role q = r ↔ V.role q = r))
    (mem : ∀ q, ¬ V.Plain q → V.role q ≠ .free → s'.mem q = s.mem q)
    (chain : Chain s'.next s'.freelist V'.free) (free_iff : ∀ p, p ∈ V'.free ↔ V'.role p = .free)
    (managed : ∀ p, V'.role p ≠ .outside → link.firstPage ≤ p ∧ p < phystop / pgsize) :
    Models link s' V' := by
  have ofDirectory : ∀ p, V.role p = .directory → s'.mem p = s.mem p :=
    fun p isDirectory => mem p (fun plain => plain.not_directory isDirectory)
      (by simp [isDirectory])
  have ofTable : ∀ p d i, V.role p = .table d i → s'.mem p = s.mem p :=
    fun p d i isTable => mem p (fun plain => plain.not_table d i isTable) (by simp [isTable])
  have directories q : V'.role q = .directory ↔ V.role q = .directory :=
    roles q _ (by constructor <;> simp)
  have tables q d i : V'.role q = .table d i ↔ V.role q = .table d i :=
    roles q _ (by constructor <;> simp)
  have users q d v : V'.role q = .user d v ↔ V.role q = .user d v :=
    roles q _ (by constructor <;> simp)
  constructor
  · exact chain
  · exact free_iff
  · exact managed
  · intro d i
    rw [directories, tables]
    intro isDirectory
    rw [ofDirectory d isDirectory]
    exact models.table_of d i isDirectory
  · intro t d i
    rw [directories, tables]
    intro isTable
    have old := models.of_table t d i isTable
    rw [ofDirectory d old.1]
    exact old
  · intro t d i j
    rw [tables, users]
    intro isTable
    rw [ofTable t d i isTable]
    exact models.user_of t d i j isTable
  · intro p d v
    rw [users]
    intro isUser
    obtain ⟨low, t, isTable, old⟩ := models.of_user p d v isUser
    refine ⟨low, t, (tables t d _).mpr isTable, ?_⟩
    rw [ofTable t d _ isTable]
    exact old

/-- Contents that do not matter may change. -/
theorem congr (list : s'.freelist = s.freelist) (mem : ∀ p, ¬ V.Plain p → s'.mem p = s.mem p) :
    Models link s' V := by
  apply models.transfer
  · exact fun q r _ => .rfl
  · exact fun q used _ => mem q used
  · rw [list]
    apply models.chain.congr
    intro p member
    have isFree := (models.free_iff p).mp member
    rw [next, next, mem p fun plain => plain.not_free isFree]
  · exact models.free_iff
  · exact models.managed

theorem setPage (plain : V.Plain p) (words : Nat → Nat) : Models link (s.setPage p words) V := by
  apply models.congr
  · rfl
  · intro q used
    exact update_of_ne (plain_ne plain used) words s.mem

/-- `kalloc` takes the first page of the list. -/
theorem take (first : V.free = p :: rest) :
    Models link { s with freelist := s.next p } (V.use p rest .held) := by
  have isFree : V.role p = .free := (models.free_iff p).mp (by simp [first])
  have chain := models.chain
  rw [first] at chain
  have fresh : p ∉ rest := (List.nodup_cons.mp chain.nodup).1
  have self : (V.use p rest .held).role p = .held := View.use_role_self
  have other : ∀ q ≠ p, (V.use p rest .held).role q = V.role q :=
    fun q different => View.use_role_of_ne different
  apply models.transfer
  · intro q r paging
    by_cases same : q = p
    · rw [same, self, isFree]
      exact iff_of_false (Ne.symm paging.not_held) (Ne.symm paging.not_free)
    · rw [other q same]
  · exact fun _ _ _ => rfl
  · exact chain.2
  · intro q
    by_cases same : q = p
    · rw [same, self]
      simp [View.use, fresh]
    · rw [other q same, ← models.free_iff q, first]
      simp [View.use, same]
  · intro q inside
    by_cases same : q = p
    · rw [same]
      exact models.managed p (by simp [isFree])
    · rw [other q same] at inside
      exact models.managed q inside

/-- `kfree` puts a page in front of the list. -/
theorem give (idle : V.role p = .held ∨ V.role p = .outside) (low : link.firstPage ≤ p)
    (high : p < phystop / pgsize) (words : Nat → Nat) (head : words 0 = address s.freelist) :
    Models link { s.setPage p words with freelist := some p } (V.give p) := by
  have self : (V.give p).role p = .free := View.give_role_self
  have other : ∀ q ≠ p, (V.give p).role q = V.role q :=
    fun q different => View.give_role_of_ne different
  have mem : ∀ q ≠ p, (s.setPage p words).mem q = s.mem q := by
    intro q different
    exact update_of_ne different words s.mem
  have plain : V.Plain p := by
    rcases idle with idle | idle <;> constructor <;> simp [idle]
  apply models.transfer
  · intro q r paging
    by_cases same : q = p
    · rw [same, self]
      refine iff_of_false (Ne.symm paging.not_free) ?_
      rcases idle with idle | idle <;> rw [idle]
      · exact Ne.symm paging.not_held
      · exact Ne.symm paging.not_outside
    · rw [other q same]
  · intro q used _
    exact mem q (plain_ne plain used)
  · refine ⟨rfl, ?_⟩
    have next : next { s.setPage p words with freelist := some p } p = s.freelist := by
      change pointer (update s.mem p words p 0) = _
      rw [update_self, head, pointer_address]
    rw [next]
    apply models.chain.congr
    intro q member
    have different : q ≠ p := by
      rintro rfl
      exact plain.not_free ((models.free_iff q).mp member)
    exact congrArg (fun page => pointer (page 0)) (mem q different)
  · intro q
    by_cases same : q = p
    · simp [View.give, same]
    · rw [other q same, ← models.free_iff q]
      simp [View.give, same]
  · intro q inside
    by_cases same : q = p
    · rw [same]
      exact ⟨low, high⟩
    · rw [other q same] at inside
      exact models.managed q inside

/-! ## Directories and tables -/

theorem set_free_iff {r : Role} (used : V.role p ≠ .free) (notFree : r ≠ .free) (q : Nat) :
    q ∈ (V.set p r).free ↔ (V.set p r).role q = .free := by
  by_cases same : q = p
  · rw [same, View.set_role_self, View.set_free, models.free_iff]
    exact iff_of_false used notFree
  · rw [View.set_role_of_ne same]
    exact models.free_iff q

theorem set_managed {r : Role} (known : V.role p ≠ .outside) (q : Nat)
    (inside : (V.set p r).role q ≠ .outside) : link.firstPage ≤ q ∧ q < phystop / pgsize := by
  by_cases same : q = p
  · rw [same]
    exact models.managed p known
  · rw [View.set_role_of_ne same] at inside
    exact models.managed q inside

/-- An empty page becomes a directory. -/
theorem addDirectory (held : V.role d = .held) (empty : ∀ i, isPresent (s.mem d i) = false) :
    Models link s (V.set d .directory) := by
  constructor
  · exact models.chain
  · exact models.set_free_iff (by simp [held]) (by simp)
  · exact models.set_managed (by simp [held])
  · intro d' i isDirectory small present
    by_cases same : d' = d
    · rw [same, empty i] at present
      contradiction
    · rw [View.set_role_of_ne same] at isDirectory
      exact View.keep (models.table_of d' i isDirectory small present) (by simp [held])
  · intro t d' i isTable
    obtain ⟨isDirectory, rest⟩ := models.of_table t d' i (View.back isTable (by simp))
    exact ⟨View.keep isDirectory (by simp [held]), rest⟩
  · intro t d' i j isTable low small present
    exact View.keep
      (models.user_of t d' i j (View.back isTable (by simp)) low small present) (by simp [held])
  · intro q d' v isUser
    obtain ⟨low, t, isTable, rest⟩ := models.of_user q d' v (View.back isUser (by simp))
    exact ⟨low, t, View.keep isTable (by simp [held]), rest⟩

omit models in
theorem mem_setWord_of_ne (different : q ≠ p) : (s.setWord p i w).mem q = s.mem q :=
  update_of_ne different _ _

omit models in
theorem mem_setWord_self : (s.setWord p i w).mem p = update (s.mem p) i w :=
  update_self _ _ _

omit models in
theorem mem_setWord_word : (s.setWord p i w).mem p i = w := by
  rw [mem_setWord_self, update_self]

omit models in
theorem mem_setWord_other (other : ¬ (q = p ∧ j = i)) : (s.setWord p i w).mem q j = s.mem q j := by
  by_cases same : q = p
  · rw [same, mem_setWord_self, update_of_ne fun entry => other ⟨same, entry⟩]
  · rw [mem_setWord_of_ne same]

omit models in
theorem mem_setWord_table (isTable : V.role t = .table d i) (isDirectory : V.role q = .directory) :
    (s.setWord t j w).mem q = s.mem q := by
  apply mem_setWord_of_ne
  rintro rfl
  rw [isTable] at isDirectory
  contradiction

/-- A write to a page that is not free leaves the free list as it is. -/
theorem chain_setWord (notFree : V.role p ≠ .free) :
    Chain (s.setWord p i w).next (s.setWord p i w).freelist V.free := by
  apply models.chain.congr
  intro q member
  have different : q ≠ p := by
    rintro rfl
    exact notFree ((models.free_iff q).mp member)
  rw [next, next, mem_setWord_of_ne different]

/-- An empty page becomes the table of an entry of a directory. -/
theorem addTable (isDirectory : V.role d = .directory) (small : i < 1024)
    (absent : isPresent (s.mem d i) = false) (held : V.role t = .held)
    (empty : ∀ j, isPresent (s.mem t j) = false) (present : isPresent w = true)
    (isTarget : target w = t) : Models link (s.setWord d i w) (V.set t (.table d i)) := by
  have different : t ≠ d := by
    rintro rfl
    rw [held] at isDirectory
    contradiction
  have mem : ∀ q, V.role q ≠ .directory → (s.setWord d i w).mem q = s.mem q := by
    intro q notDirectory
    apply mem_setWord_of_ne
    rintro rfl
    exact notDirectory isDirectory
  constructor
  · exact models.chain_setWord (by simp [isDirectory])
  · exact models.set_free_iff (by simp [held]) (by simp)
  · exact models.set_managed (by simp [held])
  · intro d' i' isDirectory' small' present'
    have old := View.back isDirectory' (by simp)
    by_cases entry : d' = d ∧ i' = i
    · obtain ⟨rfl, rfl⟩ := entry
      rw [mem_setWord_word, isTarget, View.set_role_self]
    · rw [mem_setWord_other entry] at present' ⊢
      exact View.keep (models.table_of d' i' old small' present') (by simp [held])
  · intro t' d' i' isTable
    by_cases same : t' = t
    · rw [same, View.set_role_self] at isTable
      cases isTable
      rw [same, mem_setWord_word]
      exact ⟨View.keep isDirectory (by simp [held]), small, present, isTarget⟩
    · rw [View.set_role_of_ne same] at isTable
      obtain ⟨directory, small', present', isTarget'⟩ := models.of_table t' d' i' isTable
      refine ⟨View.keep directory (by simp [held]), small', ?_⟩
      rw [mem_setWord_other]
      · exact ⟨present', isTarget'⟩
      · rintro ⟨rfl, rfl⟩
        rw [absent] at present'
        contradiction
  · intro t' d' i' j isTable low small' present'
    by_cases same : t' = t
    · rw [same, mem_setWord_of_ne different, empty j] at present'
      contradiction
    · rw [View.set_role_of_ne same] at isTable
      rw [mem t' (by simp [isTable])] at present' ⊢
      exact View.keep (models.user_of t' d' i' j isTable low small' present') (by simp [held])
  · intro p d' v isUser
    obtain ⟨low, t', isTable, rest⟩ := models.of_user p d' v (View.back isUser (by simp))
    refine ⟨low, t', View.keep isTable (by simp [held]), ?_⟩
    rw [mem t' (by simp [isTable])]
    exact rest

/-- A held page becomes a user page of a directory. -/
theorem mapUser (isTable : V.role t = .table d i) (low : i < 512) (small : j < 1024)
    (absent : isPresent (s.mem t j) = false) (held : V.role p = .held)
    (present : isPresent w = true) (isTarget : target w = p) :
    Models link (s.setWord t j w) (V.set p (.user d (1024 * i + j))) := by
  constructor
  · exact models.chain_setWord (by simp [isTable])
  · exact models.set_free_iff (by simp [held]) (by simp)
  · exact models.set_managed (by simp [held])
  · intro d' i' isDirectory small' present'
    have old := View.back isDirectory (by simp)
    rw [mem_setWord_table isTable old] at present' ⊢
    exact View.keep (models.table_of d' i' old small' present') (by simp [held])
  · intro t' d' i' isTable'
    obtain ⟨directory, rest⟩ := models.of_table t' d' i' (View.back isTable' (by simp))
    rw [mem_setWord_table isTable directory]
    exact ⟨View.keep directory (by simp [held]), rest⟩
  · intro t' d' i' j' isTable' low' small' present'
    have old := View.back isTable' (by simp)
    by_cases entry : t' = t ∧ j' = j
    · obtain ⟨rfl, rfl⟩ := entry
      rw [isTable] at old
      cases old
      rw [mem_setWord_word, isTarget, View.set_role_self]
    · rw [mem_setWord_other entry] at present' ⊢
      exact View.keep (models.user_of t' d' i' j' old low' small' present') (by simp [held])
  · intro q d' v isUser
    by_cases same : q = p
    · rw [same, View.set_role_self] at isUser
      cases isUser
      refine ⟨by omega, t, View.keep ?_ (by simp [held]), ?_⟩
      · rw [isTable, show (1024 * i + j) / 1024 = i by omega]
      · rw [show (1024 * i + j) % 1024 = j by omega, mem_setWord_word, same]
        exact ⟨present, isTarget⟩
    · rw [View.set_role_of_ne same] at isUser
      obtain ⟨low', t', isTable', present', isTarget'⟩ := models.of_user q d' v isUser
      refine ⟨low', t', View.keep isTable' (by simp [held]), ?_⟩
      rw [mem_setWord_other]
      · exact ⟨present', isTarget'⟩
      · rintro ⟨rfl, rfl⟩
        rw [absent] at present'
        contradiction

/-- A write to a table that changes no user page. -/
theorem retouch (isTable : V.role t = .table d i)
    (same : i < 512 → isPresent w = isPresent (s.mem t j) ∧ target w = target (s.mem t j)) :
    Models link (s.setWord t j w) V := by
  have entry : ∀ t' d' i' j', V.role t' = .table d' i' → i' < 512 →
      isPresent ((s.setWord t j w).mem t' j') = isPresent (s.mem t' j') ∧
      target ((s.setWord t j w).mem t' j') = target (s.mem t' j') := by
    intro t' d' i' j' isTable' low
    by_cases changed : t' = t ∧ j' = j
    · obtain ⟨rfl, rfl⟩ := changed
      rw [isTable] at isTable'
      cases isTable'
      rw [mem_setWord_word]
      exact same low
    · rw [mem_setWord_other changed]
      exact ⟨rfl, rfl⟩
  constructor
  · exact models.chain_setWord (by simp [isTable])
  · exact models.free_iff
  · exact models.managed
  · intro d' i' isDirectory
    rw [mem_setWord_table isTable isDirectory]
    exact models.table_of d' i' isDirectory
  · intro t' d' i' isTable'
    have old := models.of_table t' d' i' isTable'
    rw [mem_setWord_table isTable old.1]
    exact old
  · intro t' d' i' j' isTable' low small
    obtain ⟨samePresent, sameTarget⟩ := entry t' d' i' j' isTable' low
    rw [samePresent, sameTarget]
    exact models.user_of t' d' i' j' isTable' low small
  · intro p d' v isUser
    obtain ⟨low, t', isTable', old⟩ := models.of_user p d' v isUser
    obtain ⟨samePresent, sameTarget⟩ := entry t' d' _ (v % 1024) isTable' (by omega)
    refine ⟨low, t', isTable', ?_⟩
    rw [samePresent, sameTarget]
    exact old

/-- The entry of a user page is cleared. -/
theorem unmapUser (isUser : V.role p = .user d v) (isTable : V.role t = .table d (v / 1024)) :
    Models link (s.setWord t (v % 1024) 0) (V.set p .held) := by
  obtain ⟨low, t', isTable', present, isTarget⟩ := models.of_user p d v isUser
  obtain rfl := models.table_unique isTable isTable'
  constructor
  · exact models.chain_setWord (by simp [isTable])
  · exact models.set_free_iff (by simp [isUser]) (by simp)
  · exact models.set_managed (by simp [isUser])
  · intro d' i' isDirectory small' present'
    have old := View.back isDirectory (by simp)
    rw [mem_setWord_table isTable old] at present' ⊢
    exact View.keep (models.table_of d' i' old small' present') (by simp [isUser])
  · intro t' d' i' isTable'
    obtain ⟨directory, rest⟩ := models.of_table t' d' i' (View.back isTable' (by simp))
    rw [mem_setWord_table isTable directory]
    exact ⟨View.keep directory (by simp [isUser]), rest⟩
  · intro t' d' i' j' isTable' low' small' present'
    have old := View.back isTable' (by simp)
    by_cases entry : t' = t ∧ j' = v % 1024
    · obtain ⟨rfl, rfl⟩ := entry
      rw [mem_setWord_word] at present'
      simp [isPresent] at present'
    · rw [mem_setWord_other entry] at present' ⊢
      apply View.keep (models.user_of t' d' i' j' old low' small' present')
      rw [isUser]
      intro samePlace
      injection samePlace with sameDirectory samePlace
      subst sameDirectory
      rw [samePlace, show (1024 * i' + j') / 1024 = i' by omega] at isTable
      exact entry ⟨models.table_unique old isTable, by omega⟩
  · intro q d' v' isUser'
    have old := View.back isUser' (by simp)
    obtain ⟨low', t', isTable', present', isTarget'⟩ := models.of_user q d' v' old
    refine ⟨low', t', View.keep isTable' (by simp [isUser]), ?_⟩
    rw [mem_setWord_other]
    · exact ⟨present', isTarget'⟩
    · rintro ⟨rfl, entry⟩
      rw [entry, isTarget] at isTarget'
      rw [← isTarget', View.set_role_self] at isUser'
      contradiction

/-- A directory is given up. -/
theorem retire (isDirectory : V.role d = .directory) : Models link s (V.retire d) := by
  have other : ∀ q ≠ d, (V.retire d).role q = (V.role q).without d :=
    fun q different => View.retire_role_of_ne different
  have directories : ∀ q, (V.retire d).role q = .directory ↔ V.role q = .directory ∧ q ≠ d := by
    intro q
    by_cases same : q = d
    · simp [same]
    · rw [other q same, Role.without_eq_directory]
      simp [same]
  have tables : ∀ q d' i, (V.retire d).role q = .table d' i ↔ V.role q = .table d' i ∧ d' ≠ d := by
    intro q d' i
    by_cases same : q = d
    · simp [same, isDirectory]
    · rw [other q same, Role.without_eq_table]
  have users : ∀ q d' v, (V.retire d).role q = .user d' v ↔ V.role q = .user d' v ∧ d' ≠ d := by
    intro q d' v
    by_cases same : q = d
    · simp [same, isDirectory]
    · rw [other q same, Role.without_eq_user]
  constructor
  · exact models.chain
  · intro q
    rw [show (V.retire d).free = V.free from rfl, models.free_iff]
    by_cases same : q = d
    · simp [same, isDirectory]
    · rw [other q same, Role.without_eq_free]
  · intro q inside
    apply models.managed
    intro outside
    by_cases same : q = d
    · rw [same, isDirectory] at outside
      contradiction
    · rw [other q same, outside] at inside
      exact inside rfl
  · intro d' i
    rw [directories, tables]
    rintro ⟨old, different⟩ small present
    exact ⟨models.table_of d' i old small present, different⟩
  · intro t d' i
    rw [directories, tables]
    rintro ⟨old, different⟩
    obtain ⟨directory, rest⟩ := models.of_table t d' i old
    exact ⟨⟨directory, different⟩, rest⟩
  · intro t d' i j
    rw [tables, users]
    rintro ⟨old, different⟩ low small present
    exact ⟨models.user_of t d' i j old low small present, different⟩
  · intro q d' v
    rw [users]
    rintro ⟨old, different⟩
    obtain ⟨low, t, isTable, rest⟩ := models.of_user q d' v old
    exact ⟨low, t, (tables t d' _).mpr ⟨isTable, different⟩, rest⟩

end Models

end Xv6.Vm
