import Xv6.Vm.Edits

/-!
# What the functions of `vm.c` do to the roles of pages

Each function is specified by the view that it leaves.  The functions ask `kalloc` for
pages in an order that can be read off the directory beforehand (`userDemand`,
`kernelDemand`), and which request is the first to be refused decides how a call ends.
-/

namespace Xv6.Vm

open Stateful Function

/-! ## Requests -/

/-- What a page is asked for. -/
inductive Request
  | directory
  | kernelTable
  | userTable
  | data
  | stack
  deriving DecidableEq

/-- What `kalloc` has to give: its refusals, the calls made so far and the length of
the free list. -/
structure Supply where
  refuse : Nat → Bool
  calls : Nat
  free : Nat

namespace Supply

/-- The next call of `kalloc` returns 0. -/
def refuses (k : Supply) : Bool :=
  k.refuse k.calls || k.free == 0

/-- The supply after a number of pages have been given out. -/
def after (k : Supply) (n : Nat) : Supply :=
  { k with calls := k.calls + n, free := k.free - n }

/-- The supply after a call that has been refused. -/
def skip (k : Supply) : Supply :=
  { k with calls := k.calls + 1 }

/-- The first of the requests that is refused, if each one before it is granted. -/
def firstRefused (k : Supply) : List Request → Option Request
  | [] => none
  | r :: rest => if k.refuses then some r else (k.after 1).firstRefused rest

variable {k : Supply} {m n : Nat}

@[simp]
theorem after_zero : k.after 0 = k := rfl

@[simp]
theorem after_after : (k.after m).after n = k.after (m + n) := by
  simp [after, Nat.add_assoc, Nat.sub_sub]

theorem firstRefused_append (first second : List Request) :
    k.firstRefused (first ++ second) =
      (k.firstRefused first).or ((k.after first.length).firstRefused second) := by
  induction first generalizing k with
  | nil => simp [firstRefused]
  | cons r rest ih =>
    simp only [List.cons_append, firstRefused, List.length_cons]
    split
    · simp
    · rw [ih, after_after, Nat.add_comm]

section

variable (reliable : k.refuse = fun _ => false)

include reliable

/-- If `kalloc` fails only when the list is empty. -/
theorem refuses_iff : k.refuses = true ↔ k.free = 0 := by
  simp [refuses, reliable]

variable {requests : List Request}

/-- The first request for which there is no page left. -/
theorem firstRefused_eq_getElem? : k.firstRefused requests = requests[k.free]? := by
  induction requests generalizing k with
  | nil => rfl
  | cons r rest ih =>
    rw [firstRefused]
    split
    · rename_i refused
      rw [(refuses_iff reliable).mp refused, List.getElem?_cons_zero]
    · rename_i granted
      rw [refuses_iff reliable] at granted
      obtain ⟨n, count⟩ := Nat.exists_eq_succ_of_ne_zero granted
      have later : (k.after 1).refuse = fun _ => false := reliable
      have fewer : (k.after 1).free = n := by
        rw [after, count]
        rfl
      rw [ih later, fewer, count, List.getElem?_cons_succ]

theorem firstRefused_eq_none_iff : k.firstRefused requests = none ↔ requests.length ≤ k.free := by
  rw [firstRefused_eq_getElem? reliable, List.getElem?_eq_none_iff]

/-- The second of two requests is refused. -/
theorem refused_second {r r' : Request} (granted : k.refuses = false)
    (refused : k.firstRefused ([r] ++ [r']) ≠ none) :
    k.free = 1 ∧ (k.after 1).skip.refuses = true := by
  have notEmpty : k.free ≠ 0 := by
    rw [ne_eq, ← refuses_iff reliable, granted]
    simp
  rw [ne_eq, firstRefused_eq_none_iff reliable] at refused
  have one : k.free = 1 := by
    simp only [List.singleton_append, List.length_cons, List.length_nil] at refused
    omega
  refine ⟨one, ?_⟩
  simp [refuses, skip, after, one]

end

end Supply

/-- What `kalloc` has to give in a state. -/
def Machine.supply (s : Machine) (V : View) : Supply :=
  ⟨s.refuse, s.calls, V.free.length⟩

variable {link : Link} {s s' s₁ : Machine} {V : View} {R : Nat → Prop}
  {d i j t p q v w va : Nat}

/-- `kalloc` has given a page and something may have been written to it. -/
structure Taken (link : Link) (p : Nat) (list : List Nat) (s : Machine) (V : View)
    (s₁ : Machine) : Prop where
  models : Models link s₁ (V.use p list .held)
  granted : (s.supply V).refuses = false
  first : V.free = p :: list
  wasFree : V.role p = .free
  loads : s₁.loads = s.loads
  supply : s₁.supply (V.use p list .held) = (s.supply V).after 1
  mem : ∀ q ≠ p, s₁.mem q = s.mem q

/-- `kalloc` has returned 0. -/
structure Refused (link : Link) (s : Machine) (V : View) (s₁ : Machine) : Prop where
  models : Models link s₁ V
  mem : s₁.mem = s.mem
  loads : s₁.loads = s.loads
  supply : s₁.supply V = (s.supply V).skip

theorem Refused.edited (refused : Refused link s V s₁) : Edited link d R s V s₁ V :=
  .of_mem refused.models refused.mem refused.loads

theorem kalloc_spec (models : Models link s V) :
    Wp kalloc (fun _ => False) (fun r s' =>
      match r with
      | none => (s.supply V).refuses = true ∧ Refused link s V s'
      | some p => s'.mem = s.mem ∧ ∃ list, Taken link p list s V s') s := by
  unfold kalloc
  simp only [wp_bind, wp_get, wp_modify]
  cases refused : s.refuse s.calls with
  | true =>
    refine ⟨by simp [Supply.refuses, Machine.supply, refused], ?_, rfl, rfl, rfl⟩
    exact models.congr rfl fun _ _ => rfl
  | false =>
    have chain := models.chain
    cases list : V.free with
    | nil =>
      rw [list, Linked.chain_nil_iff] at chain
      rw [chain]
      refine ⟨by simp [Supply.refuses, Machine.supply, list], ?_, rfl, rfl, rfl⟩
      exact models.congr chain.symm fun _ _ => rfl
    | cons p rest =>
      rw [list] at chain
      rw [chain.1]
      refine ⟨rfl, rest, (models.take list).congr rfl fun _ _ => rfl, ?_, list, ?_, rfl, ?_,
        fun _ _ => rfl⟩
      · simp [Supply.refuses, Machine.supply, list, refused]
      · exact (models.free_iff p).mp (by simp [list])
      · simp [Machine.supply, Supply.after, View.use, list]

namespace Taken

variable {list : List Nat}

variable (taken : Taken link p list s V s₁)
include taken

theorem setPage (words : Nat → Nat) : Taken link p list s V (s₁.setPage p words) := by
  constructor
  · exact taken.models.setPage (View.Plain.of_held View.use_role_self) words
  · exact taken.granted
  · exact taken.first
  · exact taken.wasFree
  · exact taken.loads
  · exact taken.supply
  · intro q different
    rw [← taken.mem q different]
    exact update_of_ne different _ _

theorem ne (notFree : V.role q ≠ .free) : q ≠ p := by
  rintro rfl
  exact notFree taken.wasFree

theorem isDirectory (old : V.role d = .directory) : (V.use p list .held).role d = .directory := by
  rw [View.use_role_of_ne (taken.ne (by simp [old])), old]

/-- The directories are left alone. -/
theorem edited (models : Models link s V) (isDirectory : V.role d = .directory) :
    Edited link d R s V s₁ (V.use p list .held) where
  models := taken.models
  loads := taken.loads
  spared q _ kept := by
    have other : q ≠ p := taken.ne fun isFree => by simp [isFree, Role.Kept] at kept
    exact ⟨View.use_role_of_ne other, taken.mem q other⟩
  entry v high _ := models.entry_congr isDirectory (taken.mem d (taken.ne (by simp [isDirectory])))
    (fun t i table => taken.mem t (taken.ne (by simp [table]))) high

end Taken

/-- `walkpgdir` without `alloc` changes nothing. -/
theorem walkpgdir_spec (models : Models link s V) (isDirectory : V.role d = .directory) :
    Wp (walkpgdir d va false) (fun _ => False) (fun r s' => s' = s ∧
      match r with
      | none => isPresent (s.mem d (pdx va)) = false
      | some (t, j) => V.role t = .table d (pdx va) ∧ j = ptx va) s := by
  unfold walkpgdir
  simp only [wp_bind, wp_get]
  split
  · rename_i present
    exact ⟨rfl, models.table_of d _ isDirectory (Nat.mod_lt _ (by decide)) present, rfl⟩
  · rename_i absent
    exact ⟨rfl, by simpa using absent⟩

/-! ## Entering a page -/

/-- The request for the table of page `v`. -/
def tableRequest (v : Nat) : Request :=
  if v < 2 ^ 19 then .userTable else .kernelTable

theorem tableRequest_user (low : v < 2 ^ 19) : tableRequest v = .userTable :=
  if_pos low

theorem tableRequest_kernel (high : 2 ^ 19 ≤ v) : tableRequest v = .kernelTable :=
  if_neg (by omega)

/-- The pages that are asked for to enter page `v`, when `has` says which tables there
are. -/
def pageDemand (has : Nat → Bool) (v : Nat) : List Request :=
  if has (v / 1024) then [] else [tableRequest v]

/-- The tables of a directory. -/
def Machine.tables (s : Machine) (d i : Nat) : Bool :=
  isPresent (s.mem d i)

theorem pdx_page (high : v < 2 ^ 20) : pdx (v * pgsize) = v / 1024 := by
  unfold pdx pgsize
  omega

theorem ptx_page : ptx (v * pgsize) = v % 1024 := by
  unfold ptx pgsize
  omega

/-- The table for page `v` is there; it may be new, and is empty then. -/
structure Tabled (link : Link) (d v : Nat) (s : Machine) (V : View) (s' : Machine) (V' : View) :
    Prop extends Edited link d (fun _ => False) s V s' V' where
  supply : s'.supply V' = (s.supply V).after (pageDemand (s.tables d) v).length
  tables : ∀ i, s'.tables d i = (s.tables d i || i == v / 1024)
  present : ∀ d' v', V'.Present s' d' v' ↔ V.Present s d' v'
  roles : ∀ q, V'.role q = V.role q ∨ V.role q = .free ∧ V'.role q = .table d (v / 1024)
  held : ∀ q, V.role q = .held → s'.mem q = s.mem q

theorem Tabled.refl (models : Models link s V) (has : s.tables d (v / 1024) = true) :
    Tabled link d v s V s V := by
  constructor
  · exact .refl models
  · simp [pageDemand, has]
  · intro i
    by_cases same : i = v / 1024
    · simp [same, has]
    · simp [same]
  · exact fun _ _ => .rfl
  · exact fun _ => .inl rfl
  · exact fun _ _ => rfl

theorem newEntry : isPresent (t * pgsize ||| (pteP ||| pteW ||| pteU)) = true := by
  rw [isPresent, decide_eq_true_eq, Nat.or_mod_two_eq_one]
  simp [pteP, pteW, pteU]

/-- A new table: the page has been taken from the free list and cleared. -/
theorem Taken.newTable {list : List Nat} (taken : Taken link t list s V s₁)
    (isDirectory : V.role d = .directory) (small : i < 1024)
    (absent : isPresent (s.mem d i) = false) :
    Models link
      ((s₁.setPage t fun _ => 0).setWord d i (t * pgsize ||| (pteP ||| pteW ||| pteU)))
      (V.use t list (.table d i)) := by
  have different : d ≠ t := taken.ne (by simp [isDirectory])
  have cleared := taken.setPage fun _ => 0
  rw [← View.use_set (r := .held)]
  apply cleared.models.addTable
  · exact taken.isDirectory isDirectory
  · exact small
  · rw [cleared.mem d different]
    exact absent
  · exact View.use_role_self
  · simp [Machine.setPage, isPresent]
  · exact newEntry
  · exact target_or (by decide)

variable {perm : Nat} {ranges : List Kmap}

section

variable (models : Models link s V)
include models

/-- A new table has no entries. -/
theorem Models.entry_newTable (isDirectory : V.role d = .directory)
    (absent : isPresent (s.mem d (v / 1024)) = false)
    (root : s'.mem d = update (s.mem d) (v / 1024) (t * pgsize ||| (pteP ||| pteW ||| pteU)))
    (empty : s'.mem t = fun _ => 0) (mem : ∀ q d' i, V.role q = .table d' i → s'.mem q = s.mem q)
    (high : w < 2 ^ 20) : s'.entry d w = s.entry d w := by
  unfold Machine.entry
  rw [root]
  by_cases same : w / 1024 = v / 1024
  · rw [same, update_self, if_pos newEntry, target_or (by decide), empty, absent]
    rfl
  · rw [update_of_ne same]
    split
    · rename_i present
      rw [mem _ d _ (models.table_of d _ isDirectory (show w / 1024 < 1024 by omega) present)]
    · rfl

/-- `walkpgdir` with `alloc` finds the table of a page, adds it, or is refused the page
for it. -/
theorem walkpgdir_alloc_spec (isDirectory : V.role d = .directory) (high : v < 2 ^ 20) :
    Wp (walkpgdir d (v * pgsize) true) (fun _ => False) (fun r s' =>
      ((s.supply V).firstRefused (pageDemand (s.tables d) v) = some (tableRequest v) ∧
        r = none ∧ Refused link s V s') ∨
      ((s.supply V).firstRefused (pageDemand (s.tables d) v) = none ∧
        ∃ t V', r = some (t, v % 1024) ∧ V'.role t = .table d (v / 1024) ∧
          Tabled link d v s V s' V')) s := by
  have small : v / 1024 < 1024 := by omega
  unfold walkpgdir
  rw [pdx_page high, ptx_page]
  simp only [wp_bind, wp_get]
  split
  · rename_i has
    refine .inr ⟨?_, _, V, rfl, models.table_of d _ isDirectory small has,
      Tabled.refl models has⟩
    simp [pageDemand, Machine.tables, has, Supply.firstRefused]
  · rename_i absent
    simp only [Bool.not_eq_true] at absent
    have demand : pageDemand (s.tables d) v = [tableRequest v] := by
      simp [pageDemand, Machine.tables, absent]
    simp only [if_true, wp_bind]
    apply (kalloc_spec models).mono (by simp)
    rintro (_ | t) s' answer
    · refine .inl ⟨?_, rfl, answer.2⟩
      simp [demand, Supply.firstRefused, answer.1]
    · obtain ⟨-, list, taken⟩ := answer
      simp only [wp_modify, wp_bind, wp_pure]
      have added := taken.newTable isDirectory small absent
      have different : d ≠ t := taken.ne (by simp [isDirectory])
      generalize isNew : (s'.setPage t fun _ => 0).setWord d (v / 1024)
        (t * pgsize ||| (pteP ||| pteW ||| pteU)) = new at added
      have mem : ∀ q ≠ d, q ≠ t → new.mem q = s.mem q := by
        intro q notRoot other
        rw [← isNew, Models.mem_setWord_of_ne notRoot, ← taken.mem q other]
        exact update_of_ne other _ _
      have tableMem : ∀ q d' i, V.role q = .table d' i → new.mem q = s.mem q := by
        intro q d' i isTable
        exact mem q (View.ne_of_role isTable isDirectory (by simp)) (taken.ne (by simp [isTable]))
      have root : new.mem d = update (s.mem d) (v / 1024)
          (t * pgsize ||| (pteP ||| pteW ||| pteU)) := by
        rw [← isNew, Models.mem_setWord_self, ← taken.mem d different]
        exact congrArg (update · _ _) (update_of_ne different _ _)
      have empty : new.mem t = fun _ => 0 := by
        rw [← isNew, Models.mem_setWord_of_ne different.symm]
        exact update_self _ _ _
      have supply : new.supply (V.use t list (.table d (v / 1024))) = (s.supply V).after 1 := by
        rw [← taken.supply, ← isNew]
        rfl
      have loads : new.loads = s.loads := by
        rw [← isNew, ← taken.loads]
        rfl
      refine .inr ⟨?_, t, _, rfl, View.use_role_self, ⟨added, loads, ?_, ?_⟩, ?_, ?_, ?_, ?_, ?_⟩
      · simp [demand, Supply.firstRefused, taken.granted]
      · intro q notRoot kept
        have other : q ≠ t := taken.ne fun isFree => by simp [isFree, Role.Kept] at kept
        exact ⟨View.use_role_of_ne other, mem q notRoot other⟩
      · intro w high' _
        exact models.entry_newTable isDirectory absent root empty tableMem high'
      · rw [demand, List.length_singleton, supply]
      · intro i
        rw [Machine.tables, root]
        by_cases same : i = v / 1024
        · simp [same, newEntry]
        · simp [same, Machine.tables]
      · intro d' v'
        constructor
        · rintro ⟨t', isTable, present⟩
          have other : t' ≠ t := by
            rintro rfl
            simp [empty, isPresent] at present
          rw [View.use_role_of_ne other] at isTable
          rw [tableMem t' d' _ isTable] at present
          exact ⟨t', isTable, present⟩
        · rintro ⟨t', isTable, present⟩
          have other : t' ≠ t := taken.ne (by simp [isTable])
          refine ⟨t', ?_, ?_⟩
          · rw [View.use_role_of_ne other, isTable]
          · rw [tableMem t' d' _ isTable]
            exact present
      · intro q
        by_cases same : q = t
        · rw [same, View.use_role_self]
          exact .inr ⟨taken.wasFree, rfl⟩
        · exact .inl (View.use_role_of_ne same)
      · intro q isHeld
        exact mem q (View.ne_of_role isHeld isDirectory (by simp)) (taken.ne (by simp [isHeld]))

/-- A page has been entered: the table of its entry may be new. -/
structure Entered (link : Link) (d v p perm : Nat) (s : Machine) (V : View) (s' : Machine)
    (V' : View) : Prop extends Edited link d (· = v) s V s' V' where
  word : s'.entry d v = p * pgsize ||| (perm ||| pteP)
  supply : s'.supply V' = (s.supply V).after (pageDemand (s.tables d) v).length
  tables : ∀ i, s'.tables d i = (s.tables d i || i == v / 1024)
  present : ∀ d' v', V'.Present s' d' v' ↔ V.Present s d' v' ∨ d' = d ∧ v' = v
  absent : ¬ V.Present s d v
  page : v < 2 ^ 19 → V'.role p = .user d v ∧ s'.mem p = s.mem p
  roles : ∀ q, q ≠ p ∨ 2 ^ 19 ≤ v →
    V'.role q = V.role q ∨ V.role q = .free ∧ V'.role q = .table d (v / 1024)

/-- The body of the loop of `mappages`, once the table is there. -/
theorem Models.enter (table : V.role t = .table d (v / 1024)) (held : v < 2 ^ 19 → V.role p = .held)
    (small : perm < pgsize) (absent : isPresent (s.mem t (v % 1024)) = false) :
    ∃ V', Models link (s.setWord t (v % 1024) (p * pgsize ||| (perm ||| pteP))) V' ∧
      V'.free = V.free ∧ (v < 2 ^ 19 → V'.role p = .user d v) ∧
      ∀ q, q ≠ p ∨ 2 ^ 19 ≤ v → V'.role q = V.role q := by
  by_cases low : v < 2 ^ 19
  · have mapped := models.mapUser table (by omega) (Nat.mod_lt v (by decide)) absent (held low)
      (isPresent_entry (p * pgsize) perm) (target_entry small)
    rw [Nat.div_add_mod] at mapped
    refine ⟨_, mapped, rfl, fun _ => View.set_role_self, ?_⟩
    rintro q (other | high)
    · exact View.set_role_of_ne other
    · omega
  · exact ⟨V, models.retouch table (by omega), rfl, fun low' => absurd low' low, fun _ _ => rfl⟩

omit models in
theorem present_setWord (table : V.role t = .table d (v / 1024)) {V' : View}
    (tables : ∀ q d i, V'.role q = .table d i ↔ V.role q = .table d i)
    (present : isPresent w = true) (d' v' : Nat) :
    V'.Present (s.setWord t (v % 1024) w) d' v' ↔ V.Present s d' v' ∨ d' = d ∧ v' = v := by
  constructor
  · rintro ⟨t', isTable, isPresent'⟩
    rw [tables] at isTable
    by_cases entry : t' = t ∧ v' % 1024 = v % 1024
    · rw [entry.1, table] at isTable
      injection isTable with sameDirectory sameTable
      exact .inr ⟨sameDirectory.symm, by omega⟩
    · rw [Models.mem_setWord_other entry] at isPresent'
      exact .inl ⟨t', isTable, isPresent'⟩
  · rintro (⟨t', isTable, isPresent'⟩ | ⟨rfl, rfl⟩)
    · refine ⟨t', (tables _ _ _).mpr isTable, ?_⟩
      by_cases entry : t' = t ∧ v' % 1024 = v % 1024
      · rw [entry.1, entry.2, Models.mem_setWord_word]
        exact present
      · rw [Models.mem_setWord_other entry]
        exact isPresent'
    · refine ⟨t, (tables _ _ _).mpr table, ?_⟩
      rw [Models.mem_setWord_word]
      exact present

/-- The body of the loop of `mappages`. -/
theorem mapPage_spec (isDirectory : V.role d = .directory) (high : v < 2 ^ 20)
    (held : v < 2 ^ 19 → V.role p = .held) (small : perm < pgsize) :
    Wp (mapPage d (v * pgsize) (p * pgsize) perm)
      (fun reason => reason = .remap ∧ V.Present s d v) (fun r s' =>
      ((s.supply V).firstRefused (pageDemand (s.tables d) v) = some (tableRequest v) ∧
        r = false ∧ Refused link s V s') ∨
      ((s.supply V).firstRefused (pageDemand (s.tables d) v) = none ∧
        r = true ∧ ∃ V', Entered link d v p perm s V s' V')) s := by
  unfold mapPage
  apply (walkpgdir_alloc_spec models isDirectory high).always
  rintro _ s₁ (⟨request, rfl, refused⟩ | ⟨granted, t, V₁, rfl, table, tabled⟩)
  · exact .inl ⟨request, rfl, refused⟩
  · simp only [wp_bind, wp_get]
    split
    · rename_i present
      exact ⟨rfl, (tabled.present d v).mp ⟨t, table, present⟩⟩
    · rename_i absent
      simp only [Bool.not_eq_true] at absent
      have notTable := tabled.models.table_ne table
      have held₁ : v < 2 ^ 19 → V₁.role p = .held ∧ p ≠ t ∧ s₁.mem p = s.mem p := by
        intro low
        have role : V₁.role p = .held := by
          rcases tabled.roles p with same | ⟨isFree, -⟩
          · rw [same, held low]
          · rw [held low] at isFree
            contradiction
        exact ⟨role, View.ne_of_role role table (by simp), tabled.held p (held low)⟩
      obtain ⟨V', models', free, page, roles⟩ :=
        tabled.models.enter table (fun low => (held₁ low).1) small absent
      have edited : Edited link d (· = v) s V
          (s₁.setWord t (v % 1024) (p * pgsize ||| (perm ||| pteP))) V' := by
        refine (tabled.toEdited.mono fun _ => False.elim).trans ⟨models', rfl, ?_, ?_⟩
        · intro q notRoot kept
          have notPage : q ≠ p ∨ 2 ^ 19 ≤ v := by
            by_cases low : v < 2 ^ 19
            · refine .inl ?_
              rintro rfl
              simp [(held₁ low).1, Role.Kept] at kept
            · exact .inr (by omega)
          refine ⟨roles q notPage, Models.mem_setWord_of_ne ?_⟩
          rintro rfl
          simp [table, Role.Kept] at kept
        · intro w high' other
          rw [tabled.models.entry_setWord table high', if_neg other]
      refine .inr ⟨granted, rfl, V', edited, ?_, ?_, ?_, ?_, ?_, ?_, ?_⟩
      · rw [tabled.models.entry_setWord table high, if_pos rfl]
      · rw [← tabled.supply]
        simp [Machine.supply, free, Machine.setWord, Machine.setPage]
      · intro i
        rw [← tabled.tables i, Machine.tables, Models.mem_setWord_of_ne notTable]
        rfl
      · intro d' v'
        rw [← tabled.present d' v']
        apply present_setWord table
        · intro q d i
          by_cases entered : q = p ∧ v < 2 ^ 19
          · rw [entered.1, page entered.2, (held₁ entered.2).1]
            simp
          · rw [roles q (by omega)]
        · exact isPresent_entry _ _
      · rw [← tabled.present, tabled.models.present_iff table, absent]
        simp
      · intro low
        obtain ⟨-, other, mem⟩ := held₁ low
        exact ⟨page low, (Models.mem_setWord_of_ne other).trans mem⟩
      · intro q other
        rw [roles q other]
        exact tabled.roles q

end

/-! ## Entering a range of pages -/

/-- The pages that are asked for to enter `n` pages from `v` on, with the requests
`data` for each of them. -/
def demand (data : List Request) (has : Nat → Bool) : Nat → Nat → List Request
  | _, 0 => []
  | v, n + 1 =>
    data ++ pageDemand has v ++ demand data (fun i => has i || i == v / 1024) (v + 1) n

/-- Free pages have been added to the directory. -/
def Extends (d : Nat) (V V' : View) : Prop :=
  ∀ q, V'.role q = V.role q ∨ V.role q = .free ∧ (V'.role q).owner = some d

namespace Extends

variable {V' V'' : View}

theorem refl : Extends d V V :=
  fun _ => .inl rfl

theorem keeps (ext : Extends d V V') (notFree : V.role q ≠ .free) : V'.role q = V.role q := by
  rcases ext q with same | ⟨isFree, -⟩
  · exact same
  · exact absurd isFree notFree

theorem wasFree (ext : Extends d V V') (isFree : V'.role q = .free) : V.role q = .free := by
  rcases ext q with same | ⟨isFree', -⟩
  · rw [← same, isFree]
  · exact isFree'

theorem trans (first : Extends d V V') (second : Extends d V' V'') : Extends d V V'' := by
  intro q
  rcases second q with same | ⟨isFree, owned⟩
  · rw [same]
    exact first q
  · exact .inr ⟨first.wasFree isFree, owned⟩

theorem directory (ext : Extends d V V') (old : V.role q = .directory) :
    V'.role q = .directory := by
  rw [ext.keeps (by simp [old]), old]

theorem user (ext : Extends d V V') (q v : Nat) (old : V.role q = .user d v) :
    V'.role q = .user d v := by
  rw [ext.keeps (by simp [old]), old]

end Extends

/-- Free pages have become tables of a directory. -/
def NewTables (d : Nat) (V V' : View) : Prop :=
  ∀ q, V'.role q = V.role q ∨ V.role q = .free ∧ ∃ i, V'.role q = .table d i

theorem NewTables.extends {V' : View} (added : NewTables d V V') : Extends d V V' := by
  intro q
  rcases added q with same | ⟨isFree, i, table⟩
  · exact .inl same
  · exact .inr ⟨isFree, by rw [table]; rfl⟩

namespace NewTables

variable {V' V'' : View}

theorem refl : NewTables d V V :=
  fun _ => .inl rfl

theorem trans (first : NewTables d V V') (second : NewTables d V' V'') : NewTables d V V'' := by
  intro q
  rcases second q with same | ⟨isFree, table⟩
  · rw [same]
    exact first q
  · exact .inr ⟨first.extends.wasFree isFree, table⟩

end NewTables

/-- The pages `v`, ..., `v + n - 1` have been entered into a directory, and free pages
have become its tables and its user pages. -/
structure Grown (link : Link) (data : List Request) (d v n : Nat) (s : Machine) (V : View)
    (s' : Machine) (V' : View) : Prop
    extends Edited link d (fun v' => v ≤ v' ∧ v' < v + n) s V s' V' where
  supply : s'.supply V' = (s.supply V).after (demand data (s.tables d) v n).length
  tables : ∀ i, s'.tables d i = true ↔
    s.tables d i = true ∨ ∃ v', v ≤ v' ∧ v' < v + n ∧ v' / 1024 = i
  present : ∀ d' v', V'.Present s' d' v' ↔ V.Present s d' v' ∨ d' = d ∧ v ≤ v' ∧ v' < v + n
  roles : ∀ q, V'.role q = V.role q ∨ V.role q = .free ∧ ((∃ i, V'.role q = .table d i) ∨
    ∃ v', v ≤ v' ∧ v' < v + n ∧ V'.role q = .user d v')

theorem Grown.extends {data : List Request} {V' : View} {n : Nat}
    (grown : Grown link data d v n s V s' V') : Extends d V V' := by
  intro q
  rcases grown.roles q with same | ⟨isFree, ⟨i, table⟩ | ⟨v', -, -, user⟩⟩
  · exact .inl same
  · exact .inr ⟨isFree, by rw [table]; rfl⟩
  · exact .inr ⟨isFree, by rw [user]; rfl⟩

namespace Grown

variable {data : List Request} {V' V'' : View} {s'' : Machine} {n : Nat}

theorem refl (models : Models link s V) : Grown link data d v 0 s V s V := by
  constructor
  · exact .refl models
  · rfl
  · intro i
    grind
  · intro d' v'
    grind
  · exact fun _ => .inl rfl

section

variable (first : Grown link data d v 1 s V s' V')
include first

theorem tables_eq : s'.tables d = fun i => s.tables d i || i == v / 1024 := by
  funext i
  rw [Bool.eq_iff_iff, first.tables i]
  constructor
  · rintro (old | ⟨v', low, high, rfl⟩)
    · simp [old]
    · simp [show v' = v by omega]
  · intro new
    simp only [Bool.or_eq_true, beq_iff_eq] at new
    rcases new with old | rfl
    · exact .inl old
    · exact .inr ⟨v, Nat.le_refl v, by omega, rfl⟩

/-- After the first page, the fate of the range is that of the rest. -/
theorem firstRefused_succ
    (granted : (s.supply V).firstRefused (data ++ pageDemand (s.tables d) v) = none) :
    (s.supply V).firstRefused (demand data (s.tables d) v (n + 1)) =
      (s'.supply V').firstRefused (demand data (s'.tables d) (v + 1) n) := by
  rw [demand, Supply.firstRefused_append, granted, first.supply, first.tables_eq]
  simp [demand]

theorem cons (rest : Grown link data d (v + 1) n s' V' s'' V'') :
    Grown link data d v (n + 1) s V s'' V'' := by
  constructor
  · exact (first.toEdited.mono fun v' => by omega).trans (rest.toEdited.mono fun v' => by omega)
  · rw [rest.supply, first.supply, first.tables_eq, Supply.after_after]
    simp [demand, Nat.add_assoc]
  · intro i
    rw [rest.tables, first.tables]
    constructor
    · rintro ((old | ⟨v', low, high, same⟩) | ⟨v', low, high, same⟩)
      · exact .inl old
      · exact .inr ⟨v', by omega, by omega, same⟩
      · exact .inr ⟨v', by omega, by omega, same⟩
    · rintro (old | ⟨v', low, high, same⟩)
      · exact .inl (.inl old)
      · by_cases here : v' = v
        · exact .inl (.inr ⟨v', by omega, by omega, same⟩)
        · exact .inr ⟨v', by omega, by omega, same⟩
  · intro d' v'
    rw [rest.present, first.present]
    grind
  · intro q
    rcases rest.roles q with same | ⟨isFree, new⟩
    · rw [same]
      rcases first.roles q with same' | ⟨isFree', table | ⟨v', low, high, user⟩⟩
      · exact .inl same'
      · exact .inr ⟨isFree', .inl table⟩
      · exact .inr ⟨isFree', .inr ⟨v', by omega, by omega, user⟩⟩
    · refine .inr ⟨first.extends.wasFree isFree, ?_⟩
      rcases new with table | ⟨v', low, high, user⟩
      · exact .inl table
      · exact .inr ⟨v', by omega, by omega, user⟩

end

theorem newTables (grown : Grown link data d v n s V s' V') (kernel : 2 ^ 19 ≤ v) :
    NewTables d V V' := by
  intro q
  rcases grown.roles q with same | ⟨isFree, table | ⟨v', low, high, user⟩⟩
  · exact .inl same
  · exact .inr ⟨isFree, table⟩
  · have below := (grown.models.of_user q d v' user).1
    omega

end Grown

theorem Entered.tables_iff {V' : View} (entered : Entered link d v p perm s V s' V') (i : Nat) :
    s'.tables d i = true ↔
      s.tables d i = true ∨ ∃ v', v ≤ v' ∧ v' < v + 1 ∧ v' / 1024 = i := by
  rw [entered.tables, Bool.or_eq_true, beq_iff_eq]
  apply or_congr_right
  constructor
  · rintro rfl
    exact ⟨v, by omega, by omega, rfl⟩
  · rintro ⟨v', low, high, rfl⟩
    rw [show v' = v by omega]

/-- Entering a page of the kernel. -/
theorem Entered.grown {V' : View} (entered : Entered link d v p perm s V s' V')
    (high : 2 ^ 19 ≤ v) : Grown link [] d v 1 s V s' V' := by
  constructor
  · exact entered.toEdited.mono fun v' => by omega
  · rw [entered.supply]
    simp [demand]
  · exact entered.tables_iff
  · intro d' v'
    rw [entered.present]
    grind
  · intro q
    rcases entered.roles q (.inr high) with same | ⟨isFree, table⟩
    · exact .inl same
    · exact .inr ⟨isFree, .inl ⟨_, table⟩⟩

/-- The loop of `mappages` in the kernel's half. -/
theorem mapLoop_spec {n fuel : Nat} (models : Models link s V) (isDirectory : V.role d = .directory)
    (kernel : 2 ^ 19 ≤ v) (high : v + n + 1 ≤ 2 ^ 20) (physical : p + n < 2 ^ 20)
    (small : perm < pgsize) (enough : n < fuel)
    (vacant : ∀ v', v ≤ v' → v' ≤ v + n → ¬ V.Present s d v') :
    Wp (mapLoop d ((v + n) * pgsize) perm fuel (v * pgsize) (p * pgsize)) (fun _ => False)
      (fun r s' =>
        ((s.supply V).firstRefused (demand [] (s.tables d) v (n + 1)) = none ∧ r = true ∧
          ∃ V', Grown link [] d v (n + 1) s V s' V' ∧ ∀ v', v ≤ v' → v' ≤ v + n →
            s'.entry d v' = (p + (v' - v)) * pgsize ||| (perm ||| pteP)) ∨
        ((s.supply V).firstRefused (demand [] (s.tables d) v (n + 1)) = some .kernelTable ∧
          r = false ∧ ∃ V', Edited link d (fun v' => v ≤ v' ∧ v' < v + (n + 1)) s V s' V' ∧
          NewTables d V V')) s := by
  induction fuel generalizing v p n s V with
  | zero => omega
  | succ fuel ih =>
    rw [mapLoop]
    apply (mapPage_spec models isDirectory (by omega) (by omega) small).bind
    · rintro _ ⟨-, present⟩
      exact vacant v (Nat.le_refl v) (by omega) present
    rintro _ s₁ (⟨request, rfl, refused⟩ | ⟨granted, rfl, V₁, entered⟩)
    · refine .inr ⟨?_, rfl, V, refused.edited, NewTables.refl⟩
      rw [tableRequest_kernel kernel] at request
      rw [demand, List.nil_append, Supply.firstRefused_append, request]
      rfl
    · have first := entered.grown kernel
      rw [if_pos rfl, first.firstRefused_succ granted]
      cases n with
      | zero =>
        rw [Nat.add_zero, if_pos rfl]
        refine .inl ⟨rfl, rfl, V₁, first, fun v' after before => ?_⟩
        rw [show v' = v by omega, entered.word, Nat.sub_self, Nat.add_zero]
      | succ n =>
        have notLast : v * pgsize ≠ (v + (n + 1)) * pgsize := by
          unfold pgsize
          omega
        have nextPage : (v * pgsize + pgsize) % 2 ^ 32 = (v + 1) * pgsize := by
          unfold pgsize
          omega
        have nextFrame : (p * pgsize + pgsize) % 2 ^ 32 = (p + 1) * pgsize := by
          unfold pgsize
          omega
        rw [if_neg notLast, nextPage, nextFrame, show v + (n + 1) = v + 1 + n by omega]
        have vacant₁ : ∀ v', v + 1 ≤ v' → v' ≤ v + 1 + n → ¬ V₁.Present s₁ d v' := by
          intro v' low high' present
          rcases (first.present d v').mp present with old | ⟨-, here⟩
          · exact vacant v' (by omega) (by omega) old
          · omega
        apply (ih first.models (first.extends.directory isDirectory) (by omega) (by omega)
          (by omega) (by omega) vacant₁).imp
        rintro r s' (⟨granted', rfl, V', rest, words⟩ | ⟨refused, rfl, V', edited, added⟩)
        · refine .inl ⟨granted', rfl, V', first.cons rest, fun v' after before => ?_⟩
          by_cases here : v' = v
          · rw [rest.entry v' (by omega) (by omega), here, entered.word, Nat.sub_self,
              Nat.add_zero]
          · rw [words v' (by omega) (by omega),
              show p + 1 + (v' - (v + 1)) = p + (v' - v) by omega]
        · refine .inr ⟨refused, rfl, V', ?_, (first.newTables kernel).trans added⟩
          exact (first.toEdited.mono fun v' => by omega).trans
            (edited.mono fun v' => by omega)

/-! ## The kernel's half -/

/-- The first page of a range of `kmap`. -/
def Kmap.first (k : Kmap) : Nat :=
  k.virt / pgsize

/-- The number of its pages. -/
def Kmap.count (k : Kmap) : Nat :=
  (k.physEnd + 2 ^ 32 - k.physStart) % 2 ^ 32 / pgsize

/-- Page `v` is in the range. -/
def Kmap.Covers (k : Kmap) (v : Nat) : Prop :=
  k.first ≤ v ∧ v < k.first + k.count

/-- The entry of page `v` in the range. -/
def Kmap.entry (k : Kmap) (v : Nat) : Nat :=
  (k.physStart + (v - k.first) * pgsize) ||| (k.perm ||| pteP)

/-- A range of whole pages in the kernel's half. -/
structure Kmap.Fits (k : Kmap) : Prop where
  virt : k.virt = k.first * pgsize
  size : (k.physEnd + 2 ^ 32 - k.physStart) % 2 ^ 32 = k.count * pgsize
  phys : ∃ p, k.physStart = p * pgsize
  physical : k.physStart + k.count * pgsize ≤ 2 ^ 32
  positive : 0 < k.count
  kernel : 2 ^ 19 ≤ k.first
  high : k.first + k.count ≤ 2 ^ 20
  perm : k.perm < pgsize

/-- The tables that the ranges ask for. -/
def kernelDemand (has : Nat → Bool) : List Kmap → List Request
  | [] => []
  | k :: rest =>
    demand [] has k.first k.count ++
      kernelDemand (fun i => has i || (k.first / 1024 ≤ i && i * 1024 < k.first + k.count)) rest

/-- A page that every directory maps. -/
def KernelPage (v : Nat) : Prop :=
  2 ^ 19 ≤ v ∧ (v < 2 ^ 19 + 0xE000 ∨ 0xFE000 ≤ v ∧ v < 2 ^ 20)

theorem Link.exists_data (link : Link) : ∃ n, link.data = n * 4096 ∧ 256 < n ∧ n < 0xE000 := by
  have aligned := link.aligned
  have text := link.text
  have below := link.below
  unfold pgsize at aligned
  unfold extmem at text
  unfold phystop at below
  exact ⟨link.data / 4096, by omega, by omega, by omega⟩

theorem Kmap.fits (v p n perm physEnd : Nat) (positive : 0 < n) (kernel : 2 ^ 19 ≤ v)
    (high : v + n ≤ 2 ^ 20) (physical : p + n ≤ 2 ^ 20) (small : perm < 4096)
    (size : (physEnd + 2 ^ 32 - p * 4096) % 2 ^ 32 = n * 4096) :
    Kmap.Fits ⟨v * 4096, p * 4096, physEnd, perm⟩ ∧
      ∀ v', Kmap.Covers ⟨v * 4096, p * 4096, physEnd, perm⟩ v' ↔ v ≤ v' ∧ v' < v + n := by
  have first : v * 4096 / 4096 = v := Nat.mul_div_cancel v (by decide)
  have count : (physEnd + 2 ^ 32 - p * 4096) % 2 ^ 32 / 4096 = n := by
    rw [size, Nat.mul_div_cancel n (by decide)]
  refine ⟨⟨?_, ?_, ⟨p, rfl⟩, ?_, ?_, ?_, ?_, small⟩, ?_⟩
  all_goals simp only [Kmap.Covers, Kmap.first, Kmap.count, pgsize, first, count, implies_true]
  · exact size
  · omega
  · exact positive
  · exact kernel
  · exact high

/-- The ranges of `kmap` in pages. -/
theorem Link.kmap_eq (link : Link) : ∃ n, 256 < n ∧ n < 0xE000 ∧
    link.kmap = [⟨0x80000 * 4096, 0 * 4096, 0x100000, 2⟩,
      ⟨0x80100 * 4096, 256 * 4096, n * 4096, 0⟩,
      ⟨(0x80000 + n) * 4096, n * 4096, 0xE000000, 2⟩,
      ⟨0xFE000 * 4096, 0xFE000 * 4096, 0, 2⟩] := by
  obtain ⟨n, data, low, high⟩ := link.exists_data
  refine ⟨n, low, high, ?_⟩
  simp only [Link.kmap, kernbase, kernlink, extmem, phystop, devspace, pteW, data,
    Nat.add_mul]

/-- The ranges are disjoint and make up the kernel's pages. -/
theorem Link.kmap_ranges (link : Link) :
    (∀ k ∈ link.kmap, k.Fits) ∧ (∀ v, (∃ k ∈ link.kmap, k.Covers v) ↔ KernelPage v) ∧
      link.kmap.Pairwise fun k k' => ∀ v, k.Covers v → ¬ k'.Covers v := by
  obtain ⟨n, low, high, kmap⟩ := link.kmap_eq
  have first := Kmap.fits 0x80000 0 256 2 0x100000
    (by omega) (by omega) (by omega) (by omega) (by omega) (by omega)
  have second := Kmap.fits 0x80100 256 (n - 256) 0 (n * 4096)
    (by omega) (by omega) (by omega) (by omega) (by omega) (by omega)
  have third := Kmap.fits (0x80000 + n) n (0xE000 - n) 2 0xE000000
    (by omega) (by omega) (by omega) (by omega) (by omega) (by omega)
  have fourth := Kmap.fits 0xFE000 0xFE000 0x2000 2 0
    (by omega) (by omega) (by omega) (by omega) (by omega) (by omega)
  rw [kmap]
  refine ⟨?_, ?_, ?_⟩
  · simp only [List.forall_mem_cons, List.not_mem_nil, false_imp_iff, implies_true, and_true]
    exact ⟨first.1, second.1, third.1, fourth.1⟩
  · intro v
    simp only [List.exists_mem_cons_iff, first.2, second.2, third.2, fourth.2, List.not_mem_nil,
      false_and, exists_false, or_false, KernelPage]
    omega
  · simp only [List.pairwise_cons, List.forall_mem_cons, first.2, second.2, third.2, fourth.2,
      List.not_mem_nil, false_imp_iff, implies_true, List.Pairwise.nil, and_true]
    refine ⟨⟨?_, ?_, ?_⟩, ⟨?_, ?_⟩, ?_⟩ <;> intro v <;> omega

/-- The ranges have been entered into a directory. -/
structure KernelMapped (link : Link) (d : Nat) (ranges : List Kmap) (s : Machine) (V : View)
    (s' : Machine) (V' : View) : Prop
    extends Edited link d (fun v => ∃ k ∈ ranges, k.Covers v) s V s' V' where
  words : ∀ k ∈ ranges, ∀ v, k.Covers v → s'.entry d v = k.entry v
  supply : s'.supply V' = (s.supply V).after (kernelDemand (s.tables d) ranges).length
  tables : ∀ i, s'.tables d i = true ↔
    s.tables d i = true ∨ ∃ k ∈ ranges, ∃ v, k.Covers v ∧ v / 1024 = i
  present : ∀ d' v, V'.Present s' d' v ↔ V.Present s d' v ∨ d' = d ∧ ∃ k ∈ ranges, k.Covers v
  added : NewTables d V V'

theorem KernelMapped.cons {k : Kmap} {V' V'' : View} {s'' : Machine}
    (rest : KernelMapped link d ranges s' V' s'' V'')
    (first : Grown link [] d k.first k.count s V s' V') (fits : k.Fits)
    (word : ∀ v, k.Covers v → s'.entry d v = k.entry v)
    (apart : ∀ k' ∈ ranges, ∀ v, k.Covers v → ¬ k'.Covers v)
    (has : s'.tables d = fun i => s.tables d i ||
      (k.first / 1024 ≤ i && i * 1024 < k.first + k.count)) :
    KernelMapped link d (k :: ranges) s V s'' V'' := by
  constructor
  · exact (first.toEdited.mono fun v here => ⟨k, List.mem_cons_self, here⟩).trans
      (rest.toEdited.mono fun v => Exists.imp fun k' => And.imp_left (List.mem_cons_of_mem k))
  · rw [List.forall_mem_cons]
    refine ⟨fun v covers => ?_, rest.words⟩
    have high := fits.high
    have below := covers.2
    rw [rest.entry v (by omega), word v covers]
    rintro ⟨k', member, here⟩
    exact apart k' member v covers here
  · rw [rest.supply, first.supply, has, Supply.after_after, kernelDemand, List.length_append]
  · intro i
    rw [rest.tables, first.tables, List.exists_mem_cons_iff, or_assoc]
    simp only [Kmap.Covers, and_assoc]
  · intro d' v
    rw [rest.present, first.present, List.exists_mem_cons_iff, and_or_left, or_assoc]
    rfl
  · exact (first.newTables fits.kernel).trans rest.added

theorem mappages_kernel_spec {k : Kmap} (models : Models link s V)
    (isDirectory : V.role d = .directory) (fits : k.Fits)
    (vacant : ∀ v, k.Covers v → ¬ V.Present s d v) :
    Wp (mappages d k.virt ((k.physEnd + 2 ^ 32 - k.physStart) % 2 ^ 32) k.physStart k.perm)
      (fun _ => False)
      (fun r s' =>
        ((s.supply V).firstRefused (demand [] (s.tables d) k.first k.count) = none ∧ r = true ∧
          ∃ V', Grown link [] d k.first k.count s V s' V' ∧
            ∀ v, k.Covers v → s'.entry d v = k.entry v) ∨
        ((s.supply V).firstRefused (demand [] (s.tables d) k.first k.count) =
            some .kernelTable ∧
          r = false ∧ ∃ V', Edited link d k.Covers s V s' V' ∧ NewTables d V V')) s := by
  obtain ⟨p, phys⟩ := fits.phys
  obtain ⟨n, count⟩ := Nat.exists_eq_succ_of_ne_zero fits.positive.ne'
  have high := fits.high
  have physical := fits.physical
  have isEntry (v : Nat) : k.entry v = (p + (v - k.first)) * pgsize ||| (k.perm ||| pteP) := by
    rw [Kmap.entry, phys, Nat.add_mul]
  have covers : k.Covers = fun v => k.first ≤ v ∧ v < k.first + (n + 1) := by
    funext v
    rw [Kmap.Covers, count]
  simp only [isEntry, covers] at vacant ⊢
  rw [fits.size, fits.virt, phys, mappages]
  rw [count] at high physical ⊢
  have last : pgrounddown ((k.first * pgsize + (n + 1) * pgsize - 1) % 2 ^ 32) =
      (k.first + n) * pgsize := by
    unfold pgrounddown pgsize
    omega
  have start : pgrounddown (k.first * pgsize) = k.first * pgsize := by
    unfold pgrounddown pgsize
    omega
  rw [last, start]
  apply (mapLoop_spec models isDirectory fits.kernel (by omega) ?_ fits.perm ?_ ?_).imp
  · rintro r s' (⟨granted, rfl, V', grown, words⟩ | refused)
    · exact .inl ⟨granted, rfl, V', grown, fun v here => words v here.1 (by omega)⟩
    · exact .inr refused
  · rw [phys] at physical
    unfold pgsize at physical
    omega
  · unfold rounds
    omega
  · intro v low high'
    apply vacant
    exact ⟨low, by omega⟩

theorem mapKernel_spec (models : Models link s V) (isDirectory : V.role d = .directory)
    (fits : ∀ k ∈ ranges, k.Fits)
    (apart : ranges.Pairwise fun k k' => ∀ v, k.Covers v → ¬ k'.Covers v)
    (vacant : ∀ k ∈ ranges, ∀ v, k.Covers v → ¬ V.Present s d v) :
    Wp (mapKernel d ranges) (fun _ => False)
      (fun r s' =>
        ((s.supply V).firstRefused (kernelDemand (s.tables d) ranges) = none ∧ r = true ∧
          ∃ V', KernelMapped link d ranges s V s' V') ∨
        ((s.supply V).firstRefused (kernelDemand (s.tables d) ranges) = some .kernelTable ∧
          r = false ∧ ∃ V', Edited link d (fun v => ∃ k ∈ ranges, k.Covers v) s V s' V' ∧
            NewTables d V V')) s := by
  induction ranges generalizing s V with
  | nil =>
    refine .inl ⟨rfl, rfl, V, .refl models, ?_, rfl, ?_, ?_, NewTables.refl⟩
    · simp
    · simp
    · simp
  | cons k ranges ih =>
    rw [List.forall_mem_cons] at fits vacant
    rw [List.pairwise_cons] at apart
    rw [mapKernel]
    apply (mappages_kernel_spec models isDirectory fits.1 vacant.1).seq
    have here : ∀ v, k.Covers v → ∃ k' ∈ k :: ranges, k'.Covers v :=
      fun v covers => ⟨k, List.mem_cons_self, covers⟩
    rintro _ s₁ (⟨granted, rfl, V₁, grown, word⟩ | ⟨refused, rfl, V₁, edited, added⟩)
    · rw [if_pos rfl]
      have has : s₁.tables d = fun i => s.tables d i ||
          (k.first / 1024 ≤ i && i * 1024 < k.first + k.count) := by
        funext i
        rw [Bool.eq_iff_iff, grown.tables i]
        simp only [Bool.or_eq_true, Bool.and_eq_true, decide_eq_true_eq]
        apply or_congr_right
        have positive := fits.1.positive
        constructor
        · rintro ⟨v, low, high, rfl⟩
          omega
        · rintro ⟨low, high⟩
          exact ⟨max k.first (i * 1024), by omega, by omega, by omega⟩
      have demands : (s.supply V).firstRefused (kernelDemand (s.tables d) (k :: ranges)) =
          (s₁.supply V₁).firstRefused (kernelDemand (s₁.tables d) ranges) := by
        rw [kernelDemand, Supply.firstRefused_append, granted, grown.supply, has]
        rfl
      rw [demands]
      apply (ih grown.models (grown.extends.directory isDirectory) fits.2 apart.2
        ?_).imp
      · rintro r s' (⟨granted', rfl, V', mapped⟩ | ⟨refused, rfl, V', edited, added⟩)
        · exact .inl ⟨granted', rfl, V', mapped.cons grown fits.1 word apart.1 has⟩
        · refine .inr ⟨refused, rfl, V', ?_, (grown.newTables fits.1.kernel).trans added⟩
          exact (grown.toEdited.mono here).trans
            (edited.mono fun v => Exists.imp fun k' => And.imp_left (List.mem_cons_of_mem k))
      · intro k' member v covers present
        rcases (grown.present d v).mp present with old | ⟨-, here⟩
        · exact vacant.2 k' member v covers old
        · exact apart.1 k' member v here covers
    · refine .inr ⟨?_, rfl, V₁, edited.mono here, added⟩
      rw [kernelDemand, Supply.firstRefused_append, refused]
      rfl

end Xv6.Vm
