import Xv6.Vm.Paging

/-!
# Freeing user memory

The specifications of `deallocuvm` and `freevm`.  `deallocuvm` skips a whole table when
it finds none, from the page where it stands; it frees all pages of a range if it
starts at the first page of a table or at a table that exists.
-/

namespace Xv6.Vm

open Stateful Function

variable {link : Link} {s s' : Machine} {V V' : View} {d i j t p q v w n : Nat}

/-! ## `deallocuvm` -/

theorem Link.firstPage_pos (link : Link) : 0 < link.firstPage := by
  have text := link.text
  have below := link.data_le
  unfold extmem at text
  unfold Link.firstPage pgsize
  omega

theorem kfree_spec (models : Models link s V) (idle : V.role p = .held ∨ V.role p = .outside)
    (low : link.firstPage ≤ p) (high : p < phystop / pgsize) :
    Wp (link.kfree p) (fun _ => False) (fun _ s' => Models link s' (V.give p) ∧
      s'.loads = s.loads ∧ ∀ q ≠ p, s'.mem q = s.mem q) s := by
  have inside : ¬ (p < link.firstPage ∨ phystop / pgsize ≤ p) := by omega
  unfold Link.kfree
  rw [if_neg inside]
  refine ⟨?_, rfl, ?_⟩
  · exact models.give idle low high _ (update_self _ _ _)
  · intro q different
    exact update_of_ne different _ _

/-- The number of pages of a size. -/
def pages (sz : Nat) : Nat :=
  (sz + pgsize - 1) / pgsize

variable {sz fuel oldsz : Nat} {has : Nat → Bool}

theorem pgroundup_eq (low : sz ≤ kernbase) : pgroundup sz = pages sz * pgsize := by
  unfold kernbase at low
  unfold pgroundup pages pgsize
  rw [Nat.mod_eq_of_lt (by omega)]

theorem lt_pages_iff : v < pages sz ↔ v * pgsize < sz := by
  unfold pages pgsize
  omega

theorem pages_mono {sz' : Nat} (smaller : sz ≤ sz') : pages sz ≤ pages sz' := by
  unfold pages pgsize
  omega

theorem pages_le (low : sz ≤ kernbase) : pages sz ≤ 2 ^ 19 := by
  unfold kernbase at low
  unfold pages pgsize
  omega

theorem setWord_kfree (different : t ≠ p) (words : Nat → Nat) (list : Option Nat) :
    ({ s.setPage p words with freelist := list } : Machine).setWord t j w =
      { (s.setWord t j w).setPage p words with freelist := list } := by
  simp only [Machine.setWord, Machine.setPage, update_of_ne different]
  rw [update_comm different]

/-- The user pages of a list have been freed, if they were there. -/
structure Cleared (link : Link) (d : Nat) (list : List Nat) (s : Machine) (V : View) (s' : Machine)
    (V' : View) : Prop extends Edited link d (· ∈ list) s V s' V' where
  root : s'.mem d = s.mem d
  word : ∀ v ∈ list, s'.entry d v = if isPresent (s.entry d v) then 0 else s.entry d v
  roles : ∀ q, V'.role q = V.role q ∨ (∃ v ∈ list, V.role q = .user d v) ∧ V'.role q = .free

namespace Cleared

variable {list : List Nat} {s₁ : Machine} {V₁ : View}

theorem refl (models : Models link s V) : Cleared link d [] s V s V := by
  refine ⟨.refl models, rfl, fun v member => ?_, fun _ => .inl rfl⟩
  cases member

theorem isDirectory (cleared : Cleared link d list s V s' V') (old : V.role q = .directory) :
    V'.role q = .directory := by
  rcases cleared.roles q with same | ⟨⟨v', -, user⟩, -⟩
  · rw [same, old]
  · rw [old] at user
    contradiction

theorem not_present (cleared : Cleared link d list s V s' V') (member : v ∈ list) :
    isPresent (s'.entry d v) = false := by
  rw [cleared.word v member]
  split
  · rfl
  · rename_i absent
    simpa using absent

theorem cons (first : Cleared link d [v] s V s₁ V₁) (rest : Cleared link d list s₁ V₁ s' V')
    (fresh : v ∉ list) (below : ∀ w ∈ v :: list, w < 2 ^ 20) :
    Cleared link d (v :: list) s V s' V' := by
  rw [List.forall_mem_cons] at below
  have same : ∀ w ∈ list, s₁.entry d w = s.entry d w := by
    intro w member
    refine first.entry w (below.2 w member) fun here => fresh ?_
    rw [← List.mem_singleton.mp here]
    exact member
  constructor
  · exact (first.toEdited.mono fun w => by simp +contextual).trans
      (rest.toEdited.mono fun w => by simp +contextual)
  · exact rest.root.trans first.root
  · intro w member
    rcases List.mem_cons.mp member with rfl | later
    · rw [rest.entry w below.1 fresh, first.word w List.mem_cons_self]
    · rw [rest.word w later, same w later]
  · intro q
    rcases rest.roles q with same | ⟨⟨w, member, user⟩, isFree⟩
    · rw [same]
      rcases first.roles q with same₁ | ⟨⟨w, member, user⟩, isFree⟩
      · exact .inl same₁
      · exact .inr ⟨⟨w, by simp_all, user⟩, isFree⟩
    · rcases first.roles q with same₁ | ⟨-, isFree₁⟩
      · rw [same₁] at user
        exact .inr ⟨⟨w, List.mem_cons_of_mem v member, user⟩, isFree⟩
      · rw [isFree₁] at user
        contradiction

end Cleared

/-- The body of the loop of `deallocuvm`. -/
theorem clearPte_spec (models : Models link s V) (table : V.role t = .table d (v / 1024))
    (low : v < 2 ^ 19) :
    Wp (link.clearPte t (v % 1024)) (fun _ => False)
      (fun _ s' => ∃ V', Cleared link d [v] s V s' V') s := by
  have isEntry := models.entry_table table
  unfold Link.clearPte
  simp only [wp_bind, wp_get]
  rw [← isEntry]
  split
  · rename_i present
    obtain ⟨isDirectory, -⟩ := models.of_table t d _ table
    have user := models.role_entry isDirectory low present
    obtain ⟨inside, top⟩ := models.managed _ (show V.role (target (s.entry d v)) ≠ .outside
      by simp [user])
    have positive := link.firstPage_pos
    have nonzero : pteAddr (s.entry d v) ≠ 0 := by
      intro zero
      rw [target, zero, Nat.zero_div] at inside
      omega
    rw [if_neg nonzero]
    generalize target (s.entry d v) = p at user inside top ⊢
    have notTable : t ≠ p := by
      rintro rfl
      rw [table] at user
      contradiction
    have notRoot : d ≠ p := by
      rintro rfl
      rw [isDirectory] at user
      contradiction
    have unmapped := models.unmapUser user table
    have cleared := unmapped.give (.inl View.set_role_self) inside top
      (update (fun _ => 0x01010101) 0 (Machine.address s.freelist))
      (update_self _ _ _)
    have roles : ∀ q ≠ p, ((V.set p .held).give p).role q = V.role q := by
      intro q other
      rw [View.give_role_of_ne other, View.set_role_of_ne other]
    have outside : ¬ (p < link.firstPage ∨ phystop / pgsize ≤ p) := by omega
    unfold Link.kfree
    rw [if_neg outside]
    simp only [wp_bind, wp_modify]
    rw [setWord_kfree notTable]
    generalize isNew : ({ (s.setWord t (v % 1024) 0).setPage p _
      with freelist := some p } : Machine)
      = new at cleared ⊢
    have mem : ∀ q ≠ p, new.mem q = (s.setWord t (v % 1024) 0).mem q := by
      intro q other
      rw [← isNew]
      exact update_of_ne other _ _
    have root : new.mem d = s.mem d := by
      rw [mem d notRoot, Models.mem_setWord_of_ne (models.table_ne table)]
    have entry : ∀ w < 2 ^ 20, new.entry d w = if w = v then 0 else s.entry d w := by
      intro w high
      rw [← models.entry_setWord table high]
      apply unmapped.entry_congr _ (mem d notRoot) _ high
      · rw [View.set_role_of_ne notRoot, isDirectory]
      · intro q i isTable
        apply mem
        rintro rfl
        rw [View.set_role_self] at isTable
        contradiction
    refine ⟨_, ⟨cleared, by rw [← isNew]; rfl, ?_, ?_⟩, root, ?_, ?_⟩
    · intro q _ kept
      have notPage : q ≠ p := by
        rintro rfl
        simp [user, Role.Kept] at kept
      refine ⟨roles q notPage, (mem q notPage).trans (Models.mem_setWord_of_ne ?_)⟩
      rintro rfl
      simp [table, Role.Kept] at kept
    · intro w high other
      rw [entry w high, if_neg (by simpa using other)]
    · intro w member
      obtain rfl := List.mem_singleton.mp member
      rw [entry w (by omega), if_pos rfl, if_pos present]
    · intro q
      by_cases same : q = p
      · rw [same]
        exact .inr ⟨⟨v, List.mem_cons_self, user⟩, View.give_role_self⟩
      · exact .inl (roles q same)
  · rename_i absent
    refine ⟨V, .refl models, rfl, fun w member => ?_, fun _ => .inl rfl⟩
    obtain rfl := List.mem_singleton.mp member
    rw [if_neg absent]

/-- The pages at which the loop of `deallocuvm` looks, from page `v` on, when `has` says which
tables there are. -/
def visits (has : Nat → Bool) (stop : Nat) : Nat → Nat → List Nat
  | 0, _ => []
  | fuel + 1, v =>
    if v < stop then
      if has (v / 1024) then v :: visits has stop fuel (v + 1)
      else visits has stop fuel (v + 1024)
    else []

/-- The loop skips a page if it has found no table since page `v`, and the page is less far
into its table than `v`. -/
def Skipped (has : Nat → Bool) (v w : Nat) : Prop :=
  w % 1024 < v % 1024 ∧ ∀ i, v / 1024 ≤ i → i < w / 1024 → has i = false

theorem mem_visits_of {stop : Nat} (member : w ∈ visits has stop fuel v) : v ≤ w ∧ w < stop := by
  induction fuel generalizing v with
  | zero => cases member
  | succ fuel ih =>
    rw [visits] at member
    split at member
    · split at member
      · rcases List.mem_cons.mp member with rfl | later
        · exact ⟨Nat.le_refl w, by assumption⟩
        · have bounds := ih later
          omega
      · have bounds := ih member
        omega
    · cases member

/-- The loop looks at all pages that have a table, but for those that it skips. -/
theorem mem_visits {stop : Nat} (enough : stop ≤ v + fuel) :
    w ∈ visits has stop fuel v ↔
      v ≤ w ∧ w < stop ∧ has (w / 1024) = true ∧ ¬ Skipped has v w := by
  induction fuel generalizing v with
  | zero =>
    refine iff_of_false (by simp [visits]) ?_
    omega
  | succ fuel ih =>
    rw [visits]
    split
    · split
      · rename_i has'
        rw [List.mem_cons, ih (by omega)]
        constructor
        · rintro (rfl | ⟨after, before, table, visited⟩)
          · exact ⟨Nat.le_refl w, by assumption, has', fun skipped => by
              exact absurd skipped.1 (Nat.lt_irrefl _)⟩
          · refine ⟨by omega, before, table, fun skipped => ?_⟩
            have inside : ¬ v / 1024 < w / 1024 := by
              intro later
              rw [skipped.2 _ (Nat.le_refl _) later] at has'
              cases has'
            have := skipped.1
            omega
        · rintro ⟨after, before, table, visited⟩
          by_cases here : w = v
          · exact .inl here
          · refine .inr ⟨by omega, before, table, fun skipped => visited ⟨?_, fun i low high => ?_⟩⟩
            · have := skipped.1
              by_cases first : (v + 1) / 1024 = v / 1024
              · by_cases later : v / 1024 < w / 1024
                · rw [skipped.2 _ (Nat.le_of_eq first) later] at has'
                  cases has'
                · omega
              · omega
            · have := skipped.1
              by_cases first : (v + 1) / 1024 = v / 1024
              · exact skipped.2 i (by omega) high
              · omega
      · rename_i absent
        rw [ih (by omega)]
        have step : (v + 1024) / 1024 = v / 1024 + 1 ∧ (v + 1024) % 1024 = v % 1024 := by omega
        unfold Skipped
        rw [step.1, step.2]
        constructor
        · rintro ⟨after, before, table, visited⟩
          refine ⟨by omega, before, table, fun skipped => visited ⟨skipped.1, fun i low high => ?_⟩⟩
          exact skipped.2 i (by omega) high
        · rintro ⟨after, before, table, visited⟩
          have other : w / 1024 ≠ v / 1024 := by
            intro same
            rw [same] at table
            exact absent table
          have absent : has (v / 1024) = false := by simpa using absent
          refine ⟨?_, before, table, fun skipped => visited ⟨skipped.1, fun i low high => ?_⟩⟩
          · by_contra early
            refine visited ⟨by omega, fun i low high => ?_⟩
            rw [show i = v / 1024 by omega, absent]
          · by_cases first : i = v / 1024
            · rw [first, absent]
            · exact skipped.2 i (by omega) high
    · refine iff_of_false (by simp) ?_
      omega

variable (models : Models link s V)
include models

/-- The loop of `deallocuvm` frees the pages at which it looks. -/
theorem deallocLoop_spec (isDirectory : V.role d = .directory) (low : oldsz ≤ kernbase) :
    Wp (link.deallocLoop d oldsz fuel (v * pgsize)) (fun _ => False) (fun _ s' =>
      ∃ V', Cleared link d (visits (s.tables d) (pages oldsz) fuel v) s V s' V') s := by
  have top := pages_le low
  induction fuel generalizing v s V with
  | zero => exact ⟨V, .refl models⟩
  | succ fuel ih =>
    rw [Link.deallocLoop, visits]
    split
    · rename_i inside
      rw [← lt_pages_iff] at inside
      rw [if_pos inside]
      apply (walkpgdir_spec models isDirectory).seq
      rw [pdx_page (by omega), ptx_page]
      rintro (_ | ⟨t, j⟩) s₁ ⟨rfl, found⟩
      · have skip : (v * pgsize + 1023 * pgsize + pgsize) % 2 ^ 32 = (v + 1024) * pgsize := by
          unfold pgsize
          omega
        have absent : ¬ s₁.tables d (v / 1024) = true := by
          rw [Machine.tables, found]
          simp
        rw [skip, if_neg absent]
        exact ih models isDirectory
      · obtain ⟨table, rfl⟩ := found
        have next : (v * pgsize + pgsize) % 2 ^ 32 = (v + 1) * pgsize := by
          unfold pgsize
          omega
        have has : s₁.tables d (v / 1024) = true := (models.of_table t d _ table).2.2.1
        rw [next, if_pos has]
        apply (clearPte_spec models table (by omega)).seq
        rintro _ s₂ ⟨V₂, first⟩
        have tables : s₂.tables d = s₁.tables d := by
          funext i
          rw [Machine.tables, first.root]
          rfl
        apply (ih first.models (first.isDirectory isDirectory)).imp
        rintro _ s' ⟨V', rest⟩
        rw [tables] at rest
        refine ⟨V', first.cons rest (fun member => ?_) (fun w member => ?_)⟩
        · have bounds := mem_visits_of member
          omega
        · rcases List.mem_cons.mp member with rfl | later
          · omega
          · have bounds := mem_visits_of later
            omega
    · rename_i done
      rw [← lt_pages_iff] at done
      rw [if_neg done]
      exact ⟨V, .refl models⟩

/-- `deallocuvm` frees the pages at which it looks. -/
theorem deallocuvm_clears {newsz : Nat} (isDirectory : V.role d = .directory)
    (low : oldsz ≤ kernbase) :
    Wp (link.deallocuvm d oldsz newsz) (fun _ => False) (fun r s' => r = min oldsz newsz ∧
      ∃ V', Cleared link d (visits (s.tables d) (pages oldsz) rounds (pages newsz)) s V s' V')
      s := by
  unfold Link.deallocuvm
  split
  · rename_i larger
    have done : visits (s.tables d) (pages oldsz) rounds (pages newsz) = [] :=
      if_neg (Nat.not_lt.mpr (pages_mono larger))
    rw [done]
    exact ⟨(min_eq_left larger).symm, V, .refl models⟩
  · rename_i smaller
    simp only [wp_bind, pgroundup_eq (show newsz ≤ kernbase by omega)]
    apply (deallocLoop_spec models isDirectory low).imp
    exact fun _ s' cleared => ⟨(min_eq_right (by omega)).symm, cleared⟩

/-- User pages of a directory, from page `v` to the address `hi`, have been freed. -/
def Freed (d v hi : Nat) (V V' : View) : Prop :=
  ∀ q, V'.role q = V.role q ∨
    (∃ v', v ≤ v' ∧ v' * pgsize < hi ∧ V.role q = .user d v') ∧ V'.role q = .free

omit models in
theorem Freed.not_mapped {hi d' v' : Nat} (freed : Freed d v hi V V')
    (unmapped : ¬ V.Mapped d' v') : ¬ V'.Mapped d' v' := by
  rintro ⟨q, user⟩
  rcases freed q with same | ⟨-, isFree⟩
  · rw [same] at user
    exact unmapped ⟨q, user⟩
  · rw [isFree] at user
    contradiction

omit models in
theorem Freed.isDirectory {hi : Nat} (freed : Freed d v hi V V') (old : V.role q = .directory) :
    V'.role q = .directory := by
  rcases freed q with same | ⟨⟨v', -, -, user⟩, -⟩
  · rw [same, old]
  · rw [old] at user
    contradiction

/-- `deallocuvm` frees user pages only.  It meets all of them when it starts at the first
page of a table or at a table that exists. -/
theorem deallocuvm_spec {newsz : Nat} (isDirectory : V.role d = .directory)
    (low : oldsz ≤ kernbase) :
    Wp (link.deallocuvm d oldsz newsz) (fun _ => False) (fun r s' =>
      r = min oldsz newsz ∧ ∃ V',
        Edited link d (fun v => pages newsz ≤ v ∧ v < pages oldsz) s V s' V' ∧
        Freed d (pages newsz) oldsz V V' ∧
        (pages newsz % 1024 = 0 ∨ s.tables d (pages newsz / 1024) = true →
          ∀ v, pages newsz ≤ v → v < pages oldsz → ¬ V'.Mapped d v)) s := by
  have top := pages_le low
  apply (deallocuvm_clears models isDirectory low).imp
  rintro r s' ⟨result, V', cleared⟩
  have bounds : ∀ v ∈ visits (s.tables d) (pages oldsz) rounds (pages newsz),
      pages newsz ≤ v ∧ v < pages oldsz := fun v => mem_visits_of
  refine ⟨result, V', cleared.toEdited.mono bounds, fun q => ?_, fun start v after before => ?_⟩
  · apply (cleared.roles q).imp_right
    rintro ⟨⟨v, member, user⟩, isFree⟩
    exact ⟨⟨v, (bounds v member).1, lt_pages_iff.mp (bounds v member).2, user⟩, isFree⟩
  · rintro ⟨q, user⟩
    have present := (cleared.models.entry_user user).1
    by_cases visited : v ∈ visits (s.tables d) (pages oldsz) rounds (pages newsz)
    · rw [cleared.not_present visited] at present
      contradiction
    · rw [cleared.entry v (by omega) visited] at present
      have enough : pages oldsz ≤ pages newsz + rounds := by
        unfold rounds
        omega
      rw [mem_visits enough] at visited
      refine visited ⟨after, before, ?_, fun skipped => ?_⟩
      · by_contra absent
        rw [Machine.tables] at absent
        rw [Machine.entry, if_neg absent] at present
        cases present
      · rcases start with aligned | has
        · have := skipped.1
          omega
        · have inside : ¬ pages newsz / 1024 < v / 1024 := by
            intro later
            rw [skipped.2 _ (Nat.le_refl _) later] at has
            cases has
          have := skipped.1
          omega

/-! ## `freevm` -/

theorem freeTables_spec {indices : List Nat} (nodup : indices.Nodup)
    (held : ∀ i ∈ indices, isPresent (s.mem d i) = true →
      V.role (target (s.mem d i)) = .held ∧ target (s.mem d i) ≠ d)
    (apart : ∀ i ∈ indices, ∀ i' ∈ indices, isPresent (s.mem d i) = true →
      isPresent (s.mem d i') = true → target (s.mem d i) = target (s.mem d i') → i = i') :
    Wp (link.freeTables d indices) (fun _ => False) (fun _ s' => ∃ V', Models link s' V' ∧
      s'.loads = s.loads ∧ ∀ q,
        (∃ i ∈ indices, isPresent (s.mem d i) = true ∧ target (s.mem d i) = q) ∧
          V'.role q = .free ∨
        (¬ ∃ i ∈ indices, isPresent (s.mem d i) = true ∧ target (s.mem d i) = q) ∧
          V'.role q = V.role q ∧ s'.mem q = s.mem q) s := by
  induction indices generalizing s V with
  | nil =>
    refine ⟨V, models, rfl, ?_⟩
    simp
  | cons i indices ih =>
    rw [List.nodup_cons] at nodup
    rw [List.forall_mem_cons] at held
    rw [Link.freeTables]
    simp only [wp_bind, wp_get]
    split
    · rename_i present
      obtain ⟨isHeld, notSelf⟩ := held.1 present
      obtain ⟨inside, top⟩ := models.managed _ (show V.role (target (s.mem d i)) ≠ .outside
        by simp [isHeld])
      apply (kfree_spec models (.inl isHeld) inside top).seq
      rintro _ s₁ ⟨models₁, loads₁, mem⟩
      have same : s₁.mem d = s.mem d := mem d notSelf.symm
      have others : ∀ i' ∈ indices, isPresent (s.mem d i') = true →
          target (s.mem d i') ≠ target (s.mem d i) := by
        intro i' member present' sameTarget
        have index := apart i' (List.mem_cons_of_mem i member) i List.mem_cons_self present'
          present sameTarget
        rw [index] at member
        exact nodup.1 member
      apply (ih models₁ nodup.2 ?_ ?_).imp
      · rintro _ s' ⟨V', models', loads, roles⟩
        refine ⟨V', models', loads.trans loads₁, ?_⟩
        intro q
        rw [List.exists_mem_cons_iff, ← same]
        rcases roles q with ⟨freed, isFree⟩ | ⟨kept, old, sameMem⟩
        · exact .inl ⟨.inr freed, isFree⟩
        · by_cases here : target (s.mem d i) = q
          · refine .inl ⟨.inl ⟨by rw [same]; exact present, by rw [same]; exact here⟩, ?_⟩
            rw [old, ← here, View.give_role_self]
          · refine .inr ⟨?_, ?_, ?_⟩
            · rintro (⟨-, first⟩ | later)
              · rw [same] at first
                exact here first
              · exact kept later
            · rw [old, View.give_role_of_ne (Ne.symm here)]
            · rw [sameMem, mem q (Ne.symm here)]
      · intro i' member present'
        rw [same] at present' ⊢
        have old := held.2 i' member present'
        refine ⟨?_, old.2⟩
        rw [View.give_role_of_ne (others i' member present')]
        exact old.1
      · intro i₁ member₁ i₂ member₂
        rw [same]
        exact apart i₁ (List.mem_cons_of_mem i member₁) i₂ (List.mem_cons_of_mem i member₂)
    · rename_i absent
      apply (ih models nodup.2 held.2 ?_).imp
      · rintro _ s' ⟨V', models', loads, roles⟩
        refine ⟨V', models', loads, ?_⟩
        intro q
        have notFirst : ¬ (isPresent (s.mem d i) = true ∧ target (s.mem d i) = q) :=
          fun both => absent both.1
        simp only [List.exists_mem_cons_iff, notFirst, false_or]
        exact roles q
      · intro i₁ member₁ i₂ member₂
        exact apart i₁ (List.mem_cons_of_mem i member₁) i₂ (List.mem_cons_of_mem i member₂)

/-- The roles after a directory has been freed with everything in it. -/
def View.erase (V : View) (d q : Nat) : Role :=
  if q = d ∨ (V.role q).owner = some d then .free else V.role q

/-- `freevm` frees the directory, its tables and its user pages. -/
theorem freevm_spec (isDirectory : V.role d = .directory) :
    Wp (link.freevm d) (fun _ => False) (fun _ s' => ∃ V',
      Edited link d (fun _ => True) s V s' V' ∧ ∀ q, V'.role q = V.erase d q) s := by
  unfold Link.freevm
  have nodup : (List.range 1024).Nodup := List.nodup_range
  have range : ∀ i, i ∈ List.range 1024 ↔ i < 1024 := fun i => List.mem_range
  -- the list of all indices must not be computed
  generalize List.range 1024 = indices at nodup range ⊢
  apply (deallocuvm_spec models isDirectory (Nat.le_refl kernbase)).seq
  rintro r s₁ ⟨-, V₁, edited, freed, all⟩
  have models₁ := edited.models
  have isDirectory₁ := freed.isDirectory isDirectory
  have unmapped : ∀ v, ¬ V₁.Mapped d v := by
    intro v mapped
    have low := (models₁.mapped_iff.mp mapped).1
    have start : pages 0 = 0 := by decide
    rw [start] at all
    refine all (.inl (Nat.zero_mod 1024)) v (Nat.zero_le v) ?_ mapped
    rw [lt_pages_iff]
    unfold pgsize kernbase
    omega
  have retired := models₁.retire isDirectory₁
  have entry : ∀ i ∈ indices, isPresent (s₁.mem d i) = true →
      V₁.role (target (s₁.mem d i)) = .table d i :=
    fun i member present => models₁.table_of d i isDirectory₁ ((range i).mp member) present
  apply (freeTables_spec retired nodup ?_ ?_).seq
  · rintro _ s₂ ⟨V₂, models₂, loads₂, roles⟩
    have self : V₂.role d = .held := by
      rcases roles d with ⟨⟨i, member, present, same⟩, -⟩ | ⟨-, same⟩
      · have table := entry i member present
        rw [same, isDirectory₁] at table
        contradiction
      · rw [same.1, View.retire_role_self]
    obtain ⟨inside, top⟩ := models₂.managed d (by simp [self])
    apply (kfree_spec models₂ (.inl self) inside top).imp
    rintro _ s₃ ⟨models₃, loads₃, mem₃⟩
    have erased : ∀ q, (V₂.give d).role q = V.erase d q := ?_
    · refine ⟨_, ⟨models₃, loads₃.trans (loads₂.trans edited.loads), fun q notRoot kept => ?_,
        fun v _ outside => absurd trivial outside⟩, erased⟩
      obtain ⟨role₁, mem₁⟩ := edited.spared q notRoot (kept.mono fun _ _ => trivial)
      have notOwned : (V.role q).owner ≠ some d := by
        intro owned
        cases role : V.role q with
        | table d' i =>
          rw [role] at owned kept
          exact kept (Option.some.inj owned)
        | user d' v =>
          rw [role] at owned kept
          exact kept (Option.some.inj owned) trivial
        | _ => simp [role, Role.owner] at owned
      refine ⟨?_, ?_⟩
      · rw [erased q, View.erase, if_neg (by simp [notRoot, notOwned])]
      · rw [mem₃ q notRoot, ← mem₁]
        rcases roles q with ⟨⟨i, member, present, isTarget⟩, -⟩ | ⟨-, -, same⟩
        · have table := entry i member present
          rw [isTarget, role₁] at table
          exact absurd (by rw [table]; rfl) notOwned
        · exact same
    intro q
    unfold View.erase
    by_cases same : q = d
    · rw [same, View.give_role_self, if_pos (.inl rfl)]
    · rw [View.give_role_of_ne same]
      have old : V₁.role q = V.role q ∨
          (∃ v, V.role q = .user d v) ∧ V₁.role q = .free := by
        rcases freed q with old | ⟨⟨v, -, -, user⟩, isFree⟩
        · exact .inl old
        · exact .inr ⟨⟨v, user⟩, isFree⟩
      by_cases owned : (V.role q).owner = some d
      · rw [if_pos (.inr owned)]
        rcases roles q with ⟨-, isFree⟩ | ⟨kept, same₂, -⟩
        · exact isFree
        · rw [same₂, View.retire_role_of_ne same, Role.without_eq_free]
          rcases old with old | ⟨-, isFree⟩
          · exfalso
            cases role : V.role q with
            | table d' i =>
              rw [role] at owned old
              cases owned
              obtain ⟨-, small, present, isTarget⟩ := models₁.of_table q d i old
              exact kept ⟨i, (range i).mpr small, present, isTarget⟩
            | user d' v =>
              rw [role] at owned old
              cases owned
              exact unmapped v ⟨q, old⟩
            | _ => simp [role, Role.owner] at owned
          · exact isFree
      · rw [if_neg (by simp [same, owned])]
        have notUser : ∀ v, V.role q ≠ .user d v := by
          intro v user
          exact owned (by rw [user]; rfl)
        have unchanged : V₁.role q = V.role q := by
          rcases old with old | ⟨⟨v, user⟩, -⟩
          · exact old
          · exact absurd user (notUser v)
        rcases roles q with ⟨⟨i, member, present, isTarget⟩, -⟩ | ⟨-, same₂⟩
        · have table := entry i member present
          rw [isTarget, unchanged] at table
          exact absurd (by rw [table]; rfl) owned
        · rw [same₂.1, View.retire_role_of_ne same, unchanged, Role.without_of_not_owner owned]
  · intro i member present
    have table := entry i member present
    have notSelf : target (s₁.mem d i) ≠ d := by
      intro same
      rw [same, isDirectory₁] at table
      contradiction
    refine ⟨?_, notSelf⟩
    rw [View.retire_role_of_ne notSelf, table]
    exact if_pos rfl
  · intro i member i' member' present present' same
    have table := entry i member present
    rw [same, entry i' member' present'] at table
    injection table with _ index
    exact index.symm

end Xv6.Vm
