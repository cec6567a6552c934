import Xv6.Vm.Copying
import Xv6.Vm.Freeing

/-!
# `copyout`

`copyout` writes the bytes that it is given, page by page, and stops at the first page that is
not there for the user.  `uva2ka` reads the entry of a page through the pointer that `walkpgdir`
returns, without a look at it: if there is no page table the pointer is null, and what follows
depends on the word at the address 0.
-/

namespace Xv6.Vm

open Stateful Function Machine

variable {link : Link} {s s' s₁ : Machine} {V : View} {d p q u v va w fuel nullWord : Nat}
  {bytes xs ys : List UInt8}

/-! ## Directories -/

/-- The page is there for the user. -/
def Machine.accessible (s : Machine) (d v : Nat) : Bool :=
  isPresent (s.entry d v) && isUser (s.entry d v)

theorem Machine.present_of_accessible (access : s.accessible d v = true) :
    isPresent (s.entry d v) = true := by
  unfold accessible at access
  simp_all

/-- The user's pages are in the memory and apart from each other and from the page tables. -/
structure Machine.Sane (s : Machine) (d : Nat) : Prop where
  distinct : ∀ v w, v < 2 ^ 20 → w < 2 ^ 20 → s.accessible d v = true → s.accessible d w = true →
    target (s.entry d v) = target (s.entry d w) → v = w
  memory : ∀ v < 2 ^ 20, s.accessible d v = true → target (s.entry d v) < phystop / pgsize
  notRoot : ∀ v < 2 ^ 20, s.accessible d v = true → target (s.entry d v) ≠ d
  notTable : ∀ v < 2 ^ 20, ∀ i < 1024, s.accessible d v = true → isPresent (s.mem d i) = true →
    target (s.mem d i) ≠ target (s.entry d v)

/-- The directories of the kernel are sane. -/
theorem Models.sane (models : Models link s V) (isDirectory : V.role d = .directory)
    (supervisor : ∀ v, 2 ^ 19 ≤ v → v < 2 ^ 20 → isUser (s.entry d v) = false) : s.Sane d := by
  have user : ∀ v < 2 ^ 20, s.accessible d v = true →
      V.role (target (s.entry d v)) = .user d v := by
    intro v high access
    have present := present_of_accessible access
    by_cases low : v < 2 ^ 19
    · exact models.role_entry isDirectory low present
    · simp [accessible, supervisor v (by omega) high] at access
  constructor
  · intro v w high high' access access' same
    have first := user v high access
    rw [same, user w high' access'] at first
    cases first
    rfl
  · intro v high access
    exact (models.managed _ (by simp [user v high access])).2
  · intro v high access same
    have role := user v high access
    rw [same, isDirectory] at role
    cases role
  · intro v high i small access present same
    have role := user v high access
    rw [← same, models.table_of d i isDirectory small present] at role
    cases role

/-- A store to a page of the user leaves the page tables alone. -/
theorem Machine.Sane.entry_setPage (sane : s.Sane d) (high : v < 2 ^ 20)
    (access : s.accessible d v = true) (words : Nat → Nat) :
    (s.setPage (target (s.entry d v)) words).mem d = s.mem d ∧
      ∀ u < 2 ^ 20, (s.setPage (target (s.entry d v)) words).entry d u = s.entry d u := by
  have notRoot := sane.notRoot v high access
  have notTable : ∀ i < 1024, isPresent (s.mem d i) = true →
      target (s.mem d i) ≠ target (s.entry d v) :=
        fun i small => sane.notTable v high i small access
  generalize target (s.entry d v) = p at notRoot notTable ⊢
  have root : (s.setPage p words).mem d = s.mem d := update_of_ne notRoot.symm _ _
  refine ⟨root, fun u below => ?_⟩
  unfold entry
  rw [root]
  split
  · rename_i present
    exact congrFun (update_of_ne (notTable _ (by omega) present) _ _) _
  · rfl

theorem Machine.Sane.congr (sane : s.Sane d) (root : s'.mem d = s.mem d)
    (same : ∀ u < 2 ^ 20, s'.entry d u = s.entry d u) : s'.Sane d := by
  have access : ∀ u < 2 ^ 20, s'.accessible d u = s.accessible d u := fun u high => by
    rw [accessible, accessible, same u high]
  constructor
  · intro v w high high'
    rw [access v high, access w high', same v high, same w high']
    exact sane.distinct v w high high'
  · intro v high
    rw [access v high, same v high]
    exact sane.memory v high
  · intro v high
    rw [access v high, same v high]
    exact sane.notRoot v high
  · intro v high i small
    rw [access v high, same v high, root]
    exact sane.notTable v high i small

/-! ## Bytes -/

theorem Machine.byte_storeBytes (words : Nat → Nat) (off i : Nat) (bytes : List UInt8) :
    byte (storeBytes words off bytes) i =
      if off ≤ i then (bytes.map UInt8.toNat).getD (i - off) (byte words i)
      else byte words i := by
  have small : ∀ j, (if off ≤ j then (bytes.map UInt8.toNat).getD (j - off) (byte words j)
      else byte words j) < 256 := by
    intro j
    have old : byte words j < 256 := Nat.mod_lt _ (by decide)
    split
    · rw [List.getD_eq_getElem?_getD, List.getElem?_map]
      cases bytes[j - off]? with
      | none => exact old
      | some b => exact b.toNat_lt
    · exact old
  have index : i = 4 * (i / 4) + i % 4 := by omega
  unfold storeBytes
  dsimp only
  generalize isNew : (fun j => if off ≤ j then
    (bytes.map UInt8.toNat).getD (j - off) (byte words j) else byte words j) = new
  have unfolded : ∀ j, (if off ≤ j then
      (bytes.map UInt8.toNat).getD (j - off) (byte words j)
      else byte words j) = new j := fun j => congrFun isNew j
  simp only [unfolded] at small ⊢
  unfold byte
  have bounds := And.intro (small (4 * (i / 4))) (And.intro (small (4 * (i / 4) + 1))
    (And.intro (small (4 * (i / 4) + 2)) (small (4 * (i / 4) + 3))))
  have rest : i % 4 = 0 ∨ i % 4 = 1 ∨ i % 4 = 2 ∨ i % 4 = 3 := by omega
  conv_rhs => rw [index]
  rcases rest with digit | digit | digit | digit
  all_goals
    rw [digit]
    norm_num
    omega

/-- The bytes are at the address, and nothing else has changed: no entry, and no byte of the
memory that the addresses do not reach. -/
structure Written (d va : Nat) (bytes : List UInt8) (s s' : Machine) : Prop where
  stored : ∀ i b, bytes[i]? = some b → s'.load d (va + i) = some b.toNat
  mapping : ∀ va' < 2 ^ 32, s'.translate d va' = s.translate d va'
  others : ∀ q off, off < pgsize →
    (∀ i < bytes.length, ¬ (s.MapsTo d (va + i) q ∧ (va + i) % pgsize = off)) →
    byte (s'.mem q) off = byte (s.mem q) off

/-! ## The loop -/

/-- The page overlaps the bytes from `va` on. -/
def Overlaps (va len v : Nat) : Prop :=
  ∃ i < len, (va + i) / pgsize = v

/-- There is a page table for each page that the loop comes to. -/
def Machine.Tabulated (s : Machine) (d va len : Nat) : Prop :=
  ∀ v, Overlaps va len v → (∀ u, va / pgsize ≤ u → u < v → s.accessible d u = true) →
    s.tables d (v / 1024) = true

/-- The runs end, with the same result for each word at the address 0: the bytes are written if
each of their pages is there for the user, and otherwise there is a failure. -/
def RunsCopy (run : Nat → Except Panic (Bool × Machine)) (d va : Nat) (bytes : List UInt8)
    (s : Machine) : Prop :=
  ∃ r s', (∀ nullWord, run nullWord = .ok (r, s')) ∧
    (r = true ↔ ∀ v, Overlaps va bytes.length v → s.accessible d v = true) ∧
    (r = true → Written d va bytes s s')

/-- What `copyout` is to do. -/
def CopiesOut (d va : Nat) (bytes : List UInt8) (s : Machine) : Prop :=
  RunsCopy (fun nullWord => (copyout nullWord d va bytes).run s) d va bytes s

/-- What `uva2ka` returns for a page. -/
theorem uva2ka_run (high : v < 2 ^ 20) :
    (uva2ka nullWord d (v * pgsize)).run s =
      .ok (if s.tables d (v / 1024) then
          (if s.accessible d v then some (target (s.entry d v)) else none)
        else (if isPresent nullWord && isUser nullWord then some (target nullWord) else none),
        s) := by
  have test (pte : Nat) : (if (!isPresent pte) = true then pure none
      else if (!isUser pte) = true then pure none else pure (some (target pte)) :
        VmM (Option Nat)).run s =
      .ok (if isPresent pte && isUser pte then some (target pte) else none, s) := by
    cases isPresent pte <;> cases isUser pte <;> rfl
  cases has : s.tables d (v / 1024) with
  | true =>
    have found : (walkpgdir d (v * pgsize) false).run s =
        .ok (some (target (s.mem d (v / 1024)), v % 1024), s) := by
      rw [tables] at has
      unfold walkpgdir
      rw [pdx_page high, ptx_page]
      simp only [StateT.run_bind, StateT.run_get, pure_bind, has, if_true]
      rfl
    have isEntry : s.entry d v = s.mem (target (s.mem d (v / 1024))) (v % 1024) := if_pos has
    unfold uva2ka
    rw [StateT.run_bind, found, accessible, isEntry]
    exact test _
  | false =>
    have found : (walkpgdir d (v * pgsize) false).run s = .ok (none, s) := by
      rw [tables] at has
      unfold walkpgdir
      rw [pdx_page high]
      simp only [StateT.run_bind, StateT.run_get, pure_bind, has, Bool.false_eq_true, if_false]
      rfl
    unfold uva2ka
    rw [StateT.run_bind, found]
    exact test _

/-- The bytes that go to the first page. -/
def chunk (va : Nat) (bytes : List UInt8) : Nat :=
  min (pgsize - va % pgsize) bytes.length

/-- One round of the loop, for a page that is found. -/
theorem copyLoopOut_step {page : Nat} (some : bytes ≠ [])
    (found : (uva2ka nullWord d (va / pgsize * pgsize)).run s = .ok (.some page, s)) :
    (copyLoopOut nullWord d (fuel + 1) va bytes).run s =
      if page ≥ phystop / pgsize then .error .pageFault
      else (copyLoopOut nullWord d fuel ((va / pgsize + 1) * pgsize % 2 ^ 32)
        (bytes.drop (chunk va bytes))).run
          (s.setPage page (storeBytes (s.mem page) (va % pgsize)
            (bytes.take (chunk va bytes)))) := by
  have offset : va - va / pgsize * pgsize = va % pgsize := by
    unfold pgsize
    omega
  have next : va / pgsize * pgsize + pgsize = (va / pgsize + 1) * pgsize := by
    unfold pgsize
    omega
  rw [copyLoopOut, if_neg some]
  dsimp only
  rw [StateT.run_bind, pgrounddown, found, offset, next]
  change (ite (page ≥ phystop / pgsize) _ _ : VmM Bool).run s = _
  split
  · rfl
  · rfl

/-- One round of the loop, for a page that is not found. -/
theorem copyLoopOut_stop (some : bytes ≠ [])
    (found : (uva2ka nullWord d (va / pgsize * pgsize)).run s = .ok (none, s)) :
    (copyLoopOut nullWord d (fuel + 1) va bytes).run s = .ok (false, s) := by
  rw [copyLoopOut, if_neg some]
  dsimp only
  rw [StateT.run_bind, pgrounddown, found]
  rfl

theorem copyLoopOut_nil : (copyLoopOut nullWord d fuel va []).run s = .ok (true, s) := by
  cases fuel with
  | zero => rfl
  | succ fuel => rfl

/-! ## The bytes that have been written -/

theorem Machine.translate_congr (same : s'.entry d (va / pgsize) = s.entry d (va / pgsize)) :
    s'.translate d va = s.translate d va := by
  rw [translate, translate, same]

theorem Machine.mem_setPage_self (words : Nat → Nat) : (s.setPage p words).mem p = words :=
  update_self _ _ _

/-- The bytes for one page. -/
theorem Machine.Sane.written (sane : s.Sane d) (high : va / pgsize < 2 ^ 20)
    (access : s.accessible d (va / pgsize) = true) (fits : va % pgsize + xs.length ≤ pgsize) :
    Written d va xs s (s.setPage (target (s.entry d (va / pgsize)))
      (storeBytes (s.mem (target (s.entry d (va / pgsize)))) (va % pgsize) xs)) := by
  obtain ⟨-, entry⟩ := sane.entry_setPage high access
    (storeBytes (s.mem (target (s.entry d (va / pgsize)))) (va % pgsize) xs)
  have inside : ∀ i < xs.length, (va + i) / pgsize = va / pgsize ∧
      (va + i) % pgsize = va % pgsize + i := by
    intro i small
    unfold pgsize at fits ⊢
    omega
  constructor
  · intro i b isByte
    have small : i < xs.length := (List.getElem?_eq_some_iff.mp isByte).1
    obtain ⟨page, offset⟩ := inside i small
    rw [load_eq, page, offset, entry _ high,
      if_pos (present_of_accessible access), mem_setPage_self,
      byte_storeBytes, if_pos (Nat.le_add_right _ _), Nat.add_sub_cancel_left,
      List.getD_eq_getElem?_getD, List.getElem?_map, isByte]
    rfl
  · intro va' below
    exact translate_congr (entry _ (by unfold pgsize; omega))
  · intro q off small untouched
    by_cases same : q = target (s.entry d (va / pgsize))
    · rw [same, mem_setPage_self, byte_storeBytes]
      split
      · rename_i after
        rw [List.getD_eq_getElem?_getD, List.getElem?_map]
        by_cases here : off - va % pgsize < xs.length
        · obtain ⟨page, offset⟩ := inside _ here
          refine absurd ⟨mapsTo_iff.mpr ?_, ?_⟩ (untouched _ here)
          · rw [page]
            exact ⟨present_of_accessible access, same.symm⟩
          · rw [offset]
            omega
        · rw [List.getElem?_eq_none (by omega)]
          rfl
      · rfl
    · exact congrArg (byte · off) (update_of_ne same _ _)

/-- An address shows the same byte if its entry and the byte of its page are the same. -/
theorem Machine.load_congr (mapping : s'.translate d va = s.translate d va)
    (kept : ∀ q, s.MapsTo d va q →
      byte (s'.mem q) (va % pgsize) = byte (s.mem q) (va % pgsize)) :
    s'.load d va = s.load d va := by
  have offset (pte : Nat) : (pteAddr pte + va % pgsize) % pgsize = va % pgsize := by
    unfold pteAddr pgsize
    omega
  unfold load
  rw [mapping, translate]
  split
  · rename_i present
    rw [Option.map_some, Option.map_some, address_div, offset,
      kept _ (mapsTo_iff.mpr ⟨present, rfl⟩)]
  · rfl

theorem Written.nil : Written d va [] s s :=
  ⟨by simp, fun _ _ => rfl, fun _ _ _ _ => rfl⟩

/-- The bytes for the first page, and then the others. -/
theorem Written.append (first : Written d va xs s s₁) (second : Written d (va + xs.length) ys s₁ s')
    (sane : s.Sane d) (fits : va + (xs.length + ys.length) ≤ 2 ^ 32)
    (access : ∀ i < xs.length + ys.length, s.accessible d ((va + i) / pgsize) = true) :
    Written d va (xs ++ ys) s s' := by
  have mapped : ∀ va' < 2 ^ 32, ∀ q, s₁.MapsTo d va' q ↔ s.MapsTo d va' q := by
    intro va' below q
    unfold Machine.MapsTo
    rw [first.mapping _ below]
  constructor
  · intro i b isByte
    by_cases early : i < xs.length
    · rw [List.getElem?_append_left early] at isByte
      rw [← first.stored i b isByte]
      apply load_congr (second.mapping _ (by omega))
      intro q mapsTo
      apply second.others _ _ (Nat.mod_lt _ (by decide))
      -- two addresses of the range with the same page and offset are the same
      rintro j inside ⟨mapsTo', offset⟩
      rw [mapped _ (by omega), mapsTo_iff] at mapsTo
      rw [mapped _ (by omega), mapsTo_iff, Nat.add_assoc] at mapsTo'
      have page := sane.distinct _ _ (by unfold pgsize; omega) (by unfold pgsize; omega)
        (access (xs.length + j) (by omega)) (access i (by omega)) (mapsTo'.2.trans mapsTo.2.symm)
      unfold pgsize at page offset
      omega
    · rw [List.getElem?_append_right (by omega)] at isByte
      have new := second.stored _ b isByte
      rwa [show va + xs.length + (i - xs.length) = va + i by omega] at new
  · intro va' below
    rw [second.mapping va' below, first.mapping va' below]
  · intro q off small untouched
    rw [List.length_append] at untouched
    rw [second.others q off small, first.others q off small]
    · exact fun i inside => untouched i (by omega)
    · intro i inside
      rw [mapped _ (by omega), Nat.add_assoc]
      exact untouched _ (by omega)

/-! ## Whole runs of the loop -/

/-- The pages of the bytes are the first one and those of the rest. -/
theorem overlaps_iff {len n : Nat} (fits : va % pgsize + n ≤ pgsize) (pos : 0 < n) (le : n ≤ len) :
    Overlaps va len v ↔ v = va / pgsize ∨ Overlaps (va + n) (len - n) v := by
  constructor
  · rintro ⟨i, small, rfl⟩
    by_cases early : i < n
    · left
      unfold pgsize at fits ⊢
      omega
    · exact .inr ⟨i - n, by omega, by rw [show va + n + (i - n) = va + i by omega]⟩
  · rintro (rfl | ⟨i, small, rfl⟩)
    · exact ⟨0, by omega, rfl⟩
    · exact ⟨n + i, by omega, by rw [Nat.add_assoc]⟩

theorem chunk_pos (va : Nat) (some : bytes ≠ []) : 0 < chunk va bytes := by
  have := Nat.mod_lt va (show 0 < pgsize by decide)
  have := List.length_pos_of_ne_nil some
  unfold chunk
  omega

theorem chunk_fits : va % pgsize + chunk va bytes ≤ pgsize := by
  have := Nat.mod_lt va (show 0 < pgsize by decide)
  unfold chunk
  omega

/-- Where the rest begins. -/
theorem chunk_next (rest : bytes.drop (chunk va bytes) ≠ []) (fits : va + bytes.length ≤ 2 ^ 32) :
    (va / pgsize + 1) * pgsize % 2 ^ 32 = va + chunk va bytes ∧
      (va + chunk va bytes) / pgsize = va / pgsize + 1 := by
  have longer : chunk va bytes < bytes.length := by
    by_contra short
    exact rest (List.drop_eq_nil_of_le (by omega))
  have whole : chunk va bytes = pgsize - va % pgsize := by
    unfold chunk at longer ⊢
    omega
  rw [whole] at longer ⊢
  unfold pgsize at longer ⊢
  omega

theorem Machine.tables_of_present (present : isPresent (s.entry d v) = true) :
    s.tables d (v / 1024) = true := by
  by_contra missing
  unfold tables at missing
  unfold entry at present
  rw [if_neg missing] at present
  cases present

/-- What `uva2ka` returns for a page that is there for the user. -/
theorem uva2ka_accessible (high : v < 2 ^ 20) (access : s.accessible d v = true) :
    (uva2ka nullWord d (v * pgsize)).run s = .ok (some (target (s.entry d v)), s) := by
  rw [uva2ka_run high, if_pos (tables_of_present (present_of_accessible access)),
    if_pos access]

/-- The machine after a round of the loop. -/
structure Round (d va : Nat) (bytes : List UInt8) (s s₁ : Machine) : Prop where
  run : ∀ nullWord fuel, (copyLoopOut nullWord d (fuel + 1) va bytes).run s =
    (copyLoopOut nullWord d fuel ((va / pgsize + 1) * pgsize % 2 ^ 32)
      (bytes.drop (chunk va bytes))).run s₁
  written : Written d va (bytes.take (chunk va bytes)) s s₁
  sane : s₁.Sane d
  access : ∀ u < 2 ^ 20, s₁.accessible d u = s.accessible d u
  tables : ∀ i, s₁.tables d i = s.tables d i

theorem Machine.Sane.round (sane : s.Sane d) (some : bytes ≠ []) (high : va / pgsize < 2 ^ 20)
    (access : s.accessible d (va / pgsize) = true) : ∃ s₁, Round d va bytes s s₁ := by
  obtain ⟨root, entry⟩ := sane.entry_setPage high access
    (storeBytes (s.mem (target (s.entry d (va / pgsize)))) (va % pgsize)
      (bytes.take (chunk va bytes)))
  refine ⟨_, fun nullWord fuel => ?_, sane.written high access ?_, sane.congr root entry, ?_, ?_⟩
  · rw [copyLoopOut_step some (uva2ka_accessible high access),
      if_neg (Nat.not_le.mpr (sane.memory _ high access))]
  · rw [List.length_take]
    exact (Nat.add_le_add_left (Nat.min_le_left _ _) _).trans chunk_fits
  · intro u below
    rw [accessible, accessible, entry u below]
  · intro i
    rw [tables, tables, root]

/-- The rest needs no other page tables. -/
theorem Machine.Tabulated.rest {len n : Nat} (tabulated : s.Tabulated d va len)
    (access : s.accessible d (va / pgsize) = true) (next : (va + n) / pgsize = va / pgsize + 1)
    (below : va + len ≤ 2 ^ 32) (accesses : ∀ u < 2 ^ 20, s₁.accessible d u = s.accessible d u)
    (tables : ∀ i, s₁.tables d i = s.tables d i) : s₁.Tabulated d (va + n) (len - n) := by
  rintro v ⟨i, small, isPage⟩ before
  rw [tables]
  refine tabulated v ⟨n + i, by omega, by rw [← isPage, Nat.add_assoc]⟩ fun u after early => ?_
  rcases Nat.eq_or_lt_of_le after with rfl | later
  · exact access
  · rw [← accesses u (by unfold pgsize at isPage; omega)]
    exact before u (by omega) early

theorem RunsCopy.nil {run : Nat → Except Panic (Bool × Machine)}
    (returns : ∀ nullWord, run nullWord = .ok (true, s)) : RunsCopy run d va [] s := by
  refine ⟨true, s, returns, ?_, fun _ => Written.nil⟩
  simp [Overlaps]

/-- With the page tables the loop does what it is to do. -/
theorem copyLoopOut_exact (sane : s.Sane d) (fits : va + bytes.length ≤ 2 ^ 32)
    (enough : bytes.length ≤ fuel) (tabulated : s.Tabulated d va bytes.length) :
    RunsCopy (fun nullWord => (copyLoopOut nullWord d fuel va bytes).run s) d va bytes s := by
  induction fuel generalizing s va bytes with
  | zero =>
    obtain rfl := List.eq_nil_of_length_eq_zero (Nat.le_zero.mp enough)
    exact RunsCopy.nil fun _ => copyLoopOut_nil
  | succ fuel ih =>
    rcases eq_or_ne bytes [] with rfl | some
    · exact RunsCopy.nil fun _ => copyLoopOut_nil
    have nonempty := List.length_pos_of_ne_nil some
    have high : va / pgsize < 2 ^ 20 := by
      unfold pgsize
      omega
    have pos := chunk_pos va some
    have le : chunk va bytes ≤ bytes.length := Nat.min_le_right _ _
    have overlaps : ∀ v, Overlaps va bytes.length v ↔ v = va / pgsize ∨
        Overlaps (va + chunk va bytes) (bytes.length - chunk va bytes) v :=
      fun v => overlaps_iff chunk_fits pos le
    by_cases access : s.accessible d (va / pgsize) = true
    · obtain ⟨s₁, round⟩ := sane.round some high access
      have rest : RunsCopy (fun nullWord => (copyLoopOut nullWord d fuel
          ((va / pgsize + 1) * pgsize % 2 ^ 32) (bytes.drop (chunk va bytes))).run s₁)
          d (va + chunk va bytes) (bytes.drop (chunk va bytes)) s₁ := by
        rcases eq_or_ne (bytes.drop (chunk va bytes)) [] with nothing | more
        · rw [nothing]
          exact RunsCopy.nil fun _ => copyLoopOut_nil
        · obtain ⟨next, page⟩ := chunk_next more fits
          rw [next]
          apply ih round.sane
          · rw [List.length_drop]
            omega
          · rw [List.length_drop]
            omega
          · rw [List.length_drop]
            exact tabulated.rest access page fits round.access round.tables
      obtain ⟨r, s', run, returned, result⟩ := rest
      rw [List.length_drop] at returned
      have all : (∀ v, Overlaps va bytes.length v → s.accessible d v = true) ↔ r = true := by
        rw [returned]
        constructor
        · intro all v overlap
          obtain ⟨i, small, isPage⟩ := overlap
          rw [round.access v (by unfold pgsize at isPage; omega)]
          exact all v ((overlaps v).mpr (.inr ⟨i, small, isPage⟩))
        · intro later v overlap
          rcases (overlaps v).mp overlap with rfl | ⟨i, small, isPage⟩
          · exact access
          · rw [← round.access v (by unfold pgsize at isPage; omega)]
            exact later v ⟨i, small, isPage⟩
      refine ⟨r, s', fun nullWord => (round.run nullWord fuel).trans (run nullWord), all.symm, ?_⟩
      intro success
      have length : (bytes.take (chunk va bytes)).length = chunk va bytes := by
        rw [List.length_take, Nat.min_eq_left le]
      have later := result success
      rw [← length] at later
      have both := round.written.append later sane (by rw [length, List.length_drop]; omega)
        fun i small => all.mpr success _ ⟨i, by rw [length, List.length_drop] at small; omega, rfl⟩
      rwa [length, List.take_append_drop] at both
    · have tables := tabulated (va / pgsize) ((overlaps _).mpr (.inl rfl)) (by omega)
      refine ⟨false, s, fun nullWord => copyLoopOut_stop some ?_, ?_, nofun⟩
      · rw [uva2ka_run high, if_pos tables, if_neg access]
      · exact ⟨nofun, fun all => absurd (all _ ((overlaps _).mpr (.inl rfl))) access⟩

/-- A word that gives the user a page beyond the memory. -/
def strayWord : Nat := 0xFFFFF005

/-- Without a page table the kernel can fault. -/
theorem copyLoopOut_faults (sane : s.Sane d) (fits : va + bytes.length ≤ 2 ^ 32)
    (enough : bytes.length ≤ fuel) (overlap : Overlaps va bytes.length v)
    (before : ∀ u, va / pgsize ≤ u → u < v → s.accessible d u = true)
    (missing : s.tables d (v / 1024) = false) :
    (copyLoopOut strayWord d fuel va bytes).run s = .error .pageFault := by
  have some : bytes ≠ [] := by
    rintro rfl
    obtain ⟨i, small, -⟩ := overlap
    simp at small
  induction fuel generalizing s va bytes with
  | zero => exact absurd (List.eq_nil_of_length_eq_zero (Nat.le_zero.mp enough)) some
  | succ fuel ih =>
    have nonempty := List.length_pos_of_ne_nil some
    have high : va / pgsize < 2 ^ 20 := by
      unfold pgsize
      omega
    have pos := chunk_pos va some
    rcases (overlaps_iff chunk_fits pos (Nat.min_le_right _ _)).mp overlap with rfl | later
    · have found : (uva2ka strayWord d (va / pgsize * pgsize)).run s =
          .ok (.some (target strayWord), s) := by
        rw [uva2ka_run high, missing]
        rfl
      rw [copyLoopOut_step some found, if_pos (by decide)]
    · have more : bytes.drop (chunk va bytes) ≠ [] := by
        obtain ⟨i, small, -⟩ := later
        rw [← List.length_pos_iff, List.length_drop]
        omega
      obtain ⟨next, page⟩ := chunk_next more fits
      have after : va / pgsize < v := by
        obtain ⟨i, -, rfl⟩ := later
        unfold pgsize at page ⊢
        omega
      obtain ⟨s₁, round⟩ := sane.round some high (before _ (Nat.le_refl _) after)
      rw [round.run, next]
      rw [← List.length_drop] at later
      apply ih round.sane _ _ later _ _ more
      · rw [List.length_drop]
        omega
      · rw [List.length_drop]
        omega
      · intro u start early
        obtain ⟨i, small, rfl⟩ := overlap
        rw [round.access u (by unfold pgsize at early; omega)]
        exact before u (by omega) early
      · rw [round.tables]
        exact missing

/-! ## The property -/

theorem copyout_exact_iff (sane : s.Sane d) (fits : va + bytes.length ≤ 2 ^ 32) :
    CopiesOut d va bytes s ↔ s.Tabulated d va bytes.length := by
  constructor
  · rintro ⟨r, s', run, -⟩ v overlap before
    by_contra missing
    have fault := copyLoopOut_faults sane fits (Nat.le_refl _) overlap before
      (Bool.eq_false_iff.mpr missing)
    cases (run strayWord).symm.trans fault
  · exact copyLoopOut_exact sane fits (Nat.le_refl _)

/-- An empty directory in page 512. -/
def lone : Machine where
  mem _ _ := 0
  freelist := none
  refuse _ := false
  calls := 0
  loads := []

/-- No page table: the result depends on the word at the address 0. -/
theorem copyout_reads_null :
    (copyout 0 512 0 [1]).run lone = .ok (false, lone) ∧
      (copyout strayWord 512 0 [1]).run lone = .error .pageFault ∧
      ¬ CopiesOut 512 0 [1] lone := by
  have fails : (copyout 0 512 0 [1]).run lone = .ok (false, lone) := rfl
  have faults : (copyout strayWord 512 0 [1]).run lone = .error .pageFault := rfl
  refine ⟨fails, faults, ?_⟩
  rintro ⟨r, s', run, -⟩
  cases (run strayWord).symm.trans faults

theorem Space.sane {sz : Nat} (space : Space link d sz s V) : s.Sane d :=
  space.models.sane space.directory space.kernel.kernelHalf.supervisor

/-- Three bytes for a process with one page. -/
theorem copyout_exact_page : ∃ s d, s.Tabulated d 5 3 ∧ CopiesOut d 5 [1, 2, 3] s := by
  have room : 600 ≤ phystop / pgsize := by decide
  obtain ⟨s, V, d, p, space, -⟩ := Frames.exists_image (n := 0) (by omega)
  have tabulated : s.Tabulated d 5 3 := by
    rintro v ⟨i, small, rfl⟩ -
    have page : (5 + i) / pgsize = 0 := by
      unfold pgsize
      omega
    rw [page, space.tables]
    decide
  exact ⟨s, d, tabulated, (copyout_exact_iff space.sane (by decide)).mpr tabulated⟩

end Xv6.Vm
