import Xv6.Vm.Loading

/-!
# The image of a program

What `exec` makes of a file.  The program headers say how large the image becomes, what
`exec` asks `kalloc` for and where the pieces of the file go.  If the segments that are
reached can be loaded, `exec` returns, and either the new directory has exactly the pages
of the new size or the old roles of all pages are back.
-/

namespace Xv6.Vm

open Stateful

variable {link : Link} {s s' : Machine} {V V' V'' : View} {d q v sz newsz : Nat}

/-! ## Growing an image -/

/-- The directory has been extended, and pages of it have been filled. -/
structure Enlarged (link : Link) (d : Nat) (s : Machine) (V : View) (s' : Machine) (V' : View) :
    Prop where
  models : Models link s' V'
  ext : Extends d V V'
  landed : Landed V' d s s'
  mem : ∀ q ≠ d, (V.role q).Kept d (fun _ => True) → s'.mem q = s.mem q

namespace Enlarged

theorem refl (models : Models link s V) : Enlarged link d s V s V :=
  ⟨models, Extends.refl, Landed.refl, fun _ _ _ => rfl⟩

theorem trans {s'' : Machine} (first : Enlarged link d s V s' V')
    (second : Enlarged link d s' V' s'' V'') : Enlarged link d s V s'' V'' where
  models := second.models
  ext := first.ext.trans second.ext
  landed := (first.landed.mono second.ext.user).trans second.landed
  mem q notRoot kept := by
    have role : V'.role q = V.role q :=
      first.ext.keeps fun isFree => by rw [isFree] at kept; exact kept
    rw [← first.mem q notRoot kept]
    exact second.mem q notRoot (role ▸ kept)

theorem of_edited {R : Nat → Prop} (edited : Edited link d R s V s' V') (ext : Extends d V V') :
    Enlarged link d s V s' V' :=
  ⟨edited.models, ext, Landed.of_eq edited.loads,
    fun q notRoot kept => (edited.spared q notRoot (kept.mono fun _ _ => trivial)).2⟩

end Enlarged

theorem Filled.enlarged (filled : Filled link d sz s V s') : Enlarged link d s V s' V where
  models := filled.space.models
  ext := Extends.refl
  landed := filled.landed
  mem q _ kept := filled.mem q fun v user => by
    rw [user] at kept
    exact kept rfl trivial

/-- The directory has a page at the address `v * PGSIZE`, as the memory shows it. -/
structure Machine.Maps (s : Machine) (d v p : Nat) : Prop where
  table : isPresent (s.mem d (v / 1024)) = true
  present : isPresent (s.mem (target (s.mem d (v / 1024))) (v % 1024)) = true
  page : target (s.mem (target (s.mem d (v / 1024))) (v % 1024)) = p

section

variable (models : Models link s V)
include models

theorem Models.maps {p : Nat} (user : V.role p = .user d v) : s.Maps d v p := by
  obtain ⟨-, t, table, present, isTarget⟩ := models.of_user p d v user
  obtain ⟨-, -, has, isTable⟩ := models.of_table t d _ table
  subst isTable
  exact ⟨has, present, isTarget⟩

/-- The memory shows the user pages of a directory. -/
theorem Models.maps_iff (directory : V.role d = .directory) :
    (v < 2 ^ 19 ∧ ∃ p, s.Maps d v p) ↔ V.Mapped d v := by
  constructor
  · rintro ⟨low, p, has, present, -⟩
    have table := models.table_of d (v / 1024) directory (by omega) has
    exact models.mapped_iff.mpr ⟨low, _, table, present⟩
  · rintro ⟨p, user⟩
    exact ⟨(models.of_user p d v user).1, p, models.maps user⟩

/-- The supply of `kalloc`, as the memory shows it. -/
structure Machine.HasSupply (s : Machine) (k : Supply) : Prop where
  refuse : k.refuse = s.refuse
  calls : k.calls = s.calls
  free : ∃ nodes, Linked.Chain s.next s.freelist nodes ∧ k.free = nodes.length

theorem Machine.HasSupply.eq {k : Supply} (supply : s.HasSupply k) : k = s.supply V := by
  obtain ⟨refuse, calls, nodes, chain, free⟩ := supply
  rw [chain.unique models.chain] at free
  cases k
  simp only at refuse calls free
  rw [Machine.supply, refuse, calls, free]

theorem Models.hasSupply : s.HasSupply (s.supply V) :=
  ⟨rfl, rfl, V.free, models.chain, rfl⟩

variable {data : List Request}

/-- The pages from `sz` to `newsz` have been added. -/
theorem Grown.contiguous (image : Contiguous V d sz) (low : newsz ≤ kernbase) (larger : sz ≤ newsz)
    (grown : Grown link data d (pages sz) (pages newsz - pages sz) s V s' V') :
    Contiguous V' d newsz := by
  have more := pages_mono larger
  have top := pages_le low
  refine ⟨grown.extends.directory image.directory, low, ?_⟩
  intro v
  rw [grown.mapped_iff models (by omega), image.mapped]
  omega

omit models in
theorem Grown.space (space : Space link d sz s V) (low : newsz ≤ kernbase) (larger : sz ≤ newsz)
    (grown : Grown link data d (pages sz) (pages newsz - pages sz) s V s' V') :
    Space link d newsz s' V' := by
  have more := pages_mono larger
  have top := pages_le low
  refine ⟨grown.contiguous space.models space.toContiguous low larger, grown.models, ?_,
    space.kernel.congr fun v kernel high => grown.entry v high (by omega)⟩
  funext i
  rw [Bool.eq_iff_iff, grown.tables, space.tables]
  simp only [spaceTables, Bool.or_eq_true, decide_eq_true_eq]
  constructor
  · rintro ((kernel | old) | ⟨v', after, before, rfl⟩)
    · exact .inl kernel
    · exact .inr (by omega)
    · exact .inr (by omega)
  · rintro (kernel | here)
    · exact .inl (.inl kernel)
    · by_cases old : i * 1024 < pages sz
      · exact .inl (.inr old)
      · exact .inr ⟨i * 1024, by omega, by omega, by omega⟩

/-- `allocuvm`, unless a table is refused. -/
theorem allocuvm_grows (directory : V.role d = .directory) (vacant : V.Vacant d sz newsz)
    (served : (s.supply V).firstRefused (allocDemand (s.tables d) sz newsz) ≠ some .userTable) :
    Wp (link.allocuvm d sz newsz) (fun _ => False) (fun r s' =>
      ∃ V', Enlarged link d s V s' V' ∧
        ((newsz < kernbase ∧
            (s.supply V).firstRefused (allocDemand (s.tables d) sz newsz) = none ∧
            r = max sz newsz ∧
            Grown link [.data] d (pages sz) (pages newsz - pages sz) s V s' V' ∧
            (∀ v, pages sz ≤ v → v < pages newsz →
              Backed d v (pteW ||| pteU) (fun _ => 0) V s') ∧
            s'.supply V' = (s.supply V).after (allocDemand (s.tables d) sz newsz).length) ∨
          ((kernbase ≤ newsz ∨
              (s.supply V).firstRefused (allocDemand (s.tables d) sz newsz) ≠ none) ∧
            r = 0 ∧ NewTables d V V'))) s := by
  by_cases high : kernbase ≤ newsz
  · unfold Link.allocuvm
    rw [if_pos high]
    exact ⟨V, .refl models, .inr ⟨.inl high, rfl, NewTables.refl⟩⟩
  by_cases smaller : newsz < sz
  · have noDemand : allocDemand (s.tables d) sz newsz = [] := if_pos (.inr smaller)
    have none : pages newsz - pages sz = 0 := Nat.sub_eq_zero_of_le (pages_mono smaller.le)
    unfold Link.allocuvm
    rw [if_neg high, if_pos smaller, noDemand, max_eq_left smaller.le, none]
    exact ⟨V, .refl models, .inl ⟨by omega, rfl, rfl, Grown.refl models, by omega, rfl⟩⟩
  have larger : sz ≤ newsz := by omega
  have demands : allocDemand (s.tables d) sz newsz =
      demand [.data] (s.tables d) (pages sz) (pages newsz - pages sz) :=
    if_neg (by omega)
  rw [max_eq_right larger]
  apply (allocuvm_spec models directory (by omega) larger).mono
  · rintro _ ⟨-, notVacant⟩
    exact notVacant vacant
  · rintro r s' ⟨V', edited, -, ending⟩
    refine ⟨V', ?_⟩
    generalize fate : (s.supply V).firstRefused (allocDemand (s.tables d) sz newsz) =
      refused at served ending ⊢
    cases refused with
    | none =>
      obtain ⟨result, grown, backed⟩ := ending
      refine ⟨.of_edited edited grown.extends,
        Or.inl ⟨by omega, rfl, result, grown, backed, ?_⟩⟩
      rw [grown.supply, demands]
    | some request =>
      cases request with
      | userTable => exact absurd rfl served
      | _ =>
        have added := ending.2.2 vacant
        exact ⟨.of_edited edited added.extends, .inr ⟨.inr (by simp), ending.1, added⟩⟩

end

variable {nullWord : Nat}

section

variable (space : Space link d sz s V)
include space

/-- `allocuvm` for an image, unless a table is refused. -/
theorem allocuvm_image (served : (s.supply V).firstRefused (allocDemand (spaceTables sz) sz newsz) ≠
      some .userTable) :
    Wp (link.allocuvm d sz newsz) (fun _ => False) (fun r s' =>
      ∃ V', Enlarged link d s V s' V' ∧
        ((newsz < kernbase ∧
            (s.supply V).firstRefused (allocDemand (spaceTables sz) sz newsz) = none ∧
            r = max sz newsz ∧ Space link d (max sz newsz) s' V' ∧
            (∀ v, pages sz ≤ v → v < pages newsz →
              Backed d v (pteW ||| pteU) (fun _ => 0) V s') ∧
            s'.supply V' = (s.supply V).after (allocDemand (spaceTables sz) sz newsz).length) ∨
          ((kernbase ≤ newsz ∨
              (s.supply V).firstRefused (allocDemand (spaceTables sz) sz newsz) ≠ none) ∧
            r = 0))) s := by
  have vacant : V.Vacant d sz newsz := by
    intro v after _ mapped
    rw [space.mapped] at mapped
    omega
  rw [← space.tables] at served ⊢
  apply (allocuvm_grows space.models space.directory vacant served).imp
  rintro r s' ⟨V', enlarged, ⟨low, granted, isMax, grown, backed, supply⟩ | ⟨why, zero, -⟩⟩
  · refine ⟨V', enlarged, .inl ⟨low, granted, isMax, ?_, backed, supply⟩⟩
    rcases Nat.le_total sz newsz with larger | smaller
    · rw [max_eq_right larger]
      exact grown.space space low.le larger
    · rw [max_eq_left smaller]
      rw [Nat.sub_eq_zero_of_le (pages_mono smaller), ← Nat.sub_self (pages sz)] at grown
      exact grown.space space space.low (Nat.le_refl sz)
  · exact ⟨V', enlarged, .inr ⟨why, zero⟩⟩

/-! ## Program headers -/

/-- The program header at an offset, if the file has it. -/
def File.header (file : File) (off : Nat) : Option Proghdr :=
  match file.readi off 32 with
  | none => none
  | some bytes => if bytes.length ≠ 32 then none else some (Proghdr.ofBytes bytes)

/-- The segments to load, up to the first header that `exec` rejects, and whether there is
no such header. -/
def File.segments (file : File) : Nat → Nat → List Proghdr × Bool
  | 0, _ => ([], true)
  | count + 1, off =>
    match file.header off with
    | none => ([], false)
    | some ph =>
      let rest := file.segments count ((off + 32) % 2 ^ 32)
      if ph.type ≠ elfProgLoad then rest
      else if ph.memsz < ph.filesz then ([], false)
      else (ph :: rest.1, rest.2)

/-- The size that `exec` asks `allocuvm` for. -/
def Proghdr.top (ph : Proghdr) : Nat :=
  (ph.vaddr + ph.memsz) % 2 ^ 32

/-- `allocuvm` returns 0 for lack of addresses, or because the size is 0. -/
def Proghdr.Rejected (ph : Proghdr) (sz : Nat) : Prop :=
  kernbase ≤ ph.top ∨ max sz ph.top = 0

instance (ph : Proghdr) (sz : Nat) : Decidable (ph.Rejected sz) :=
  inferInstanceAs (Decidable (_ ∨ _))

/-- What the segments ask for, if every request is granted. -/
def segmentDemand (file : File) : Nat → List Proghdr → List Request
  | _, [] => []
  | sz, ph :: rest =>
    if ph.Rejected sz then []
    else
      allocDemand (spaceTables sz) sz ph.top ++
        if ph.Complete file then segmentDemand file (max sz ph.top) rest else []

/-- The size of the image, if every request is granted and `exec` gets so far. -/
def segmentSize (file : File) : Nat → List Proghdr → Option Nat
  | sz, [] => some sz
  | sz, ph :: rest =>
    if ph.Rejected sz then none
    else if ph.Complete file then segmentSize file (max sz ph.top) rest
    else none

/-- Every segment that is reached can be loaded. -/
def SegmentsLoadable (file : File) : Supply → Nat → List Proghdr → Prop
  | _, _, [] => True
  | k, sz, ph :: rest =>
    ¬ ph.Rejected sz → k.firstRefused (allocDemand (spaceTables sz) sz ph.top) = none →
      ph.Loadable file (max sz ph.top) ∧
        (ph.Complete file → SegmentsLoadable file
          (k.after (allocDemand (spaceTables sz) sz ph.top).length) (max sz ph.top) rest)

/-- What is known after the segments have been handled. -/
inductive SegmentsDone (link : Link) (d : Nat) (file : File) (k : Supply) (sz : Nat)
    (segments : List Proghdr × Bool) (s' : Machine) (V' : View) : Option Nat → Prop
  | loaded {size : Nat} : segments.2 = true → segmentSize file sz segments.1 = some size →
      k.firstRefused (segmentDemand file sz segments.1) = none → Space link d size s' V' →
      s'.supply V' = k.after (segmentDemand file sz segments.1).length →
      SegmentsDone link d file k sz segments s' V' (some size)
  | rejected : k.firstRefused (segmentDemand file sz segments.1) = none →
      segments.2 = false ∨ segmentSize file sz segments.1 = none →
      SegmentsDone link d file k sz segments s' V' none
  | refused : k.firstRefused (segmentDemand file sz segments.1) ≠ none →
      SegmentsDone link d file k sz segments s' V' none

variable {file : File}

omit space in
/-- One round of the loop over the program headers. -/
theorem loadSegments_succ {count off : Nat} :
    link.loadSegments d file (count + 1) off sz =
      (match file.header off with
      | none => pure none
      | some ph =>
        if ph.type ≠ elfProgLoad then
          link.loadSegments d file count ((off + 32) % 2 ^ 32) sz
        else if ph.memsz < ph.filesz then pure none
        else do
          let sz ← link.allocuvm d sz ph.top
          if sz = 0 then pure none
          else if ← loaduvm d ph.vaddr file ph.off ph.filesz then
            link.loadSegments d file count ((off + 32) % 2 ^ 32) sz
          else pure none) := by
  rw [Link.loadSegments]
  unfold File.header
  cases file.readi off 32 with
  | none => rfl
  | some bytes =>
    by_cases short : bytes.length ≠ 32
    · simp only [if_pos short]
    · simp only [if_neg short]
      rfl

/-- What the loop over the program headers establishes for the given segments. -/
def SegmentsSpec (link : Link) (d : Nat) (file : File) (sz : Nat)
    (segments : List Proghdr × Bool) (prog : VmM (Option Nat)) (s : Machine) (V : View) : Prop :=
  Wp prog (fun _ => ¬ SegmentsLoadable file (s.supply V) sz segments.1)
    (fun r s' =>
      (SegmentsLoadable file (s.supply V) sz segments.1 ∧
        ∃ V', Enlarged link d s V s' V' ∧
          SegmentsDone link d file (s.supply V) sz segments s' V' r) ∨
      (¬ SegmentsLoadable file (s.supply V) sz segments.1 ∧ Strayed s s')) s

/-- `allocuvm` and `loaduvm` for a segment, and then the other segments. -/
theorem segment_spec {ph : Proghdr} {rest : List Proghdr} {all : Bool}
    {next : Nat → VmM (Option Nat)}
    (served : (s.supply V).firstRefused (segmentDemand file sz (ph :: rest)) ≠ some .userTable)
    (logs : ∀ sz, Logs (next sz)) (others : ∀ {s' V'}, Space link d (max sz ph.top) s' V' →
      (s'.supply V').firstRefused (segmentDemand file (max sz ph.top) rest) ≠ some .userTable →
      SegmentsSpec link d file (max sz ph.top) (rest, all) (next (max sz ph.top)) s' V') :
    SegmentsSpec link d file sz (ph :: rest, all) (do
      let sz ← link.allocuvm d sz ph.top
      if sz = 0 then pure none
      else if ← loaduvm d ph.vaddr file ph.off ph.filesz then next sz
      else pure none) s V := by
  unfold SegmentsSpec at others ⊢
  by_cases rejected : ph.Rejected sz
  · have noDemand : allocDemand (spaceTables sz) sz ph.top = [] := by
      rcases rejected with high | zero
      · exact if_pos (.inl high)
      · obtain ⟨noSize, noTop⟩ := Nat.max_eq_zero_iff.mp zero
        rw [noTop, noSize]
        decide
    have nothing : segmentDemand file sz (ph :: rest) = [] := if_pos rejected
    have noSize : segmentSize file sz (ph :: rest) = none := if_pos rejected
    apply (allocuvm_image space (by rw [noDemand]; exact nofun)).always
    rintro r s₁ ⟨V₁, enlarged, ending⟩
    have zero : r = 0 := by
      rcases ending with ⟨low, -, isMax, -⟩ | ⟨-, zero⟩
      · rcases rejected with high | zero
        · omega
        · exact isMax.trans zero
      · exact zero
    rw [if_pos zero]
    refine .inl ⟨fun accepted => absurd rejected accepted, V₁, enlarged, ?_⟩
    exact .rejected (by rw [nothing]; rfl) (.inr noSize)
  · have demands : segmentDemand file sz (ph :: rest) =
        allocDemand (spaceTables sz) sz ph.top ++
          if ph.Complete file then segmentDemand file (max sz ph.top) rest else [] :=
      if_neg rejected
    have sizes : segmentSize file sz (ph :: rest) =
        if ph.Complete file then segmentSize file (max sz ph.top) rest else none :=
      if_neg rejected
    have nonzero : max sz ph.top ≠ 0 := fun zero => rejected (.inr zero)
    have low : ph.top < kernbase := by
      by_contra high
      exact rejected (.inl (by omega))
    rw [demands, Supply.firstRefused_append] at served
    have served₁ : (s.supply V).firstRefused (allocDemand (spaceTables sz) sz ph.top) ≠
        some .userTable := by
      intro refused
      rw [refused] at served
      exact served rfl
    apply (allocuvm_image space served₁).always
    rintro r s₁ ⟨V₁, enlarged₁, ⟨-, granted, rfl, space₁, -, supply₁⟩ | ⟨refused, rfl⟩⟩
    · rw [if_neg nonzero]
      have loadable_iff : SegmentsLoadable file (s.supply V) sz (ph :: rest) ↔
          ph.Loadable file (max sz ph.top) ∧ (ph.Complete file →
            SegmentsLoadable file (s₁.supply V₁) (max sz ph.top) rest) := by
        rw [SegmentsLoadable, supply₁]
        exact ⟨fun all => all rejected granted, fun both _ _ => both⟩
      rw [granted, Option.none_or] at served
      apply (loaduvm_spec space₁).bind
      · intro _ notLoadable all
        exact notLoadable (loadable_iff.mp all).1
      rintro loaded s₂ (⟨loadable, filled, complete⟩ | ⟨notLoadable, strayed⟩)
      · have supply₂ := filled.supply
        have enlarged₂ := enlarged₁.trans filled.enlarged
        cases loaded with
        | true =>
          have complete : ph.Complete file := complete.mp rfl
          rw [if_pos complete, ← supply₁, ← supply₂] at served
          rw [if_pos complete] at demands sizes
          rw [if_pos rfl]
          have rest_iff : SegmentsLoadable file (s.supply V) sz (ph :: rest) ↔
              SegmentsLoadable file (s₂.supply V₁) (max sz ph.top) rest := by
            rw [loadable_iff, supply₂]
            exact ⟨fun both => both.2 complete, fun all => ⟨loadable, fun _ => all⟩⟩
          rw [rest_iff]
          apply (others filled.space served).imp
          rintro r s' (⟨all, V', enlarged', done⟩ | ⟨notAll, strayed⟩)
          · refine .inl ⟨all, V', enlarged₂.trans enlarged', ?_⟩
            have fate : (s.supply V).firstRefused (segmentDemand file sz (ph :: rest)) =
                (s₂.supply V₁).firstRefused (segmentDemand file (max sz ph.top) rest) := by
              rw [demands, Supply.firstRefused_append, granted, Option.none_or, supply₂, supply₁]
            cases done with
            | loaded isAll size granted' space' supply' =>
              refine .loaded isAll (sizes.trans size) (fate.trans granted') space' ?_
              rw [supply', supply₂, supply₁, Supply.after_after, demands, List.length_append]
            | rejected granted' why =>
              refine .rejected (fate.trans granted') ?_
              rw [sizes]
              exact why
            | refused refused => exact .refused (by rw [fate]; exact refused)
          · exact .inr ⟨notAll, strayed.earlier enlarged₂.landed.grow⟩
        | false =>
          have partly : ¬ ph.Complete file := by simpa using complete
          rw [if_neg partly] at demands sizes
          refine .inl ⟨loadable_iff.mpr ⟨loadable, fun all => absurd all partly⟩, V₁,
            enlarged₂, .rejected ?_ (.inr sizes)⟩
          rw [demands, List.append_nil, granted]
      · have notAll : ¬ SegmentsLoadable file (s.supply V) sz (ph :: rest) :=
          fun all => notLoadable (loadable_iff.mp all).1
        have strayed₂ : Strayed s s₂ := strayed.earlier enlarged₁.landed.grow
        split
        · apply (logs _ s₂).mono (fun _ _ => notAll)
          intro r s' grow
          exact .inr ⟨notAll, strayed₂.later grow⟩
        · exact .inr ⟨notAll, strayed₂⟩
    · have refused : (s.supply V).firstRefused (allocDemand (spaceTables sz) sz ph.top) ≠ none := by
        rcases refused with high | refused
        · omega
        · exact refused
      refine .inl ⟨fun _ granted => absurd granted refused, V₁, enlarged₁, .refused ?_⟩
      rw [demands, Supply.firstRefused_append]
      intro none
      exact refused (Option.or_eq_none_iff.mp none).1

theorem loadSegments_spec {count off : Nat}
    (served : (s.supply V).firstRefused (segmentDemand file sz (file.segments count off).1) ≠
      some .userTable) :
    SegmentsSpec link d file sz (file.segments count off)
      (link.loadSegments d file count off sz) s V := by
  induction count generalizing off sz s V with
  | zero =>
    refine .inl ⟨trivial, V, .refl space.models, ?_⟩
    exact .loaded rfl rfl rfl space rfl
  | succ count ih =>
    have giveUp : SegmentsSpec link d file sz ([], false) (pure none) s V :=
      Or.inl ⟨trivial, V, .refl space.models, .rejected rfl (.inl rfl)⟩
    rw [loadSegments_succ]
    rw [File.segments] at served ⊢
    generalize file.header off = header at served ⊢
    cases header with
    | none => exact giveUp
    | some ph =>
      generalize (off + 32) % 2 ^ 32 = off' at served ⊢
      by_cases other : ph.type ≠ elfProgLoad
      · simp only [if_pos other] at served ⊢
        exact ih space served
      by_cases small : ph.memsz < ph.filesz
      · simp only [if_neg other, if_pos small]
        exact giveUp
      simp only [if_neg other, if_neg small] at served ⊢
      exact segment_spec space served (fun sz => loadSegments_logs file count off' sz)
        fun space' served' => ih space' served'

/-! ## The stack -/

/-- `uva2ka` for an address of the image. -/
theorem uva2ka_spec {va : Nat} (inside : va / pgsize < pages sz) :
    Wp (uva2ka nullWord d va) (fun _ => False) (fun r s' => s' = s ∧
      ∀ p, r = some p → V.role p = .user d (va / pgsize)) s := by
  have top := pages_le space.low
  have index : pdx va = va / pgsize / 1024 := by
    unfold pgsize at inside
    unfold pdx pgsize
    omega
  have entry : ptx va = va / pgsize % 1024 := by
    unfold ptx pgsize
    omega
  unfold uva2ka
  apply (walkpgdir_spec space.models space.directory).always
  rw [index, entry]
  rintro (_ | ⟨t, j⟩) s₁ ⟨rfl, found⟩
  · have has := spaceTables_of_lt inside
    rw [← space.tables, Machine.tables, found] at has
    cases has
  · obtain ⟨table, rfl⟩ := found
    have user := (space.entry table inside).2
    simp only [wp_bind, wp_get]
    split
    · exact ⟨rfl, by simp⟩
    · split
      · exact ⟨rfl, by simp⟩
      · refine ⟨rfl, ?_⟩
        intro p isTarget
        cases isTarget
        exact user

/-- `copyout` within the image. -/
theorem copyLoopOut_spec {fuel va : Nat} {bytes : List UInt8}
    (inside : va + bytes.length ≤ pages sz * pgsize) :
    Wp (copyLoopOut nullWord d fuel va bytes) (fun _ => False) (fun _ s' =>
      Filled link d sz s V s') s := by
  have top := pages_le space.low
  induction fuel generalizing va bytes s with
  | zero => exact .refl space
  | succ fuel ih =>
    rw [copyLoopOut]
    split
    · exact .refl space
    · rename_i some
      have positive : 0 < bytes.length := List.length_pos_of_ne_nil some
      have start : pgrounddown va = va / pgsize * pgsize := rfl
      have samePage : va / pgsize * pgsize / pgsize = va / pgsize :=
        Nat.mul_div_cancel _ (by decide)
      have inside' : va / pgsize < pages sz := by
        unfold pgsize at inside ⊢
        omega
      dsimp only
      rw [start]
      apply (uva2ka_spec space (by rw [samePage]; exact inside')).always
      rintro (_ | p) s₁ ⟨rfl, found⟩
      · exact .refl space
      · have user := found p rfl
        have managed := (space.models.managed p (by simp [user])).2
        simp only
        rw [if_neg (by omega)]
        simp only [wp_bind, wp_modify]
        apply (ih (space.setPage user _) ?_).imp
        · exact fun _ s' filled => (space.filled user _).trans filled
        · rw [List.length_drop]
          unfold pgsize at inside inside' ⊢
          omega

omit space in
theorem pages_pgroundup (low : sz ≤ kernbase) : pages (pgroundup sz) = pages sz := by
  rw [pgroundup_eq low]
  unfold pages pgsize
  omega

omit space in
theorem Contiguous.roundup (image : Contiguous V d sz) : Contiguous V d (pgroundup sz) := by
  refine ⟨image.directory, ?_, ?_⟩
  · have top := pages_le image.low
    rw [pgroundup_eq image.low]
    unfold kernbase pgsize
    omega
  · intro v
    rw [image.mapped, pages_pgroundup image.low]

theorem Space.roundup : Space link d (pgroundup sz) s V := by
  refine ⟨space.toContiguous.roundup, space.models, ?_, space.kernel⟩
  rw [space.tables]
  funext i
  rw [spaceTables, spaceTables, pages_pgroundup space.low]

end

/-- What the stack of a program asks for. -/
def stackDemand (sz : Nat) : List Request :=
  allocDemand (spaceTables (pgroundup sz)) (pgroundup sz) (pgroundup sz + 2 * pgsize)

/-- How far below the address 0 `copyout` refuses to write: the devices have page tables, and
an address without one is refused if the word at the address 0 is no entry for the user. -/
def reach (nullWord : Nat) : Nat :=
  if isPresent nullWord && isUser nullWord then 2 ^ 25 else 2 ^ 31

/-- No argument string reaches further down from the stack page of an image of the size. -/
def ArgsFit (nullWord : Nat) (argv : List (List UInt8)) (sz : Nat) : Prop :=
  ∀ arg ∈ argv, arg.length + 1 ≤ sz - pgsize + reach nullWord

theorem length_flatMap_wordBytes (words : List Nat) :
    (words.flatMap wordBytes).length = 4 * words.length := by
  induction words with
  | nil => rfl
  | cons w words ih =>
    rw [List.flatMap_cons, List.length_append, ih, List.length_cons]
    simp only [wordBytes, List.length_map, List.length_range]
    omega

theorem makeStack_logs : Logs (link.makeStack d sz) := by
  unfold Link.makeStack
  dsimp only
  generalize pgroundup sz = top
  generalize (top + 2 * pgsize) % 2 ^ 32 = newsz
  refine Logs.bind (allocuvm_logs top newsz) fun size => ?_
  split
  · exact Logs.pure _
  · exact Logs.bind (clearpteu_logs _) fun _ => Logs.pure _

theorem copyArgs_logs (nullWord : Nat) (argv : List (List UInt8)) :
    Logs (Link.copyArgs nullWord d argv sz) := by
  unfold Link.copyArgs
  apply Logs.bind (pushArgs_logs _ _ _ _ _)
  rintro (_ | ⟨pushed, sp⟩)
  · exact Logs.pure _
  · refine Logs.bind (copyLoopOut_logs _ _ _ _) fun copied => ?_
    split
    · exact Logs.pure _
    · exact Logs.pure _

/-- The two pages of the stack: only the upper one is for the user. -/
structure Guarded (link : Link) (d sz : Nat) (s : Machine) (V : View) : Prop
    extends Space link d sz s V where
  whole : pages sz * pgsize = sz
  two : 2 ≤ pages sz
  guard : isUser (s.entry d (pages sz - 2)) = false
  stack : isUser (s.entry d (pages sz - 1)) = true

theorem Backed.isUser {words : Nat → Nat} (backed : Backed d v (pteW ||| pteU) words V s) :
    isUser (s.entry d v) = true := by
  obtain ⟨p, -, entry, -⟩ := backed
  have flags : p * pgsize ||| (pteW ||| pteU ||| pteP) = 2 ^ 12 * p + 7 := by
    rw [Nat.two_pow_add_eq_or_of_lt (by decide), Nat.mul_comm]
    rfl
  rw [entry, flags, Vm.isUser, decide_eq_true_eq]
  omega

theorem makeStack_spec (space : Space link d sz s V)
    (served : (s.supply V).firstRefused (stackDemand sz) ≠ some .userTable) :
    Wp (link.makeStack d sz) (fun _ => False) (fun r s' => ∃ V', Enlarged link d s V s' V' ∧
      match r with
      | none => kernbase ≤ pgroundup sz + 2 * pgsize ∨
          (s.supply V).firstRefused (stackDemand sz) ≠ none
      | some size => (s.supply V).firstRefused (stackDemand sz) = none ∧
          size = pgroundup sz + 2 * pgsize ∧ size < kernbase ∧ Guarded link d size s' V') s := by
  have rounded := space.roundup
  have low := rounded.low
  have round := pgroundup_eq space.low
  have noWrap : (pgroundup sz + 2 * pgsize) % 2 ^ 32 = pgroundup sz + 2 * pgsize := by
    unfold kernbase at low
    unfold pgsize
    omega
  unfold Link.makeStack
  unfold stackDemand at served ⊢
  dsimp only
  rw [noWrap]
  generalize pgroundup sz = top at *
  generalize isTop : top + 2 * pgsize = newsz at *
  apply (allocuvm_image rounded served).always
  rintro size s₁ ⟨V₁, enlarged₁, ⟨lowSize, granted, isMax, space₁, backed, -⟩ | ⟨why, rfl⟩⟩
  · have isSize : size = newsz := by
      rw [isMax]
      exact max_eq_right (by omega)
    rw [← isMax, isSize] at space₁
    subst isSize
    have count : pages size * pgsize = size := by
      rw [← isTop, round]
      unfold pages pgsize
      omega
    have guard : (size + 2 ^ 32 - 2 * pgsize) % 2 ^ 32 = top := by
      unfold kernbase at low
      unfold pgsize at isTop ⊢
      omega
    have guardPage : top / pgsize = pages size - 2 := by
      unfold pgsize at *
      omega
    have two : 2 ≤ pages size := by
      unfold pgsize at *
      omega
    rw [if_neg (by unfold pgsize at isTop; omega), guard]
    apply (clearpteu_spec space₁.models space₁.directory (by unfold kernbase at low; omega)).bind
    · intro _ missing
      have has := spaceTables_of_lt (show top / pgsize < pages size by omega)
      rw [← space₁.tables, missing] at has
      cases has
    rintro _ s₂ cut
    have below := pages_le space₁.low
    refine ⟨V₁, enlarged₁.trans (.of_edited cut.toEdited Extends.refl), granted, rfl, lowSize,
      ⟨space₁.toContiguous, cut.models, cut.tables.trans space₁.tables, ?_⟩, count, two, ?_, ?_⟩
    · exact space₁.kernel.congr fun v kernel high => cut.entry v high (by omega)
    · rw [← guardPage]
      exact cut.not_user
    · rw [cut.entry _ (by omega) (by omega)]
      refine (backed _ ?_ (by omega)).isUser
      rw [round]
      unfold pages pgsize at *
      omega
  · rw [if_pos rfl]
    exact ⟨V₁, enlarged₁, why⟩

end Xv6.Vm
