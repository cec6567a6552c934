import Xv6.Vm.Arguments

/-!
# The safety of `exec`

`exec` is safe for a file when the segments that it reaches can be loaded: they are aligned
and every piece that is read goes to a page of the image.  Neither is checked, and the sum of
`vaddr` and `memsz` may wrap, so that a file can make the kernel panic or have itself
loaded over the kernel.
-/

namespace Xv6.Vm

open Stateful

variable {link : Link} {s s' : Machine} {V V' V₁ : View} {d q v sz : Nat} {k : Supply} {file : File}
  {elf : Elfhdr} {ph : Proghdr}

/-! ## What a file asks for -/

/-- The size of the image without the stack, if every request is granted. -/
def File.size (file : File) : Option Nat :=
  file.elf.bind fun elf =>
    if (file.segments elf.phnum elf.phoff).2 then
      segmentSize file 0 (file.segments elf.phnum elf.phoff).1
    else none

/-- What `exec` asks for before the stack. -/
def Link.loadDemand (link : Link) (file : File) : List Request :=
  match file.elf with
  | none => []
  | some elf => link.setupDemand ++ segmentDemand file 0 (file.segments elf.phnum elf.phoff).1

/-- What `exec` asks for, if every request is granted. -/
def Link.execDemand (link : Link) (file : File) : List Request :=
  link.loadDemand file ++
    match file.size with
    | none => []
    | some sz => stackDemand sz

/-- The segments of the file that are reached can be loaded. -/
def Link.Loadable (link : Link) (file : File) (k : Supply) : Prop :=
  match file.elf with
  | none => True
  | some elf => k.firstRefused link.setupDemand = none →
      SegmentsLoadable file (k.after link.setupDemand.length) 0
        (file.segments elf.phnum elf.phoff).1

/-- The arguments are not too long for the image, if there is one. -/
def File.TakesArgs (file : File) (nullWord : Nat) (argv : List (List UInt8)) : Prop :=
  ∀ sz, file.size = some sz → ArgsFit nullWord argv (pgroundup sz + 2 * pgsize)

/-- The segments are page aligned and do not wrap around. -/
def File.Aligned (file : File) : Prop :=
  ∀ elf, file.elf = some elf → ∀ ph ∈ (file.segments elf.phnum elf.phoff).1,
    ph.vaddr % pgsize = 0 ∧ ph.vaddr + ph.memsz < 2 ^ 32

/-! ### Aligned files -/

theorem File.filesz_le_of_mem {count off : Nat} (member : ph ∈ (file.segments count off).1) :
    ph.filesz ≤ ph.memsz := by
  induction count generalizing off with
  | zero => cases member
  | succ count ih =>
    rw [File.segments] at member
    split at member
    · cases member
    · dsimp only at member
      split at member
      · exact ih member
      · split at member
        · cases member
        · rename_i large
          rcases List.mem_cons.mp member with rfl | later
          · omega
          · exact ih later

theorem Proghdr.page_lt_pages {piece : Nat} (noWrap : ph.vaddr + ph.memsz < 2 ^ 32)
    (small : ph.filesz ≤ ph.memsz) (below : piece < pages ph.filesz) :
    ph.page piece < pages ph.top := by
  rw [lt_pages_iff] at below ⊢
  have inRange : ph.vaddr + piece * pgsize < ph.vaddr + ph.memsz := by omega
  rw [Proghdr.top, Nat.mod_eq_of_lt noWrap, Proghdr.page, Nat.mod_eq_of_lt (inRange.trans noWrap)]
  exact (Nat.div_mul_le_self _ _).trans_lt inRange

/-- An aligned segment can be loaded. -/
theorem Proghdr.loadable_of_aligned (aligned : ph.vaddr % pgsize = 0)
    (noWrap : ph.vaddr + ph.memsz < 2 ^ 32) (small : ph.filesz ≤ ph.memsz) :
    ph.Loadable file (max sz ph.top) := by
  refine ⟨aligned, fun piece below _ _ => ?_⟩
  have inside : ph.page piece < pages (max sz ph.top) :=
    lt_of_lt_of_le (ph.page_lt_pages noWrap small below)
      (pages_mono (Nat.le_max_right sz ph.top))
  unfold Proghdr.Fits
  split
  · exact inside
  · exact spaceTables_of_lt inside

theorem segmentsLoadable_of_aligned {segments : List Proghdr}
    (aligned : ∀ ph ∈ segments, ph.vaddr % pgsize = 0 ∧ ph.vaddr + ph.memsz < 2 ^ 32)
    (small : ∀ ph ∈ segments, ph.filesz ≤ ph.memsz) : SegmentsLoadable file k sz segments := by
  induction segments generalizing k sz with
  | nil => trivial
  | cons ph rest ih =>
    rw [List.forall_mem_cons] at aligned small
    intro _ _
    exact ⟨Proghdr.loadable_of_aligned aligned.1.1 aligned.1.2 small.1,
      fun _ => ih aligned.2 small.2⟩

theorem File.Aligned.loadable (aligned : file.Aligned) : link.Loadable file k := by
  unfold Link.Loadable
  split
  · trivial
  · rename_i elf isElf
    exact fun _ => segmentsLoadable_of_aligned (aligned elf isElf) fun _ => File.filesz_le_of_mem

/-- The piece went to a page that was free, through a present entry of the user half of
a new directory. -/
structure Load.Fresh (l : Load) (V : View) : Prop where
  pgdir : V.role l.pgdir = .free
  present : isPresent l.pte = true
  low : l.va < kernbase
  wasFree : V.role (target l.pte) = .free

/-- All new pieces went to pages that were free. -/
def Fresh (V : View) (s s' : Machine) : Prop :=
  ∃ new, s'.loads = new ++ s.loads ∧ ∀ l ∈ new, l.Fresh V

theorem Fresh.of_eq (same : s'.loads = s.loads) : Fresh V s s' :=
  ⟨[], same, by simp⟩

theorem Landed.fresh (landed : Landed V₁ d s s') (owned : Owned d V V₁) (models : Models link s V)
    (models₁ : Models link s' V₁) (directory : V₁.role d = .directory) : Fresh V s s' := by
  obtain ⟨new, loads, landed⟩ := landed
  refine ⟨new, loads, ?_⟩
  intro l member
  obtain ⟨rfl, -, -, present, user⟩ := landed l member
  have low := (models₁.of_user _ _ _ user).1
  constructor
  · exact owned.wasFree
  · exact present
  · unfold pgsize at low
    unfold kernbase
    omega
  · apply owned.wasFree_of_owner models
    · rw [user]
      rfl
    · intro same
      rw [same, directory] at user
      cases user

/-- The pages that were in use show the same words. -/
def Unharmed (V : View) (s s' : Machine) : Prop :=
  ∀ q, V.role q ≠ .free → V.role q ≠ .held → s'.mem q = s.mem q

/-- A directory has been made out of free pages, and perhaps an image in it. -/
structure Begun (link : Link) (d : Nat) (s : Machine) (V : View) (s' : Machine) (V' : View) :
    Prop where
  models : Models link s' V'
  directory : V'.role d = .directory
  owned : Owned d V V'
  landed : Landed V' d s s'
  unharmed : Unharmed V s s'

theorem NewSpace.begun (new : NewSpace link d s V s' V') : Begun link d s V s' V' :=
  ⟨new.models, new.directory, new.owned, Landed.of_eq new.loads,
    fun q notFree notHeld => (new.spared q notFree notHeld).2⟩

theorem Begun.enlarged {s₁ : Machine} (begun : Begun link d s V s₁ V₁) (models : Models link s V)
    (enlarged : Enlarged link d s₁ V₁ s' V') : Begun link d s V s' V' where
  models := enlarged.models
  directory := enlarged.ext.directory begun.directory
  owned := begun.owned.extends enlarged.ext
  landed := (begun.landed.mono enlarged.ext.user).trans enlarged.landed
  unharmed q notFree notHeld := by
    have kept := models.kept (R := fun _ => True) (d := d) (by simp [begun.owned.wasFree])
      notFree notHeld
    rw [← begun.unharmed q notFree notHeld]
    apply enlarged.mem q (begun.owned.ne notFree)
    rw [begun.owned.keeps notFree]
    exact kept

/-- What is known after `execImage`. -/
inductive ExecDone (link : Link) (V : View) (s s' : Machine) (V' : View)
    (fate : Option Request) : Option (Nat × Nat) → Prop
  | image {d sz : Nat} : fate = none → Space link d sz s' V' → pages sz * pgsize = sz →
      Begun link d s V s' V' → ExecDone link V s s' V' fate (some (d, sz))
  | undone : fate ≠ some .kernelTable → (∀ q, V'.role q = V.role q) → Fresh V s s' →
      Unharmed V s s' → ExecDone link V s s' V' fate none
  | lost : fate = some .kernelTable → Lost V V' → (∃ q, V.role q = .free ∧ V'.role q = .held) →
      s'.loads = s.loads → Unharmed V s s' → ExecDone link V s s' V' fate none

variable {start : Machine} {has : Nat → Bool}
  {argv : List (List UInt8)} {nullWord old : Nat} {proc : Proc}

/-- A failure after `setupkvm`: the directory is freed. -/
theorem freevm_undoes {fate : Option Request} (models : Models link start V)
    (begun : Begun link d start V s V₁) (notTable : fate ≠ some .kernelTable) :
    Wp (do link.freevm d; return (none : Option (Nat × Nat))) (fun _ => False) (fun r s' =>
      r = none ∧ ∃ V', Models link s' V' ∧ ExecDone link V start s' V' fate none) s := by
  apply (freevm_spec begun.models begun.directory).seq
  rintro _ s' ⟨V', edited, roles⟩
  refine ⟨rfl, V', edited.models, .undone notTable ?_ ?_ ?_⟩
  · intro q
    rw [roles, begun.owned.erase_eq models]
  · obtain ⟨new, isNew, fresh⟩ :=
      begun.landed.fresh begun.owned models begun.models begun.directory
    exact ⟨new, edited.loads.trans isNew, fresh⟩
  · intro q notFree notHeld
    rw [← begun.unharmed q notFree notHeld]
    apply (edited.spared q (begun.owned.ne notFree) _).2
    rw [begun.owned.keeps notFree]
    exact models.kept (by simp [begun.owned.wasFree]) notFree notHeld

/-- The user half asks for no tables of the kernel's half. -/
theorem Supply.firstRefused_mem {k : Supply} {requests : List Request} {r : Request}
    (refused : k.firstRefused requests = some r) : r ∈ requests := by
  induction requests generalizing k with
  | nil => cases refused
  | cons first rest ih =>
    rw [Supply.firstRefused] at refused
    split at refused
    · cases refused
      exact List.mem_cons_self
    · exact List.mem_cons_of_mem _ (ih refused)

theorem kernelTable_notMem_demand {n : Nat} (low : v + n ≤ 2 ^ 19) :
    .kernelTable ∉ Vm.demand [.data] has v n := by
  induction n generalizing v has with
  | zero => exact List.not_mem_nil
  | succ n ih =>
    have user : tableRequest v = .userTable := tableRequest_user (by omega)
    rw [Vm.demand, List.mem_append, List.mem_append, not_or, not_or]
    refine ⟨⟨by simp, ?_⟩, ih (by omega)⟩
    unfold pageDemand
    rw [user]
    split <;> simp

theorem kernelTable_notMem_allocDemand {oldsz newsz : Nat} :
    .kernelTable ∉ allocDemand has oldsz newsz := by
  unfold allocDemand
  split
  · exact List.not_mem_nil
  · rename_i early
    have top : pages newsz ≤ 2 ^ 19 := pages_le (by omega)
    have more : pages oldsz ≤ pages newsz := pages_mono (by omega)
    exact kernelTable_notMem_demand (by omega)

theorem kernelTable_notMem_segmentDemand {segments : List Proghdr} :
    .kernelTable ∉ segmentDemand file sz segments := by
  induction segments generalizing sz with
  | nil => exact List.not_mem_nil
  | cons ph rest ih =>
    rw [segmentDemand]
    split
    · exact List.not_mem_nil
    · rw [List.mem_append, not_or]
      refine ⟨kernelTable_notMem_allocDemand, ?_⟩
      split
      · exact ih
      · exact List.not_mem_nil

/-! ### The two parts of the demand -/

theorem served_load (served : k.firstRefused (link.execDemand file) ≠ some .userTable) :
    k.firstRefused (link.loadDemand file) ≠ some .userTable := by
  intro refused
  rw [Link.execDemand, Supply.firstRefused_append, refused] at served
  exact served rfl

theorem firstRefused_exec_of_size (isSize : file.size = some sz)
    (granted : k.firstRefused (link.loadDemand file) = none) :
    k.firstRefused (link.execDemand file) =
      (k.after (link.loadDemand file).length).firstRefused (stackDemand sz) := by
  rw [Link.execDemand, isSize, Supply.firstRefused_append, granted, Option.none_or]

theorem firstRefused_exec_of_none
    (noSize : k.firstRefused (link.loadDemand file) = none → file.size = none) :
    k.firstRefused (link.execDemand file) = k.firstRefused (link.loadDemand file) := by
  rw [Link.execDemand, Supply.firstRefused_append]
  cases fate : k.firstRefused (link.loadDemand file) with
  | none =>
    rw [noSize fate]
    rfl
  | some r => rfl

/-- What is known when the file is closed. -/
inductive Loaded (link : Link) (file : File) (V : View) (s s' : Machine) (V' : View) :
    Option (Nat × Nat) → Prop
  | image {d sz : Nat} : file.size = some sz → Begun link d s V s' V' → Space link d sz s' V' →
      (s.supply V).firstRefused (link.loadDemand file) = none →
      s'.supply V' = (s.supply V).after (link.loadDemand file).length →
      Loaded link file V s s' V' (some (d, sz))
  | failed : Models link s' V' →
      ExecDone link V s s' V' ((s.supply V).firstRefused (link.loadDemand file)) none →
      ((s.supply V).firstRefused (link.loadDemand file) = none → file.size = none) →
      Loaded link file V s s' V' none

/-- The segments after `setupkvm`. -/
theorem segments_spec (isElf : file.elf = some elf) (models : Models link start V)
    (setup : (start.supply V).firstRefused link.setupDemand = none)
    (new : NewSpace link d start V s V₁)
    (served : (s.supply V₁).firstRefused (segmentDemand file 0
      (file.segments elf.phnum elf.phoff).1) ≠ some .userTable) :
    Wp (do
      match ← link.loadSegments d file elf.phnum elf.phoff 0 with
      | none =>
        link.freevm d
        return none
      | some sz => return some (d, sz))
      (fun _ => ¬ SegmentsLoadable file (s.supply V₁) 0 (file.segments elf.phnum elf.phoff).1)
      (fun r s' =>
        (SegmentsLoadable file (s.supply V₁) 0 (file.segments elf.phnum elf.phoff).1 ∧
          ∃ V', Loaded link file V start s' V' r) ∨
        (¬ SegmentsLoadable file (s.supply V₁) 0 (file.segments elf.phnum elf.phoff).1 ∧
          Strayed start s')) s := by
  have isSize := File.size.eq_def file
  have isDemand := Link.loadDemand.eq_def link file
  rw [isElf] at isSize isDemand
  dsimp only [Option.bind_some] at isSize isDemand
  have segmentsSpec := loadSegments_spec (Space.of_new new models) served
  generalize file.segments elf.phnum elf.phoff = segments at *
  have fate : (start.supply V).firstRefused (link.loadDemand file) =
      (s.supply V₁).firstRefused (segmentDemand file 0 segments.1) := by
    rw [isDemand, Supply.firstRefused_append, setup, Option.none_or, new.supply]
  have notKernel : (start.supply V).firstRefused (link.loadDemand file) ≠ some .kernelTable := by
    rw [fate]
    exact fun refused => kernelTable_notMem_segmentDemand (Supply.firstRefused_mem refused)
  apply segmentsSpec.seq
  rintro r s₂ (⟨loadable, V₂, enlarged, done⟩ | ⟨notLoadable, strayed⟩)
  · have begun := new.begun.enlarged models enlarged
    have leave := freevm_undoes models begun notKernel
    cases done with
    | rejected _ why =>
      apply leave.mono (fun _ => False.elim)
      rintro _ s' ⟨rfl, V', models', done⟩
      refine .inl ⟨loadable, V', .failed models' done fun _ => ?_⟩
      rw [isSize]
      rcases why with notAll | noSize
      · rw [notAll]
        rfl
      · rw [noSize, ite_self]
    | refused why =>
      apply leave.mono (fun _ => False.elim)
      rintro _ s' ⟨rfl, V', models', done⟩
      exact .inl ⟨loadable, V', .failed models' done fun none => absurd (fate.symm.trans none) why⟩
    | @loaded size isAll isSome granted space₂ supply₂ =>
      rw [isAll, if_pos rfl, isSome] at isSize
      refine .inl ⟨loadable, V₂, .image isSize begun space₂ (fate.trans granted) ?_⟩
      rw [supply₂, new.supply, Supply.after_after, isDemand, List.length_append]
  · -- whatever follows, the piece has been stored
    have strayed : Strayed start s₂ := strayed.earlier (by rw [new.loads])
    cases r with
    | none =>
      have logs : Logs (do link.freevm d; return none : VmM (Option (Nat × Nat))) :=
        Logs.bind (freevm_logs d) fun _ => Logs.pure _
      apply (logs s₂).mono (fun _ _ => notLoadable)
      intro _ s' grow
      exact .inr ⟨notLoadable, strayed.later grow⟩
    | some sz => exact .inr ⟨notLoadable, strayed⟩

theorem loadImage_spec (models : Models link s V)
    (served : (s.supply V).firstRefused (link.loadDemand file) ≠ some .userTable) :
    Wp (link.loadImage file) (fun _ => ¬ link.Loadable file (s.supply V))
      (fun r s' =>
        (link.Loadable file (s.supply V) ∧ ∃ V', Loaded link file V s s' V' r) ∨
        (¬ link.Loadable file (s.supply V) ∧ Strayed s s')) s := by
  have isDemand := Link.loadDemand.eq_def link file
  unfold Link.loadImage Link.Loadable
  cases isElf : file.elf with
  | none =>
    refine .inl ⟨trivial, V, .failed models ?_ fun _ => by rw [File.size, isElf]; rfl⟩
    rw [isDemand, isElf]
    exact .undone (by exact nofun) (fun _ => rfl) (Fresh.of_eq rfl) fun _ _ _ => rfl
  | some elf =>
    rw [isElf] at isDemand
    dsimp only at isDemand ⊢
    rw [isDemand, Supply.firstRefused_append] at served
    apply (setupkvm_spec models).always
    rintro (_ | d) s₁ result
    · obtain ⟨V', preserved, lost, fate⟩ := result
      have unharmed : Unharmed V s s₁ := fun q notFree notHeld =>
        (preserved.spared q notFree notHeld).2
      refine .inl ⟨fun granted => ?_, V', .failed preserved.models ?_ fun granted => ?_⟩
      · rcases fate with ⟨refused, -⟩ | ⟨refused, -⟩ <;> cases granted.symm.trans refused
      · rw [isDemand, Supply.firstRefused_append]
        rcases fate with ⟨refused, rfl⟩ | ⟨refused, leak⟩
        · rw [refused]
          exact .undone (by simp) (fun _ => rfl) (Fresh.of_eq preserved.loads) unharmed
        · rw [refused]
          exact .lost rfl lost leak preserved.loads unharmed
      · rw [isDemand, Supply.firstRefused_append] at granted
        rcases fate with ⟨refused, -⟩ | ⟨refused, -⟩ <;> simp [refused] at granted
    · obtain ⟨granted, V₁, new⟩ := result
      rw [granted, Option.none_or, ← new.supply] at served
      simp only [granted, true_implies, ← new.supply]
      exact segments_spec isElf models granted new served

/-- The stack after the segments. -/
theorem stackImage_spec (models : Models link start V) (begun : Begun link d start V s V₁)
    (space : Space link d sz s V₁)
    (served : (s.supply V₁).firstRefused (stackDemand sz) ≠ some .userTable)
    (fit : ArgsFit nullWord argv (pgroundup sz + 2 * pgsize)) :
    Wp (link.stackImage nullWord d argv sz) (fun _ => False) (fun r s' =>
      ∃ V', Models link s' V' ∧ ExecDone link V start s' V'
          ((s.supply V₁).firstRefused (stackDemand sz)) (r.map fun image => (d, image.1)) ∧
        (r.isSome ↔ (s.supply V₁).firstRefused (stackDemand sz) = none ∧
          pgroundup sz + 2 * pgsize < kernbase ∧ Room argv) ∧
        ∀ size sp, r = some (size, sp) → ∃ before,
          (link.makeStack d sz).run s = .ok (some size, before) ∧
          (Link.copyArgs nullWord d argv size).run before = .ok (some sp, s') ∧
          size = pgroundup sz + 2 * pgsize ∧ Guarded link d size before V') s := by
  have notKernel : (s.supply V₁).firstRefused (stackDemand sz) ≠ some .kernelTable :=
    fun refused => kernelTable_notMem_allocDemand (Supply.firstRefused_mem refused)
  unfold Link.stackImage
  apply ((makeStack_spec space served).and Wp.self).bind (fun _ stop => stop.1)
  rintro (_ | size) s₁ ⟨⟨V₂, enlarged, ending⟩, made⟩
  · apply (freevm_undoes models (begun.enlarged models enlarged) notKernel).imp
    rintro _ s' ⟨rfl, V', models', undone⟩
    refine ⟨V', models', undone, iff_of_false nofun ?_, nofun⟩
    rintro ⟨granted, low, -⟩
    rcases ending with high | refused
    · omega
    · exact refused granted
  · obtain ⟨granted, isSize, low, guarded⟩ := ending
    apply ((copyArgs_places guarded (isSize ▸ fit)).and Wp.self).bind
      (fun _ stop => stop.1)
    rintro (_ | sp) s₂ ⟨⟨filled, returned, -⟩, copied⟩
    · apply (freevm_undoes models (begun.enlarged models (enlarged.trans filled.enlarged))
        notKernel).imp
      rintro _ s' ⟨rfl, V', models', undone⟩
      refine ⟨V', models', undone, iff_of_false nofun fun all => ?_, nofun⟩
      cases returned.mpr all.2.2
    · refine ⟨V₂, filled.space.models, .image granted filled.space guarded.whole
        (begun.enlarged models (enlarged.trans filled.enlarged)),
        iff_of_true rfl ⟨granted, isSize ▸ low, returned.mp rfl⟩, fun size' sp' isResult => ?_⟩
      cases isResult
      exact ⟨s₁, made, copied, isSize, guarded⟩

theorem stackImage_logs (nullWord : Nat) (argv : List (List UInt8)) :
    Logs (link.stackImage nullWord d argv sz) := by
  have leave : Logs (do link.freevm d; return none : VmM (Option (Nat × Nat))) :=
    Logs.bind (freevm_logs d) fun _ => Logs.pure _
  unfold Link.stackImage
  refine Logs.bind makeStack_logs fun made => ?_
  rcases made with _ | size
  · exact leave
  · refine Logs.bind (copyArgs_logs _ _) fun copied => ?_
    rcases copied with _ | sp
    · exact leave
    · exact Logs.pure _

theorem execImage_spec (models : Models link s V)
    (served : (s.supply V).firstRefused (link.execDemand file) ≠ some .userTable)
    (args : file.TakesArgs nullWord argv) :
    Wp (link.execImage nullWord file argv) (fun _ => ¬ link.Loadable file (s.supply V))
      (fun r s' =>
        (link.Loadable file (s.supply V) ∧ ∃ V', Models link s' V' ∧
          ExecDone link V s s' V' ((s.supply V).firstRefused (link.execDemand file)) r) ∨
        (¬ link.Loadable file (s.supply V) ∧ Strayed s s')) s := by
  unfold Link.execImage
  apply (loadImage_spec models (served_load served)).seq
  rintro r s₁ (⟨loadable, V₁, loaded⟩ | ⟨notLoadable, strayed⟩)
  · cases loaded with
    | failed models₁ done noSize =>
      rw [firstRefused_exec_of_none noSize]
      exact .inl ⟨loadable, V₁, models₁, done⟩
    | image isSize begun space granted supply =>
      rw [firstRefused_exec_of_size isSize granted, ← supply] at served ⊢
      apply (stackImage_spec models begun space served (args _ isSize)).bind
        (fun _ => False.elim)
      rintro (_ | ⟨size, sp⟩) s' ⟨V', models', done, -⟩
      · exact .inl ⟨loadable, V', models', done⟩
      · exact .inl ⟨loadable, V', models', done⟩
  · cases r with
    | none => exact .inr ⟨notLoadable, strayed⟩
    | some image =>
      apply (stackImage_logs nullWord argv s₁).bind (fun _ _ => notLoadable)
      rintro (_ | ⟨size, sp⟩) s' grow
      · exact .inr ⟨notLoadable, strayed.later grow⟩
      · exact .inr ⟨notLoadable, strayed.later grow⟩

/-- The directory `old` has been replaced by a new one with an image. -/
structure Replaced (old d sz : Nat) (V V' : View) : Prop where
  wasFree : V.role d = .free
  image : Contiguous V' d sz
  whole : pages sz * pgsize = sz
  roles : ∀ q ≠ d, (V'.role q).owner = some d ∧ V.role q = .free ∨ V'.role q = V.erase old q

/-- Freeing another directory leaves the pages of the image. -/
theorem Owned.erase_other (owned : Owned d V V₁) (isOld : V.role old = .directory)
    (isOwner : (V₁.role q).owner = some d) : V₁.erase old q = V₁.role q := by
  have isOld₁ : V₁.role old = .directory := by rw [owned.keeps (by simp [isOld]), isOld]
  have different : old ≠ d := owned.ne (by simp [isOld])
  rw [View.erase, if_neg]
  rintro (rfl | isOwner')
  · rw [isOld₁] at isOwner
    cases isOwner
  · rw [isOwner] at isOwner'
    cases isOwner'
    exact different rfl

theorem Space.replaced (space : Space link d sz s V₁) (owned : Owned d V V₁)
    (isOld : V.role old = .directory) (whole : pages sz * pgsize = sz)
    (roles : ∀ q, V'.role q = V₁.erase old q) : Replaced old d sz V V' := by
  have different : old ≠ d := owned.ne (by simp [isOld])
  refine ⟨owned.wasFree, ⟨?_, space.low, ?_⟩, whole, ?_⟩
  · rw [roles, View.erase, space.directory, if_neg (by simp [different.symm, Role.owner])]
  · intro v
    rw [← space.mapped]
    constructor
    · rintro ⟨q, user⟩
      rw [roles, View.erase] at user
      split at user
      · cases user
      · exact ⟨q, user⟩
    · rintro ⟨q, user⟩
      exact ⟨q, by rw [roles, owned.erase_other isOld (by rw [user]; rfl), user]⟩
  · intro q notSelf
    rcases owned.roles q notSelf with same | ⟨isFree, isOwner⟩
    · apply Or.inr
      rw [roles, View.erase, View.erase, same]
    · exact .inl ⟨by rw [roles, owned.erase_other isOld isOwner, isOwner], isFree⟩

/-- The pieces are where the new directory has them. -/
theorem Landed.replaced (landed : Landed V₁ d s s') (owned : Owned d V V₁)
    (isOld : V.role old = .directory) (roles : ∀ q, V'.role q = V₁.erase old q) :
    Landed V' d s s' := by
  apply landed.mono
  intro q v user
  rw [roles, owned.erase_other isOld (by rw [user]; rfl), user]

/-- What is known after `exec`. -/
inductive ExecEnd (link : Link) (proc : Proc) (V : View) (s s' : Machine) (V' : View)
    (fate : Option Request) : Option Proc → Prop
  | replaced {d sz : Nat} : fate = none → Replaced proc.pgdir d sz V V' → Landed V' d s s' →
      ExecEnd link proc V s s' V' fate (some { proc with pgdir := d, sz := sz })
  | failed : ExecDone link V s s' V' fate none → ExecEnd link proc V s s' V' fate none

theorem exec_spec (models : Models link s V) (isDirectory : V.role proc.pgdir = .directory)
    (served : (s.supply V).firstRefused (link.execDemand file) ≠ some .userTable)
    (args : file.TakesArgs nullWord argv) :
    Wp (link.exec nullWord file argv proc) (fun _ => ¬ link.Loadable file (s.supply V))
      (fun r s' =>
        (link.Loadable file (s.supply V) ∧ ∃ V', Models link s' V' ∧
          ExecEnd link proc V s s' V' ((s.supply V).firstRefused (link.execDemand file)) r) ∨
        (¬ link.Loadable file (s.supply V) ∧ Strayed s s')) s := by
  unfold Link.exec
  apply (execImage_spec models served args).seq
  rintro r s₁ (⟨loadable, V₁, models₁, done⟩ | ⟨notLoadable, strayed⟩)
  · cases r with
    | none => exact .inl ⟨loadable, V₁, models₁, .failed done⟩
    | some image =>
      cases done with
      | @image d sz granted space whole begun =>
        have owned := begun.owned
        have isDirectory₁ : V₁.role proc.pgdir = .directory := by
          rw [owned.keeps (by simp [isDirectory]), isDirectory]
        apply (freevm_spec models₁ isDirectory₁).always
        rintro _ s' ⟨V', edited, roles⟩
        refine .inl ⟨loadable, V', edited.models, .replaced granted ?_ ?_⟩
        · exact space.replaced owned isDirectory whole roles
        · exact (begun.landed.replaced owned isDirectory roles).trans (Landed.of_eq edited.loads)
  · cases r with
    | none => exact .inr ⟨notLoadable, strayed⟩
    | some image =>
      refine Wp.mono (Logs.bind (freevm_logs _) (fun _ => Logs.pure _) s₁)
        (fun _ _ => notLoadable) ?_
      intro _ s' grow
      exact .inr ⟨notLoadable, strayed.later grow⟩

/-! ## The condition -/

namespace Frames

/-- The piece was stored in a page that was taken from the free list for the user half of
a new directory.  If `exec` succeeds the page is in the directory of the process, below
the new size. -/
structure Confined (f : Frames) (s' : Machine) (r : Option Proc) (l : Load) : Prop where
  pgdir : f.Occupies l.pgdir .free
  present : isPresent l.pte = true
  low : l.va < kernbase
  page : f.Occupies (target l.pte) .free
  mapped : ∀ proc', r = some proc' → l.pgdir = proc'.pgdir ∧ l.va + l.count ≤ proc'.sz ∧
    s'.Maps proc'.pgdir (l.va / pgsize) (target l.pte)

variable {f : Frames}

variable {l : Load}

end Frames

end Xv6.Vm
