import Xv6.Vm.Exec
import Xv6.Vm.Spaces

/-!
# Loading a segment

Where the pieces of a file go that `loaduvm` stores.  `exec` passes on the addresses and
sizes of the program headers unchecked, so a piece may go astray: to a page of the kernel's
half, or through an entry that is not present.  After that nothing is known about the memory
but that the piece has been stored.
-/

namespace Xv6.Vm

open Stateful

variable {link : Link} {s s' s'' : Machine} {V V' : View} {d v sz : Nat}

/-! ## The pieces that are stored -/

/-- The piece went to a page of the kernel's half, or to an entry that is not present. -/
def Load.Stray (l : Load) : Prop :=
  isPresent l.pte = false ∨ kernbase ≤ l.va

/-- A piece has gone astray. -/
def Strayed (s s' : Machine) : Prop :=
  ∃ new, s'.loads = new ++ s.loads ∧ ∃ l ∈ new, l.Stray

/-- The piece went to the page that the directory has for its address. -/
structure Load.Landed (l : Load) (V : View) (d : Nat) : Prop where
  pgdir : l.pgdir = d
  aligned : l.va % pgsize = 0
  count : l.count ≤ pgsize
  present : isPresent l.pte = true
  page : V.role (target l.pte) = .user d (l.va / pgsize)

/-- All new pieces went to pages of the directory. -/
def Landed (V : View) (d : Nat) (s s' : Machine) : Prop :=
  ∃ new, s'.loads = new ++ s.loads ∧ ∀ l ∈ new, l.Landed V d

theorem Strayed.later (strayed : Strayed s s') (grow : s'.loads <:+ s''.loads) : Strayed s s'' := by
  obtain ⟨new, loads, l, member, stray⟩ := strayed
  obtain ⟨more, grown⟩ := grow
  refine ⟨more ++ new, ?_, l, List.mem_append_right more member, stray⟩
  rw [← grown, loads, List.append_assoc]

theorem Strayed.earlier (grow : s.loads <:+ s'.loads) (strayed : Strayed s' s'') :
    Strayed s s'' := by
  obtain ⟨new, loads, l, member, stray⟩ := strayed
  obtain ⟨more, grown⟩ := grow
  refine ⟨new ++ more, ?_, l, List.mem_append_left more member, stray⟩
  rw [loads, ← grown, List.append_assoc]

namespace Landed

theorem refl : Landed V d s s :=
  ⟨[], rfl, by simp⟩

theorem of_eq (same : s'.loads = s.loads) : Landed V d s s' :=
  ⟨[], same, by simp⟩

theorem trans (first : Landed V d s s') (second : Landed V d s' s'') : Landed V d s s'' := by
  obtain ⟨new, loads, landed⟩ := first
  obtain ⟨more, loads', landed'⟩ := second
  refine ⟨more ++ new, by rw [loads', loads, List.append_assoc], ?_⟩
  intro l member
  rcases List.mem_append.mp member with here | there
  · exact landed' l here
  · exact landed l there

theorem grow (landed : Landed V d s s') : s.loads <:+ s'.loads := by
  obtain ⟨new, loads, -⟩ := landed
  exact ⟨new, loads.symm⟩

/-- The user pages of the directory are still there. -/
theorem mono (landed : Landed V d s s')
    (kept : ∀ q v, V.role q = .user d v → V'.role q = .user d v) : Landed V' d s s' := by
  obtain ⟨new, loads, landed⟩ := landed
  refine ⟨new, loads, ?_⟩
  intro l member
  have old := landed l member
  exact { old with page := kept _ _ old.page }

end Landed

/-! ## The log of the pieces only grows -/

/-- The program does not remove a piece from the log. -/
abbrev Logs {α : Type} (prog : VmM α) : Prop :=
  Advances (fun s s' => s.loads <:+ s'.loads) prog

namespace Logs

variable {α β : Type}

theorem pure (value : α) : Logs (pure value : VmM α) :=
  fun s => List.suffix_refl s.loads

theorem get : Logs (get : VmM Machine) :=
  fun s => List.suffix_refl s.loads

theorem modify {f : Machine → Machine} (same : ∀ s, (f s).loads = s.loads) :
    Logs (modify f : VmM PUnit) :=
  Advances.modify fun s => by rw [same]

theorem bind {prog : VmM α} {next : α → VmM β} (first : Logs prog)
    (rest : ∀ value, Logs (next value)) : Logs (prog >>= next) :=
  Advances.bind List.IsSuffix.trans first rest

theorem throw (reason : Panic) : Logs (throw reason : VmM α) :=
  Advances.throw reason

theorem throw_bind (reason : Panic) (next : α → VmM β) :
    Logs ((MonadExcept.throw reason : VmM α) >>= next) :=
  fun _ => trivial

end Logs

theorem kalloc_logs : Logs kalloc := by
  apply Logs.bind .get
  intro s
  refine .bind (.modify fun _ => rfl) fun _ => ?_
  split
  · exact .pure _
  · exact .bind (.modify fun _ => rfl) fun _ => .pure _

theorem kfree_logs (p : Nat) : Logs (link.kfree p) := by
  unfold Link.kfree
  split
  · exact .throw_bind _ _
  · exact .modify fun _ => rfl

theorem walkpgdir_logs (va : Nat) (alloc : Bool) : Logs (walkpgdir d va alloc) := by
  apply Logs.bind .get
  intro s
  dsimp only
  split
  · exact .pure _
  · split
    · apply Logs.bind kalloc_logs
      rintro (_ | t)
      · exact .pure _
      · refine .bind (.modify fun _ => rfl) fun _ => ?_
        exact .bind (.modify fun _ => rfl) fun _ => .pure _
    · exact .pure _

theorem mapPage_logs (a pa perm : Nat) : Logs (mapPage d a pa perm) := by
  apply Logs.bind (walkpgdir_logs a true)
  rintro (_ | ⟨t, i⟩)
  · exact .pure _
  · apply Logs.bind .get
    intro s
    split
    · exact .throw_bind _ _
    · exact .bind (.modify fun _ => rfl) fun _ => .pure _

theorem mapLoop_logs (last perm fuel a pa : Nat) : Logs (mapLoop d last perm fuel a pa) := by
  induction fuel generalizing a pa with
  | zero => exact .pure _
  | succ fuel ih =>
    apply Logs.bind (mapPage_logs a pa perm)
    intro mapped
    split
    · split
      · exact .pure _
      · exact ih _ _
    · exact .pure _

theorem clearPte_logs (t i : Nat) : Logs (link.clearPte t i) := by
  apply Logs.bind .get
  intro s
  dsimp only
  split
  · split
    · exact .throw_bind _ _
    · exact .bind (kfree_logs _) fun _ => .modify fun _ => rfl
  · exact .pure _

theorem deallocLoop_logs (oldsz fuel a : Nat) : Logs (link.deallocLoop d oldsz fuel a) := by
  induction fuel generalizing a with
  | zero => exact .pure _
  | succ fuel ih =>
    rw [Link.deallocLoop]
    split
    · apply Logs.bind (walkpgdir_logs a false)
      rintro (_ | ⟨t, i⟩)
      · exact ih _
      · exact .bind (clearPte_logs t i) fun _ => ih _
    · exact .pure _

theorem deallocuvm_logs (oldsz newsz : Nat) : Logs (link.deallocuvm d oldsz newsz) := by
  unfold Link.deallocuvm
  split
  · exact .pure _
  · exact .bind (deallocLoop_logs oldsz _ _) fun _ => .pure _

theorem allocLoop_logs (oldsz newsz fuel a : Nat) : Logs (link.allocLoop d oldsz newsz fuel a) := by
  induction fuel generalizing a with
  | zero => exact .pure _
  | succ fuel ih =>
    rw [Link.allocLoop]
    split
    · apply Logs.bind kalloc_logs
      rintro (_ | p)
      · exact .bind (deallocuvm_logs _ _) fun _ => .pure _
      · refine .bind (.modify fun _ => rfl) fun _ => ?_
        exact .bind (mapLoop_logs _ _ _ _ _) fun _ => ih _
    · exact .pure _

theorem allocuvm_logs (oldsz newsz : Nat) : Logs (link.allocuvm d oldsz newsz) := by
  unfold Link.allocuvm
  split
  · exact .pure _
  · split
    · exact .pure _
    · exact allocLoop_logs _ _ _ _

theorem freeTables_logs (indices : List Nat) : Logs (link.freeTables d indices) := by
  induction indices with
  | nil => exact .pure _
  | cons i rest ih =>
    apply Logs.bind .get
    intro s
    dsimp only
    split
    · exact .bind (kfree_logs _) fun _ => ih
    · exact ih

theorem freevm_logs (d : Nat) : Logs (link.freevm d) := by
  unfold Link.freevm
  generalize List.range 1024 = indices
  apply Logs.bind (deallocuvm_logs _ _)
  intro _
  exact .bind (freeTables_logs indices) fun _ => kfree_logs d

theorem clearpteu_logs (uva : Nat) : Logs (clearpteu d uva) := by
  apply Logs.bind (walkpgdir_logs uva false)
  rintro (_ | ⟨t, i⟩)
  · exact .throw _
  · exact .modify fun _ => rfl

theorem storeLoad_logs (va pte : Nat) (bytes : List UInt8) : Logs (storeLoad d va pte bytes) := by
  apply Advances.modify
  intro s
  split
  · exact List.suffix_refl _
  · exact List.suffix_cons _ _

theorem loadLoop_logs (addr : Nat) (file : File) (offset size fuel i : Nat) :
    Logs (loadLoop d addr file offset size fuel i) := by
  induction fuel generalizing i with
  | zero => exact .pure _
  | succ fuel ih =>
    rw [loadLoop]
    split
    · apply Logs.bind (walkpgdir_logs _ false)
      rintro (_ | ⟨t, k⟩)
      · exact .throw _
      · apply Logs.bind .get
        intro s
        dsimp only
        generalize (if size - i < pgsize then size - i else pgsize) = n
        split
        · exact .pure _
        · apply Logs.bind (storeLoad_logs _ _ _)
          intro _
          split
          · exact ih _
          · exact .pure _
    · exact .pure _

theorem loaduvm_logs (addr : Nat) (file : File) (offset size : Nat) :
    Logs (loaduvm d addr file offset size) := by
  unfold loaduvm
  generalize rounds = fuel
  split
  · exact .throw_bind _ _
  · exact loadLoop_logs _ _ _ _ _ _

theorem uva2ka_logs (nullWord uva : Nat) : Logs (uva2ka nullWord d uva) := by
  have test : ∀ pte, Logs (if !isPresent pte then pure none
      else if !isUser pte then pure none else pure (some (target pte))) := by
    intro pte
    split
    · exact .pure _
    · split
      · exact .pure _
      · exact .pure _
  apply Logs.bind (walkpgdir_logs _ _)
  rintro (_ | ⟨t, i⟩)
  · exact .bind .get fun _ => test nullWord
  · exact .bind .get fun s => test (s.mem t i)

theorem copyLoopOut_logs (nullWord fuel va : Nat) (bytes : List UInt8) :
    Logs (copyLoopOut nullWord d fuel va bytes) := by
  induction fuel generalizing va bytes with
  | zero => exact .pure _
  | succ fuel ih =>
    rw [copyLoopOut]
    split
    · exact .pure _
    · apply Logs.bind (uva2ka_logs _ _)
      rintro (_ | page)
      · exact .pure _
      · dsimp only
        split
        · exact .throw_bind _ _
        · exact .bind (.modify fun _ => rfl) fun _ => ih _ _

theorem loadSegments_logs (file : File) (count off sz : Nat) :
    Logs (link.loadSegments d file count off sz) := by
  induction count generalizing off sz with
  | zero => exact .pure _
  | succ count ih =>
    rw [Link.loadSegments]
    split
    · exact .pure _
    · split
      · exact .pure _
      · dsimp only
        split
        · exact ih _ _
        · split
          · exact .pure _
          · apply Logs.bind (allocuvm_logs _ _)
            intro size
            split
            · exact .pure _
            · apply Logs.bind (loaduvm_logs _ _ _ _)
              intro loaded
              split
              · exact ih _ _
              · exact .pure _

theorem pushArgs_logs (nullWord : Nat) (args : List (List UInt8)) (argc : Nat) (pushed : List Nat)
    (sp : Nat) : Logs (Link.pushArgs nullWord d args argc pushed sp) := by
  induction args generalizing argc pushed sp with
  | nil => exact .pure _
  | cons arg args ih =>
    rw [Link.pushArgs]
    split
    · exact .pure _
    · apply Logs.bind (copyLoopOut_logs _ _ _ _)
      intro copied
      split
      · exact ih _ _ _
      · exact .pure _

/-! ## Images -/

/-- The tables of a directory with the pages of a size. -/
def spaceTables (sz i : Nat) : Bool :=
  kernelTables i || decide (i * 1024 < pages sz)

/-- The directory has exactly the pages of the size. -/
structure Contiguous (V : View) (d sz : Nat) : Prop where
  directory : V.role d = .directory
  low : sz ≤ kernbase
  mapped : ∀ v, V.Mapped d v ↔ v < pages sz

/-- A directory with an image that is being made. -/
structure Space (link : Link) (d sz : Nat) (s : Machine) (V : View) : Prop
    extends Contiguous V d sz where
  models : Models link s V
  tables : s.tables d = spaceTables sz
  kernel : HasKernel link s d

theorem spaceTables_of_lt (inside : v < pages sz) : spaceTables sz (v / 1024) = true := by
  have here : v / 1024 * 1024 < pages sz := by omega
  simp [spaceTables, here]

variable {p t : Nat}

namespace Space

variable (space : Space link d sz s V)
include space

/-- Something is written to a user page of the directory. -/
theorem setPage (user : V.role p = .user d v) (words : Nat → Nat) :
    Space link d sz (s.setPage p words) V := by
  have edited : Edited link d (fun _ => True) s V (s.setPage p words) V :=
    .setPage space.models space.directory (.inr ⟨v, trivial, user⟩) words
  have other : ∀ q, (∀ v, V.role q ≠ .user d v) → (s.setPage p words).mem q = s.mem q := by
    intro q notUser
    apply Function.update_of_ne
    rintro rfl
    exact notUser v user
  refine ⟨space.toContiguous, edited.models, ?_, space.kernel.congr fun v kernel high => ?_⟩
  · rw [← space.tables]
    funext i
    rw [Machine.tables, other d (by simp [space.directory])]
    rfl
  · exact space.models.entry_congr space.directory (other d (by simp [space.directory]))
      (fun t i table => other t (by simp [table])) high

theorem setLoads {loads : List Load} : Space link d sz { s with loads := loads } V :=
  ⟨space.toContiguous, space.models.congr rfl fun _ _ => rfl, space.tables,
    space.kernel.congr fun _ _ _ => rfl⟩

/-- The entry of a page of the image. -/
theorem entry (table : V.role t = .table d (v / 1024)) (inside : v < pages sz) :
    isPresent (s.mem t (v % 1024)) = true ∧ V.role (target (s.mem t (v % 1024))) = .user d v := by
  obtain ⟨low, present⟩ := space.models.mapped_iff.mp ((space.mapped v).mpr inside)
  rw [space.models.present_iff table] at present
  refine ⟨present, ?_⟩
  have user := space.models.user_of t d (v / 1024) (v % 1024) table (by omega)
    (Nat.mod_lt v (by decide)) present
  rw [Nat.div_add_mod] at user
  exact user

/-- The entry of a page outside the image. -/
theorem noEntry (table : V.role t = .table d (v / 1024)) (outside : ¬ v < pages sz)
    (user : v < 2 ^ 19) : isPresent (s.mem t (v % 1024)) = false := by
  rw [← Bool.not_eq_true]
  intro present
  apply outside
  rw [← space.mapped, space.models.mapped_iff, space.models.present_iff table]
  exact ⟨user, present⟩

end Space

/-- Something has been written to user pages of the directory. -/
structure Filled (link : Link) (d sz : Nat) (s : Machine) (V : View) (s' : Machine) : Prop where
  space : Space link d sz s' V
  supply : s'.supply V = s.supply V
  landed : Landed V d s s'
  mem : ∀ q, (∀ v, V.role q ≠ .user d v) → s'.mem q = s.mem q

variable (space : Space link d sz s V)
include space

theorem Filled.refl : Filled link d sz s V s :=
  ⟨space, rfl, Landed.refl, fun _ _ => rfl⟩

omit space in
theorem Filled.trans (first : Filled link d sz s V s') (second : Filled link d sz s' V s'') :
    Filled link d sz s V s'' where
  space := second.space
  supply := second.supply.trans first.supply
  landed := first.landed.trans second.landed
  mem q notUser := (second.mem q notUser).trans (first.mem q notUser)

theorem Space.filled (user : V.role p = .user d v) (words : Nat → Nat) :
    Filled link d sz s V (s.setPage p words) := by
  refine ⟨space.setPage user words, rfl, Landed.of_eq rfl, fun q notUser => ?_⟩
  apply Function.update_of_ne
  rintro rfl
  exact notUser v user

/-! ## The pieces of a segment -/

variable {bytes : List UInt8}

namespace Proghdr

variable (ph : Proghdr) (file : File)

/-- The length of a piece. -/
def chunk (c : Nat) : Nat :=
  if ph.filesz - c * pgsize < pgsize then ph.filesz - c * pgsize else pgsize

/-- What `readi` gives for a piece. -/
def piece (c : Nat) : Option (List UInt8) :=
  file.readi ((ph.off + c * pgsize) % 2 ^ 32) (ph.chunk c)

/-- The file has the whole piece. -/
def Full (c : Nat) : Prop :=
  (ph.piece file c).map List.length = some (ph.chunk c)

instance (c : Nat) : Decidable (ph.Full file c) :=
  inferInstanceAs (Decidable (_ = _))

/-- The page that a piece goes to. -/
def page (c : Nat) : Nat :=
  (ph.vaddr + c * pgsize) % 2 ^ 32 / pgsize

/-- A piece that is read goes to a page of the image; otherwise there is a table for it. -/
def Fits (sz c : Nat) : Prop :=
  match ph.piece file c with
  | some (_ :: _) => ph.page c < pages sz
  | _ => spaceTables sz (ph.page c / 1024) = true

/-- The pieces that are reached, from piece `c` on, fit. -/
def FitsFrom (sz c : Nat) : Prop :=
  ∀ c' < pages ph.filesz, c ≤ c' → (∀ c'' < c', c ≤ c'' → ph.Full file c'') → ph.Fits file sz c'

/-- The file has all pieces from piece `c` on. -/
def FullFrom (c : Nat) : Prop :=
  ∀ c' < pages ph.filesz, c ≤ c' → ph.Full file c'

variable {ph file} {c : Nat}

omit space in
theorem Fits.tables (fits : ph.Fits file sz c) : spaceTables sz (ph.page c / 1024) = true := by
  unfold Fits at fits
  split at fits
  · exact spaceTables_of_lt fits
  · exact fits

omit space in
theorem fitsFrom_iff (here : c < pages ph.filesz) :
    ph.FitsFrom file sz c ↔ ph.Fits file sz c ∧ (ph.Full file c → ph.FitsFrom file sz (c + 1)) := by
  constructor
  · intro fits
    refine ⟨fits c here (Nat.le_refl c) (by omega), ?_⟩
    intro full c' below after between
    apply fits c' below (by omega)
    intro c'' before start
    by_cases first : c'' = c
    · rw [first]
      exact full
    · exact between c'' before (by omega)
  · rintro ⟨first, rest⟩ c' below after between
    by_cases same : c' = c
    · rw [same]
      exact first
    · apply rest (between c (by omega) (Nat.le_refl c)) c' below (by omega)
      intro c'' before start
      exact between c'' before (by omega)

omit space in
theorem fullFrom_iff (here : c < pages ph.filesz) :
    ph.FullFrom file c ↔ ph.Full file c ∧ ph.FullFrom file (c + 1) := by
  constructor
  · intro full
    exact ⟨full c here (Nat.le_refl c), fun c' below after => full c' below (by omega)⟩
  · rintro ⟨first, rest⟩ c' below after
    by_cases same : c' = c
    · rw [same]
      exact first
    · exact rest c' below (by omega)

omit space in
theorem piece_length (got : ph.piece file c = some bytes) : bytes.length ≤ pgsize := by
  unfold piece File.readi at got
  split at got
  · cases got
  · cases got
    have bound : ph.chunk c ≤ pgsize := by
      unfold chunk
      split <;> omega
    rw [List.length_take]
    omega

omit space in
/-- A file is short, so that few pieces can be read. -/
theorem Full.short (full : ph.Full file c) (here : c < pages ph.filesz) :
    (ph.off + c * pgsize) % 2 ^ 32 < 140 * 512 := by
  have small := file.small
  have positive : 0 < ph.chunk c := by
    rw [lt_pages_iff] at here
    unfold chunk pgsize at *
    split <;> omega
  unfold Full piece File.readi at full
  generalize (ph.off + c * pgsize) % 2 ^ 32 = off at full ⊢
  generalize ph.chunk c = n at full positive
  split at full
  · cases full
  · simp only [Option.map_some, Option.some.injEq, List.length_take, List.length_drop] at full
    omega

end Proghdr

omit space in
/-- A piece that the file does not have ends the loop. -/
theorem Proghdr.last_piece {ph : Proghdr} {file : File} {c : Nat} (here : c < pages ph.filesz)
    (fits : ph.Fits file sz c) (short : ¬ ph.Full file c) :
    ph.FitsFrom file sz c ∧ (false = true ↔ ph.FullFrom file c) := by
  constructor
  · exact (fitsFrom_iff here).mpr ⟨fits, fun full => absurd full short⟩
  · simp only [Bool.false_eq_true, false_iff]
    intro full
    exact short (full c here (Nat.le_refl c))

/-- A piece is stored in a page of the image. -/
theorem storeLoad_spec {va : Nat} (table : V.role t = .table d (va / pgsize / 1024))
    (inside : va / pgsize < pages sz) (aligned : va % pgsize = 0) (short : bytes.length ≤ pgsize) :
    Wp (storeLoad d va (s.mem t (va / pgsize % 1024)) bytes) (fun _ => False)
      (fun _ s' => Filled link d sz s V s') s := by
  obtain ⟨present, user⟩ := space.entry table inside
  unfold storeLoad
  rw [wp_modify]
  split
  · exact .refl space
  · refine ⟨(space.setPage user _).setLoads, rfl, ⟨_, (List.singleton_append).symm, ?_⟩,
      (space.filled user _).mem⟩
    intro l member
    rw [List.mem_singleton] at member
    subst member
    exact ⟨rfl, aligned, short, present, user⟩

/-- A piece is stored elsewhere. -/
theorem storeLoad_strays {va : Nat} (table : V.role t = .table d (va / pgsize / 1024))
    (outside : ¬ va / pgsize < pages sz) (some : bytes ≠ []) :
    Wp (storeLoad d va (s.mem t (va / pgsize % 1024)) bytes) (fun _ => False)
      (fun _ s' => Strayed s s') s := by
  unfold storeLoad
  rw [wp_modify, if_neg some]
  refine ⟨_, (List.singleton_append).symm, _, List.mem_singleton_self _, ?_⟩
  by_cases user : va / pgsize < 2 ^ 19
  · exact .inl (space.noEntry table outside user)
  · apply Or.inr
    change kernbase ≤ va
    unfold kernbase
    unfold pgsize at user
    omega

/-- The loop of `loaduvm`. -/
theorem loadLoop_spec {ph : Proghdr} {file : File} {c fuel : Nat} (aligned : ph.vaddr % pgsize = 0)
    (reach : c = 0 ∨ ph.off % 2 ^ 32 + c * pgsize ≤ 140 * 512 + pgsize) (enough : 19 ≤ c + fuel) :
    Wp (loadLoop d ph.vaddr file ph.off ph.filesz fuel (c * pgsize))
      (fun _ => ¬ ph.FitsFrom file sz c)
      (fun r s' =>
        (ph.FitsFrom file sz c ∧ Filled link d sz s V s' ∧ (r = true ↔ ph.FullFrom file c)) ∨
        (¬ ph.FitsFrom file sz c ∧ Strayed s s')) s := by
  induction fuel generalizing c s with
  | zero =>
    unfold pgsize at reach
    omega
  | succ fuel ih =>
    rw [loadLoop]
    split
    · rename_i here
      rw [← lt_pages_iff] at here
      have index : pdx ((ph.vaddr + c * pgsize) % 2 ^ 32) = ph.page c / 1024 := by
        unfold pdx Proghdr.page pgsize
        omega
      have entry : ptx ((ph.vaddr + c * pgsize) % 2 ^ 32) = ph.page c % 1024 := by
        unfold ptx Proghdr.page pgsize
        omega
      have isPiece : file.readi ((ph.off + c * pgsize) % 2 ^ 32) (ph.chunk c) =
        ph.piece file c := rfl
      have isChunk : (if ph.filesz - c * pgsize < pgsize then ph.filesz - c * pgsize
        else pgsize) = ph.chunk c := rfl
      have positive : 0 < ph.chunk c := by
        rw [lt_pages_iff] at here
        unfold Proghdr.chunk pgsize at *
        split <;> omega
      apply (walkpgdir_spec space.models space.directory).always
      rw [index, entry]
      rintro (_ | ⟨t, j⟩) s₁ ⟨rfl, found⟩
      · intro fits
        have table := ((Proghdr.fitsFrom_iff here).mp fits).1.tables
        rw [← space.tables] at table
        rw [Machine.tables, found] at table
        cases table
      · obtain ⟨table, rfl⟩ := found
        have has : spaceTables sz (ph.page c / 1024) = true := by
          rw [← space.tables]
          exact (space.models.of_table t d _ table).2.2.1
        simp only [wp_bind, wp_get, isChunk, isPiece]
        have next : (c * pgsize + pgsize) % 2 ^ 32 = (c + 1) * pgsize := by
          unfold pgsize at reach ⊢
          omega
        rw [next]
        cases got : ph.piece file c with
        | none =>
          have fits : ph.Fits file sz c := by
            rw [Proghdr.Fits, got]
            exact has
          have short : ¬ ph.Full file c := by simp [Proghdr.Full, got]
          obtain ⟨allFit, notFull⟩ := Proghdr.last_piece here fits short
          exact .inl ⟨allFit, .refl space, notFull⟩
        | some bytes =>
          have full_iff : ph.Full file c ↔ bytes.length = ph.chunk c := by
            simp [Proghdr.Full, got]
          by_cases inside : ph.page c < pages sz
          · have fits : ph.Fits file sz c := by
              rw [Proghdr.Fits, got]
              cases bytes with
              | nil => exact has
              | cons b rest => exact inside
            simp only [wp_bind]
            apply (storeLoad_spec space table inside ?_ (Proghdr.piece_length got)).mono
              (fun _ => False.elim)
            rintro _ s₂ filled
            split
            · rename_i whole
              have full := full_iff.mpr whole
              have short := full.short here
              rw [Proghdr.fitsFrom_iff here, Proghdr.fullFrom_iff here]
              apply (ih filled.space (.inr ?_) (by omega)).mono
              · intro _ notFit allFit
                exact notFit (allFit.2 full)
              · rintro r s' (⟨allFit, filled', isFull⟩ | ⟨notFit, strayed⟩)
                · exact .inl ⟨⟨fits, fun _ => allFit⟩, filled.trans filled',
                    by rw [isFull]; simp [full]⟩
                · exact .inr ⟨fun allFit => notFit (allFit.2 full),
                    strayed.earlier filled.landed.grow⟩
              · unfold pgsize at reach short ⊢
                omega
            · rename_i part
              obtain ⟨allFit, notFull⟩ :=
                Proghdr.last_piece here fits fun full => part (full_iff.mp full)
              exact .inl ⟨allFit, filled, notFull⟩
            · unfold pgsize at aligned ⊢
              omega
          · cases bytes with
            | nil =>
              have fits : ph.Fits file sz c := by
                rw [Proghdr.Fits, got]
                exact has
              have short : ¬ ph.Full file c := by
                rw [full_iff, List.length_nil]
                omega
              obtain ⟨allFit, notFull⟩ := Proghdr.last_piece here fits short
              simp only [List.length_nil, wp_bind]
              rw [if_neg (by omega)]
              exact .inl ⟨allFit, .refl space, notFull⟩
            | cons b rest =>
              have notFit : ¬ ph.FitsFrom file sz c := by
                rw [Proghdr.fitsFrom_iff here, Proghdr.Fits, got]
                exact fun allFit => inside allFit.1
              simp only [wp_bind]
              apply (storeLoad_strays space table inside (by simp)).mono
                (fun _ => False.elim)
              rintro _ s₂ strayed
              split
              · apply (loadLoop_logs _ _ _ _ _ _ s₂).mono (fun _ _ => notFit)
                intro r s' grow
                exact .inr ⟨notFit, strayed.later grow⟩
              · exact .inr ⟨notFit, strayed⟩
    · rename_i done
      rw [← lt_pages_iff] at done
      refine .inl ⟨?_, .refl space, ?_⟩
      · intro c' below after
        omega
      · simp only [true_iff]
        intro c' below after
        omega

/-- The segment can be loaded safely into an image of the size. -/
structure Proghdr.Loadable (ph : Proghdr) (file : File) (sz : Nat) : Prop where
  aligned : ph.vaddr % pgsize = 0
  fits : ph.FitsFrom file sz 0

/-- The file has the whole segment. -/
def Proghdr.Complete (ph : Proghdr) (file : File) : Prop :=
  ∀ c < pages ph.filesz, ph.Full file c

instance (ph : Proghdr) (file : File) : Decidable (ph.Complete file) :=
  inferInstanceAs (Decidable (∀ c < _, _))

theorem loaduvm_spec {ph : Proghdr} {file : File} :
    Wp (loaduvm d ph.vaddr file ph.off ph.filesz) (fun _ => ¬ ph.Loadable file sz)
      (fun r s' =>
        (ph.Loadable file sz ∧ Filled link d sz s V s' ∧ (r = true ↔ ph.Complete file)) ∨
        (¬ ph.Loadable file sz ∧ Strayed s s')) s := by
  have complete_iff : ph.FullFrom file 0 ↔ ph.Complete file := by
    simp [Proghdr.FullFrom, Proghdr.Complete]
  unfold loaduvm
  split
  · rename_i unaligned
    exact fun loadable => unaligned loadable.aligned
  · rename_i aligned
    rw [not_not] at aligned
    have loop : Wp (loadLoop d ph.vaddr file ph.off ph.filesz rounds (0 * pgsize)) _ _ s :=
      loadLoop_spec space aligned (.inl rfl) (by unfold rounds; omega)
    rw [Nat.zero_mul] at loop
    have loadable_iff : ph.Loadable file sz ↔ ph.FitsFrom file sz 0 :=
      ⟨fun loadable => loadable.fits, fun fits => ⟨aligned, fits⟩⟩
    rw [loadable_iff, ← complete_iff]
    exact loop

end Xv6.Vm
