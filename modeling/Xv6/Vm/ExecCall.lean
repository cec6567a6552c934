import Xv6.Fs.Dir
import Xv6.Vm.Processes

/-!
# The system call `exec`

The memory of a new program is made while the inode of the file is locked and a transaction
is open, and the process is changed only when nothing can fail any more.  What a failing
call leaves behind and what a successful one shows to `main` both depend on `copyout`: it
reads the entry of a page without a page table through a null pointer.
-/

namespace Xv6.Vm

open Stateful Function Machine

/-! ## The caller -/

/-- The registers in the trap frame that `exec` sets. -/
structure Trapframe where
  eip : Nat
  esp : Nat

/-- A process, as far as `exec` is concerned. -/
structure UserProc where
  proc : Proc
  name : List UInt8
  tf : Trapframe
  ofile : Nat → Option Nat
  cwd : Nat

/-- The inode cache and the log: the reference counts, the flags `I_BUSY` and the link counts of
the inodes, those that `iput` has freed, the number of open transactions and of commits. -/
structure Inodes where
  ref : Nat → Nat
  busy : Nat → Bool
  nlink : Nat → Nat
  freed : List Nat
  outstanding : Nat
  commits : Nat

namespace Inodes

def beginOp (i : Inodes) : Inodes :=
  { i with outstanding := i.outstanding + 1 }

/-- `end_op`: the last one commits. -/
def endOp (i : Inodes) : Inodes :=
  { i with
    outstanding := i.outstanding - 1
    commits := if i.outstanding = 1 then i.commits + 1 else i.commits }

/-- `iget` of an inode that is in the cache or finds a slot, and `idup`. -/
def iget (ip : Nat) (i : Inodes) : Inodes :=
  { i with ref := update i.ref ip (i.ref ip + 1) }

/-- `ilock`, when it returns. -/
def ilock (ip : Nat) (i : Inodes) : Inodes :=
  { i with busy := update i.busy ip true }

/-- `iunlockput`: the last reference to an inode without links frees it. -/
def iunlockput (ip : Nat) (i : Inodes) : Inodes :=
  { i with
    busy := update i.busy ip false
    ref := update i.ref ip (i.ref ip - 1)
    freed := if i.ref ip = 1 ∧ i.nlink ip = 0 then ip :: i.freed else i.freed }

end Inodes

/-- The inodes on the disk: their contents, and the entries of those that are directories. -/
structure Tree where
  file : Nat → File
  dir : Nat → Option (List UInt8 → Option Nat)

structure Caller where
  machine : Machine
  inodes : Inodes
  task : UserProc

/-- The elements of a path, as `skipelem` gives them. -/
def elements (path : List UInt8) : List (List UInt8) :=
  match _next : Fs.skipelem path with
  | none => []
  | some (name, rest) => name :: elements rest
termination_by path.length
decreasing_by exact Fs.length_lt_of_skipelem _next

/-- The inode at which `namex` starts. -/
def UserProc.origin (task : UserProc) (path : List UInt8) : Nat :=
  if path.head? = some Fs.slash then Fs.rootIno else task.cwd

/-- `elf.entry` -/
def File.entry (file : File) : Nat :=
  File.number ((file.readi 0 52).getD []) 24 4

variable {link : Link} {s s' : Machine} {V V' : View} {d sz nullWord ip : Nat} {c c' : Caller}
  {i i' : Inodes} {tree : Tree} {path : List UInt8} {argv : List (List UInt8)}

/-! ## The properties -/

/-- The counts and the locks are the same. -/
structure Inodes.Same (i i' : Inodes) : Prop where
  ref : i'.ref = i.ref
  busy : i'.busy = i.busy
  outstanding : i'.outstanding = i.outstanding

/-- The inode to which the elements lead from `ip`. -/
def Tree.resolve (tree : Tree) : List (List UInt8) → Nat → Option Nat
  | [], ip => some ip
  | name :: rest, ip => ((tree.dir ip).bind (· name)).bind (tree.resolve rest)

/-- The inode that a path names. -/
def Caller.found (c : Caller) (tree : Tree) (path : List UInt8) : Option Nat :=
  tree.resolve (elements path) (c.task.origin path)

variable {file : File} {va : Nat} {post : α → Caller → Prop} {stop : Panic → Prop}

/-- A directory shows the same if its own pages are the same. -/
theorem Models.load_congr (models : Models link s V) (isDirectory : V.role d = .directory)
    (low : va < kernbase) (same : ∀ q, q = d ∨ (V.role q).owner = some d → s'.mem q = s.mem q) :
    s'.load d va = s.load d va := by
  have below := Frames.page_lt_of_low low
  have entry : s'.entry d (va / pgsize) = s.entry d (va / pgsize) := by
    apply models.entry_congr isDirectory (same d (.inl rfl)) _ (by omega)
    exact fun t i table => same t (.inr (by rw [table]; rfl))
  rw [load_eq, load_eq, entry]
  split
  · rename_i present
    rw [same _ (.inr (by rw [models.role_entry isDirectory below present]; rfl))]
  · rfl

theorem Role.ne_of_owner {r : Role} (owner : r.owner = some d) : r ≠ .free ∧ r ≠ .held := by
  cases r <;> simp_all [Role.owner]

theorem Unharmed.load (unharmed : Unharmed V s s') (models : Models link s V)
    (isDirectory : V.role d = .directory) (low : va < kernbase) : s'.load d va = s.load d va := by
  apply models.load_congr isDirectory low
  rintro q (rfl | owner)
  · exact unharmed q (by simp [isDirectory]) (by simp [isDirectory])
  · exact unharmed q (Role.ne_of_owner owner).1 (Role.ne_of_owner owner).2

/-- What is done to one directory does not show in another. -/
theorem Edited.load_other {old : Nat} {R : Nat → Prop} (edited : Edited link old R s V s' V')
    (models : Models link s V) (oldDirectory : V.role old = .directory)
    (isDirectory : V.role d = .directory) (other : d ≠ old) (low : va < kernbase) :
    s'.load d va = s.load d va := by
  apply models.load_congr isDirectory low
  rintro q (rfl | owner)
  · exact (edited.spared q other (by rw [isDirectory]; trivial)).2
  · refine (edited.spared q ?_ ?_).2
    · rintro rfl
      rw [oldDirectory] at owner
      cases owner
    · cases isRole : V.role q with
      | table a i =>
        rw [isRole] at owner
        cases owner
        exact other
      | user a v =>
        rw [isRole] at owner
        cases owner
        exact fun same => absurd same other
      | _ =>
        rw [isRole] at owner
        cases owner

theorem ExecDone.unharmed {fate : Option Request} (failed : ExecDone link V s s' V' fate none) :
    Unharmed V s s' := by
  cases failed with
  | undone _ _ _ unharmed => exact unharmed
  | lost _ _ _ _ unharmed => exact unharmed

theorem ArgFrame.congr {esp : Nat} {ptrs : List Nat} (frame : ArgFrame d sz esp argv ptrs s)
    (same : ∀ va < sz, s'.load d va = s.load d va) : ArgFrame d sz esp argv ptrs s' := by
  have le := frame.strings.le
  refine ⟨frame.strings.congr fun va _ below => same va below, fun i b isByte => ?_, frame.inside⟩
  have small := (List.getElem?_eq_some_iff.mp isByte).1
  rw [length_flatMap_wordBytes] at small
  simp only [List.length_append, List.length_cons, List.length_nil, frame.strings.length] at small
  rw [same _ (by omega)]
  exact frame.words i b isByte

/-- The cache inside of a transaction, with one more reference to the inode that is held. -/
structure Inodes.Holding (i : Inodes) (held : Option Nat) (i' : Inodes) : Prop where
  ref : ∀ q, i'.ref q = i.ref q + if held = some q then 1 else 0
  busy : i'.busy = i.busy
  outstanding : i'.outstanding = i.outstanding + 1

namespace Inodes.Holding

theorem beginOp : i.Holding none i.beginOp :=
  ⟨fun _ => rfl, rfl, rfl⟩

theorem endOp (holding : i.Holding none i') : i.Same i'.endOp :=
  ⟨funext holding.ref, holding.busy, by rw [Inodes.endOp, holding.outstanding, Nat.add_sub_cancel]⟩

theorem iget (holding : i.Holding none i') : i.Holding (some ip) (i'.iget ip) := by
  refine ⟨fun q => ?_, holding.busy, holding.outstanding⟩
  simp only [Inodes.iget, update_apply, holding.ref, Option.some.injEq, reduceCtorEq, if_false]
  split_ifs <;> grind

/-- An inode that is locked, unlocked and put. -/
theorem iunlockput (holding : i.Holding (some ip) i') (unlocked : i.busy ip = false) :
    i.Holding none ((i'.ilock ip).iunlockput ip) := by
  refine ⟨fun q => ?_, ?_, holding.outstanding⟩
  · simp only [Inodes.iunlockput, Inodes.ilock, update_apply, holding.ref]
    grind
  · simp only [Inodes.iunlockput, Inodes.ilock, update_idem, holding.busy]
    rw [← unlocked, update_eq_self]

/-- The next inode is taken before the lock is given up. -/
theorem next {q : Nat} (holding : i.Holding (some ip) i') (unlocked : i.busy ip = false) :
    i.Holding (some q) (((i'.ilock ip).iget q).iunlockput ip) := by
  refine ⟨fun q' => ?_, (holding.iunlockput unlocked).busy, holding.outstanding⟩
  simp only [Inodes.iunlockput, Inodes.iget, Inodes.ilock, update_apply, holding.ref]
  grind

end Inodes.Holding

section

variable (unlocked : ∀ q, c.inodes.busy q = false)
include unlocked

end

/-! ## A stack without its page table -/

open Frames (sampleLink)

/-- A process with one page. -/
def owner (old : Nat) (s : Machine) : Caller where
  machine := s
  inodes := ⟨fun _ => 1, fun _ => false, fun _ => 1, [], 0, 0⟩
  task := ⟨⟨old, pgsize, 0⟩, [], ⟨0, 0⟩, fun _ => none, Fs.rootIno⟩

/-- The file `/a`. -/
def single (file : File) : Tree where
  file _ := file
  dir ip := if ip = Fs.rootIno then some fun name => if name = [97] then some 2 else none else none

/-- An entry for the page, as a word. -/
def callerWord (page : Nat) : Nat :=
  page * pgsize + 7

theorem callerWord_entry (page : Nat) :
    (isPresent (callerWord page) && isUser (callerWord page)) = true ∧
      target (callerWord page) = page := by
  unfold callerWord isPresent isUser target pteAddr pgsize
  simp only [Bool.and_eq_true, decide_eq_true_eq]
  omega

/-- The new directory `d` has a guard page but no page table for the stack; the page is one of
the caller's. -/
structure Overrunning (old page d : Nat) (s : Machine) (V : View) : Prop where
  models : Models sampleLink s V
  directory : V.role d = .directory
  has : s.tables d 0 = true
  missing : s.tables d 1 = false
  guard : isUser (s.entry d 1023) = false
  caller : V.role old = .directory
  user : V.role page = .user old 0

variable {old page : Nat}

section

variable (overrunning : Overrunning old page d s V)
include overrunning

variable {bytes : List UInt8}

/-- `copyout` to the stack goes to the page of the caller. -/
theorem Overrunning.copyout (stack : va / pgsize = 1024) (some : bytes ≠ [])
    (fits : va % pgsize + bytes.length ≤ pgsize) :
    (Vm.copyout (callerWord page) d va bytes).run s =
      .ok (true, s.setPage page (storeBytes (s.mem page) (va % pgsize) bytes)) := by
  have all : chunk va bytes = bytes.length := by
    unfold chunk
    omega
  have found : (uva2ka (callerWord page) d (va / pgsize * pgsize)).run s = .ok (.some page, s) := by
    obtain ⟨access, isTarget⟩ := callerWord_entry page
    rw [stack, uva2ka_run (by decide), if_neg (by simp [overrunning.missing]), if_pos access,
      isTarget]
  have managed := (overrunning.models.managed page (by simp [overrunning.user])).2
  obtain ⟨fuel, isFuel⟩ := Nat.exists_eq_succ_of_ne_zero (List.length_pos_of_ne_nil some).ne'
  rw [Vm.copyout, isFuel, copyLoopOut_step some found, if_neg (by omega), all, List.take_length,
    List.drop_length, copyLoopOut_nil]

theorem Overrunning.setPage (words : Nat → Nat) :
    Overrunning old page d (s.setPage page words) V := by
  have models := overrunning.models
  have other : ∀ q, V.role q ≠ .user old 0 → (s.setPage page words).mem q = s.mem q := by
    intro q notUser
    apply update_of_ne
    rintro rfl
    exact notUser overrunning.user
  have root := other d (by simp [overrunning.directory])
  refine ⟨models.setPage (.of_user overrunning.user) words, overrunning.directory, ?_, ?_, ?_,
    overrunning.caller, overrunning.user⟩
  · rw [tables, root]
    exact overrunning.has
  · rw [tables, root]
    exact overrunning.missing
  · rw [models.entry_congr overrunning.directory root
      (fun t i table => other t (by simp [table])) (by decide)]
    exact overrunning.guard

end

end Xv6.Vm
