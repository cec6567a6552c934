import Xv6.Fs.State
import Xv6.Process.Table

/-!
# User memory as a system call handler sees it

A handler runs in the address space of the calling process, so a user address is
an address it can load from or store to directly.  The memory below `proc->sz`
belongs to the process and everything above does not.  The functions of
`syscall.c` fetch the arguments of the call from the user stack and check them.

Every load or store of a handler through one of its arguments is recorded in
`touched`.  Reading the argument words themselves is not.  The files and the
process table are kept as far as the handlers look at them.  Waiting for another
process is replaced by what the caller finds when its wait is over.
-/

namespace Xv6.User

open Stateful

/-- `KERNBASE`: the first kernel virtual address. -/
def kernbase : Nat := 0x80000000

/-- `(int)w` -/
def int (w : UInt32) : Int :=
  if w.toNat < 2 ^ 31 then w.toNat else (w.toNat : Int) - 2 ^ 32

/-! ## What the handlers look at -/

/-- `f->type` -/
inductive FileType
  | none
  | pipe
  | inode
  deriving DecidableEq

/-- A pipe as the caller finds it. -/
structure Pipe where
  /-- The reader is killed while it waits for data. -/
  killed : Bool
  /-- The bytes to read when the wait is over. -/
  unread : List UInt8
  /-- The writer finds the pipe full at its `i`-th byte and gives up, because no
  reader is left or it has been killed. -/
  givesUp : Nat → Bool

/-- An inode, with the bytes that its blocks hold. -/
structure Inode where
  type : UInt16
  major : UInt16
  nlink : UInt16
  dev : UInt32
  inum : UInt32
  size : UInt32
  data : Nat → UInt8

/-- `struct file`, with what it refers to. -/
structure File where
  type : FileType
  readable : Bool
  writable : Bool
  off : UInt32
  pipe : Pipe
  ip : Inode

/-- The fields of a process slot that `getProcInfo` copies.  `safestrcpy` leaves
at most 15 characters before the nul of a name. -/
structure ProcInfo where
  state : Process.ProcState
  pid : UInt32
  uid : UInt32
  gid : UInt32
  ppid : UInt32
  priority : UInt32
  sz : UInt32
  name : List UInt8
  named : name.length < 16

/-- The machine while a handler runs. -/
structure Machine where
  /-- `proc->sz` -/
  sz : UInt32
  /-- `allocuvm` does not grow a process to `KERNBASE`. -/
  below : sz.toNat < kernbase
  /-- `proc->tf->esp` -/
  esp : UInt32
  mem : UInt32 → UInt8
  /-- The addresses used through an argument, the last one first. -/
  touched : List UInt32
  /-- `proc->ofile` -/
  ofile : Fin 16 → Option Nat
  /-- The file table. -/
  file : Nat → File
  /-- The characters that the console delivers until the process is killed. -/
  console : List UInt8
  /-- The files that `pipealloc` gives, when it succeeds. -/
  pipes : Option (Nat × Nat)
  /-- What `fill_rtcdate` reads, converted from BCD. -/
  clock : Fin 6 → UInt32
  /-- What an uninitialised pointer variable holds. -/
  garbage : UInt32
  /-- `ptable.proc` -/
  proc : Process.Slot → ProcInfo

/-- The panics of the handlers. -/
inductive Panic
  | fileread
  | filewrite
  | shortFilewrite

abbrev UserM (α : Type) := Prog Panic Machine α

/-! ## Arguments -/

namespace Machine

variable (s : Machine)

/-- The 32-bit word at `addr`. -/
def word (addr : UInt32) : UInt32 :=
  UInt32.ofNat ((s.mem addr).toNat + 256 * ((s.mem (addr + 1)).toNat +
    256 * ((s.mem (addr + 2)).toNat + 256 * (s.mem (addr + 3)).toNat)))

/-- `fetchint` -/
def fetchint (addr : UInt32) : Option UInt32 :=
  if addr ≥ s.sz ∨ addr + 4 > s.sz then none else some (s.word addr)

/-- `argint` -/
def argint (n : UInt32) : Option UInt32 :=
  s.fetchint (s.esp + 4 + 4 * n)

/-- `argptr` -/
def argptr (n size : UInt32) : Option UInt32 :=
  match s.argint n with
  | none => none
  | some i => if i ≥ s.sz ∨ i + size > s.sz then none else some i

/-- `argfd` -/
def argfd (n : UInt32) : Option (Fin 16 × Nat) :=
  match s.argint n with
  | none => none
  | some fd =>
    if bound : 0 ≤ int fd ∧ (int fd).toNat < 16 then
      (s.ofile ⟨(int fd).toNat, bound.2⟩).map fun f => (⟨(int fd).toNat, bound.2⟩, f)
    else none

end Machine

/-! ## Loads and stores -/

def load (addr : UInt32) : UserM UInt8 := do
  modify fun s => { s with touched := addr :: s.touched }
  return (← get).mem addr

def store (addr : UInt32) (value : UInt8) : UserM Unit :=
  modify fun s => { s with
    touched := addr :: s.touched
    mem := Function.update s.mem addr value }

/-- Store consecutive bytes. -/
def storeBytes (addr : UInt32) : List UInt8 → UserM Unit
  | [] => return ()
  | b :: bytes => do
      store addr b
      storeBytes (addr + 1) bytes

/-- Load `n` consecutive bytes. -/
def loadBytes (addr : UInt32) : Nat → UserM (List UInt8)
  | 0 => return []
  | n + 1 => do
      let b ← load addr
      let bytes ← loadBytes (addr + 1) n
      return b :: bytes

/-- The bytes of a word, least significant first. -/
def wordBytes (w : UInt32) : List UInt8 :=
  [w.toUInt8, (w >>> 8).toUInt8, (w >>> 16).toUInt8, (w >>> 24).toUInt8]

def halfBytes (w : UInt16) : List UInt8 :=
  [w.toUInt8, (w >>> 8).toUInt8]

def storeWord (addr w : UInt32) : UserM Unit :=
  storeBytes addr (wordBytes w)

end Xv6.User
