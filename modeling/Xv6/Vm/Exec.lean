import Xv6.Vm.Memory

/-!
# Loading programs

The code of `exec.c` with `loaduvm` and `copyout` of `vm.c`, and of the functions of
`proc.c` that make, grow and free the memory of a process.  The file that `exec` reads is
given by its bytes; the file system's part of `exec` is not.

When `walkpgdir` finds no table, `uva2ka` reads its entry through the null pointer: from
the first word of the memory of the calling process.
-/

namespace Xv6.Vm

open Stateful

/-! ## Files -/

/-- The contents of a file; `MAXFILE * BSIZE` bounds their length. -/
structure File where
  bytes : List UInt8
  small : bytes.length ≤ 140 * 512

namespace File

/-- `readi` on a file that is not a device: the bytes read, or `none` for -1. -/
def readi (file : File) (off n : Nat) : Option (List UInt8) :=
  if off > file.bytes.length ∨ (off + n) % 2 ^ 32 < off then none
  else some ((file.bytes.drop off).take n)

/-- The number in the bytes from `i` on, least significant byte first. -/
def number (bytes : List UInt8) (i : Nat) : Nat → Nat
  | 0 => 0
  | len + 1 => (bytes.getD i 0).toNat + 256 * number bytes (i + 1) len

end File

/-- `struct proghdr` -/
structure Proghdr where
  type : Nat
  off : Nat
  vaddr : Nat
  filesz : Nat
  memsz : Nat
  deriving DecidableEq

/-- The program header in the 32 bytes that have been read. -/
def Proghdr.ofBytes (bytes : List UInt8) : Proghdr where
  type := File.number bytes 0 4
  off := File.number bytes 4 4
  vaddr := File.number bytes 8 4
  filesz := File.number bytes 16 4
  memsz := File.number bytes 20 4

/-- The fields of `struct elfhdr` that `exec` uses. -/
structure Elfhdr where
  magic : Nat
  phoff : Nat
  phnum : Nat
  deriving DecidableEq

/-- The header in the 52 bytes that have been read. -/
def Elfhdr.ofBytes (bytes : List UInt8) : Elfhdr where
  magic := File.number bytes 0 4
  phoff := File.number bytes 28 4
  phnum := File.number bytes 44 2

/-- `ELF_MAGIC` -/
def elfMagic : Nat := 0x464C457F

/-- `ELF_PROG_LOAD` -/
def elfProgLoad : Nat := 1

/-! ## `vm.c` -/

/-- Store what has been read, if anything has. -/
def storeLoad (pgdir va pte : Nat) (bytes : List UInt8) : VmM Unit :=
  modify fun s =>
    if bytes = [] then s
    else
      { s.setPage (target pte) (Machine.storeBytes (s.mem (target pte)) 0 bytes) with
        loads := ⟨pgdir, va, pte, bytes.length⟩ :: s.loads }

/-- The loop of `loaduvm`. -/
def loadLoop (pgdir addr : Nat) (file : File) (offset sz : Nat) : Nat → Nat → VmM Bool
  | 0, _ => return false
  | fuel + 1, i => do
      if i < sz then
        match ← walkpgdir pgdir ((addr + i) % 2 ^ 32) false with
        | none => throw .loaduvmExist
        | some (pgtab, k) =>
          let s ← get
          let pte := s.mem pgtab k
          let n := if sz - i < pgsize then sz - i else pgsize
          match file.readi ((offset + i) % 2 ^ 32) n with
          | none => return false
          | some bytes =>
            storeLoad pgdir ((addr + i) % 2 ^ 32) pte bytes
            if bytes.length = n then
              loadLoop pgdir addr file offset sz fuel ((i + pgsize) % 2 ^ 32)
            else
              return false
      else
        return true

/-- `loaduvm`; the result tells whether it is 0. -/
def loaduvm (pgdir addr : Nat) (file : File) (offset sz : Nat) : VmM Bool := do
  if addr % pgsize ≠ 0 then
    throw .loaduvmAligned
  loadLoop pgdir addr file offset sz rounds 0

/-- `uva2ka`: the page, when it is a present user page. -/
def uva2ka (nullWord pgdir uva : Nat) : VmM (Option Nat) := do
  let entry ← walkpgdir pgdir uva false
  let s ← get
  let pte :=
    match entry with
    | none => nullWord
    | some (pgtab, i) => s.mem pgtab i
  if !isPresent pte then
    return none
  else if !isUser pte then
    return none
  else
    return some (target pte)

/-- The loop of `copyout`.  A store outside the physical memory faults. -/
def copyLoopOut (nullWord pgdir : Nat) : Nat → Nat → List UInt8 → VmM Bool
  | 0, _, _ => return true
  | fuel + 1, va, bytes => do
      if bytes = [] then
        return true
      else
        let va0 := pgrounddown va
        match ← uva2ka nullWord pgdir va0 with
        | none => return false
        | some page =>
          let n := min (pgsize - (va - va0)) bytes.length
          if page ≥ phystop / pgsize then
            throw .pageFault
          modify fun s =>
            s.setPage page (Machine.storeBytes (s.mem page) (va - va0) (bytes.take n))
          copyLoopOut nullWord pgdir fuel ((va0 + pgsize) % 2 ^ 32) (bytes.drop n)

/-- `copyout` -/
def copyout (nullWord pgdir va : Nat) (bytes : List UInt8) : VmM Bool :=
  copyLoopOut nullWord pgdir bytes.length va bytes

/-! ## `exec.c` -/

/-- `MAXARG` -/
def maxarg : Nat := 32

/-- The bytes of a word. -/
def wordBytes (w : Nat) : List UInt8 :=
  (List.range 4).map fun k => UInt8.ofNat (w / 256 ^ k)

/-- The ELF header, if `exec` accepts it. -/
def File.elf (file : File) : Option Elfhdr :=
  match file.readi 0 52 with
  | none => none
  | some bytes =>
    if bytes.length < 52 then none
    else if (Elfhdr.ofBytes bytes).magic ≠ elfMagic then none
    else some (Elfhdr.ofBytes bytes)

namespace Link

variable (link : Link)

/-- The loop of `exec` over the program headers: the size of the image. -/
def loadSegments (pgdir : Nat) (file : File) : Nat → Nat → Nat → VmM (Option Nat)
  | 0, _, sz => return some sz
  | count + 1, off, sz => do
      match file.readi off 32 with
      | none => return none
      | some bytes =>
        if bytes.length ≠ 32 then
          return none
        else
          let ph := Proghdr.ofBytes bytes
          if ph.type ≠ elfProgLoad then
            loadSegments pgdir file count ((off + 32) % 2 ^ 32) sz
          else if ph.memsz < ph.filesz then
            return none
          else
            let sz ← link.allocuvm pgdir sz ((ph.vaddr + ph.memsz) % 2 ^ 32)
            if sz = 0 then
              return none
            else if ← loaduvm pgdir ph.vaddr file ph.off ph.filesz then
              loadSegments pgdir file count ((off + 32) % 2 ^ 32) sz
            else
              return none

/-- The loop of `exec` that pushes the argument strings: their addresses, the last one
first, and the stack pointer. -/
def pushArgs (nullWord pgdir : Nat) : List (List UInt8) → Nat → List Nat → Nat →
    VmM (Option (List Nat × Nat))
  | [], _, pushed, sp => return some (pushed, sp)
  | arg :: args, argc, pushed, sp => do
      if argc ≥ maxarg then
        return none
      else
        let sp := (sp + 2 ^ 32 - (arg.length + 1)) % 2 ^ 32 / 4 * 4
        if ← copyout nullWord pgdir sp (arg ++ [0]) then
          pushArgs nullWord pgdir args (argc + 1) (sp :: pushed) sp
        else
          return none

/-- The part of `exec` that makes the stack: its size with two more pages. -/
@[irreducible]
def makeStack (pgdir sz : Nat) : VmM (Option Nat) := do
  let top := pgroundup sz
  let sz ← link.allocuvm pgdir top ((top + 2 * pgsize) % 2 ^ 32)
  if sz = 0 then
    return none
  else
    clearpteu pgdir ((sz + 2 ^ 32 - 2 * pgsize) % 2 ^ 32)
    return some sz

/-- The part of `exec` that copies the arguments to the stack: the stack pointer. -/
@[irreducible]
def copyArgs (nullWord pgdir : Nat) (argv : List (List UInt8)) (sz : Nat) :
    VmM (Option Nat) := do
  match ← pushArgs nullWord pgdir argv 0 [] sz with
  | none => return none
  | some (pushed, sp) =>
    let argc := argv.length
    let words := [0xffffffff, argc, (sp + 2 ^ 32 - (argc + 1) * 4) % 2 ^ 32] ++
      pushed.reverse ++ [0]
    let sp := (sp + 2 ^ 32 - (3 + argc + 1) * 4) % 2 ^ 32
    if ← copyout nullWord pgdir sp (words.flatMap wordBytes) then
      return some sp
    else
      return none

/-- `exec` up to the point where the file is closed: the directory and the size of the image. -/
def loadImage (file : File) : VmM (Option (Nat × Nat)) := do
  match file.elf with
  | none => return none
  | some elf =>
    match ← link.setupkvm with
    | none => return none
    | some pgdir =>
      match ← link.loadSegments pgdir file elf.phnum elf.phoff 0 with
      | none =>
        link.freevm pgdir
        return none
      | some sz => return some (pgdir, sz)

/-- `exec` from there to the point where the process is changed: the new size and the stack
pointer. -/
def stackImage (nullWord pgdir : Nat) (argv : List (List UInt8)) (sz : Nat) :
    VmM (Option (Nat × Nat)) := do
  match ← link.makeStack pgdir sz with
  | none =>
    link.freevm pgdir
    return none
  | some sz =>
    match ← copyArgs nullWord pgdir argv sz with
    | none =>
      link.freevm pgdir
      return none
    | some sp => return some (sz, sp)

/-- The memory of a new program: its directory and size.  On a failure the directory
is freed. -/
def execImage (nullWord : Nat) (file : File) (argv : List (List UInt8)) :
    VmM (Option (Nat × Nat)) := do
  match ← link.loadImage file with
  | none => return none
  | some (pgdir, sz) =>
    match ← link.stackImage nullWord pgdir argv sz with
    | none => return none
    | some (sz, _) => return some (pgdir, sz)

end Link

/-! ## `proc.c` -/

/-- The memory of a process. -/
structure Proc where
  pgdir : Nat
  sz : Nat
  kstack : Nat

namespace Link

variable (link : Link)

/-- The part of `userinit` about memory. -/
def userinit (initcode : List UInt8) : VmM Proc := do
  match ← kalloc with
  | none => throw .nullPointer
  | some kstack =>
    match ← link.setupkvm with
    | none => throw .userinit
    | some pgdir =>
      inituvm pgdir initcode
      return ⟨pgdir, pgsize, kstack⟩

/-- `growproc`; `none` for -1. -/
def growproc (proc : Proc) (n : Int) : VmM (Option Proc) := do
  let newsz := ((proc.sz + n) % 2 ^ 32).toNat
  if n > 0 then
    let sz ← link.allocuvm proc.pgdir proc.sz newsz
    if sz = 0 then
      return none
    else
      return some { proc with sz }
  else if n < 0 then
    let sz ← link.deallocuvm proc.pgdir proc.sz newsz
    if sz = 0 then
      return none
    else
      return some { proc with sz }
  else
    return some proc

/-- The parts of `allocproc` and `fork` about memory; `slot` tells whether there is a free
slot in the process table. -/
def fork (slot : Bool) (proc : Proc) : VmM (Option Proc) := do
  if !slot then
    return none
  else
    match ← kalloc with
    | none => return none
    | some kstack =>
      match ← link.copyuvm proc.pgdir proc.sz with
      | none =>
        link.kfree kstack
        return none
      | some pgdir => return some ⟨pgdir, proc.sz, kstack⟩

/-- `exec` -/
def exec (nullWord : Nat) (file : File) (argv : List (List UInt8)) (proc : Proc) :
    VmM (Option Proc) := do
  match ← link.execImage nullWord file argv with
  | none => return none
  | some (pgdir, sz) =>
    link.freevm proc.pgdir
    return some { proc with pgdir, sz }

/-- The part of `wait` about memory, for a zombie. -/
def reap (proc : Proc) : VmM Unit := do
  link.kfree proc.kstack
  link.freevm proc.pgdir

end Link

end Xv6.Vm
