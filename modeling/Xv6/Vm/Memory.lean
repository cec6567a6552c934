import Xv6.Lib.Wp

/-!
# Page frames and page tables

The code of `kalloc.c` and `vm.c` over a physical memory of 32-bit words.  Page
directories, page tables and the links of the free list are words of this memory, so
a page that is used in two ways is also corrupted in the model.

An address is a number below `2 ^ 32`.  A pointer to a page of the kernel is given by
the number of its physical page: `p2v` and `v2p` add and subtract `KERNBASE`.

A call runs without interference but for `kalloc`: other processors may have emptied
the free list at any call of it, which `refuse` decides.
-/

namespace Xv6.Vm

open Stateful Function

/-! ## Layout of the address space -/

/-- `PGSIZE` -/
def pgsize : Nat := 4096

/-- `KERNBASE` -/
def kernbase : Nat := 0x80000000

/-- `EXTMEM` -/
def extmem : Nat := 0x100000

/-- `KERNLINK` -/
def kernlink : Nat := kernbase + extmem

/-- `PHYSTOP` -/
def phystop : Nat := 0xE000000

/-- `DEVSPACE` -/
def devspace : Nat := 0xFE000000

/-- `PDX` -/
def pdx (va : Nat) : Nat :=
  va / 2 ^ 22 % 1024

/-- `PTX` -/
def ptx (va : Nat) : Nat :=
  va / 2 ^ 12 % 1024

/-- `PGROUNDUP` -/
def pgroundup (sz : Nat) : Nat :=
  (sz + pgsize - 1) % 2 ^ 32 / pgsize * pgsize

/-- `PGROUNDDOWN` -/
def pgrounddown (a : Nat) : Nat :=
  a / pgsize * pgsize

/-- `PTE_P` -/
def pteP : Nat := 1

/-- `PTE_W` -/
def pteW : Nat := 2

/-- `PTE_U` -/
def pteU : Nat := 4

/-- `PTE_ADDR` -/
def pteAddr (pte : Nat) : Nat :=
  pte / pgsize * pgsize

/-- `PTE_FLAGS` -/
def pteFlags (pte : Nat) : Nat :=
  pte % pgsize

/-- `pte & PTE_P` -/
def isPresent (pte : Nat) : Bool :=
  pte % 2 = 1

/-- `pte & PTE_U` -/
def isUser (pte : Nat) : Bool :=
  pte / 4 % 2 = 1

/-- The page that an entry refers to. -/
def target (pte : Nat) : Nat :=
  pteAddr pte / pgsize

/-- The addresses that the linker chooses, as physical addresses. -/
structure Link where
  /-- `V2P(data)` -/
  data : Nat
  /-- `V2P(end)` -/
  kend : Nat
  aligned : data % pgsize = 0
  text : extmem < data
  data_le : data ≤ kend
  below : data < phystop

/-- The first page after the kernel. -/
def Link.firstPage (link : Link) : Nat :=
  (link.kend + pgsize - 1) / pgsize

/-! ## The machine -/

/-- A piece of a file that `loaduvm` has stored: the entry that it found for `va`, and
the number of bytes. -/
structure Load where
  pgdir : Nat
  va : Nat
  pte : Nat
  count : Nat

/-- Physical memory and `kmem`. -/
structure Machine where
  /-- Word `i` of a physical page. -/
  mem : Nat → Nat → Nat
  /-- `kmem.freelist` -/
  freelist : Option Nat
  /-- The calls of `kalloc`, counted from the start, that find the list empty. -/
  refuse : Nat → Bool
  /-- How often `kalloc` has been called. -/
  calls : Nat
  /-- What `loaduvm` has stored, the last piece first. -/
  loads : List Load

inductive Panic
  /-- `"kfree"` -/
  | kfree
  /-- `"remap"` -/
  | remap
  /-- `"inituvm: more than a page"` -/
  | inituvmSize
  /-- A store through the null pointer. -/
  | nullPointer
  /-- `"loaduvm: addr must be page aligned"` -/
  | loaduvmAligned
  /-- `"loaduvm: address should exist"` -/
  | loaduvmExist
  /-- `"clearpteu"` -/
  | clearpteu
  /-- `"copyuvm: pte should exist"` -/
  | copyuvmExist
  /-- `"copyuvm: page not present"` -/
  | copyuvmPresent
  /-- `"userinit: out of memory?"` -/
  | userinit
  /-- A store to an address that is not mapped. -/
  | pageFault
  deriving DecidableEq

abbrev VmM (α : Type) := Prog Panic Machine α

namespace Machine

/-- A page pointer in memory. -/
def pointer (word : Nat) : Option Nat :=
  if word = 0 then none else some ((word - kernbase) / pgsize)

/-- The word for a page pointer. -/
def address : Option Nat → Nat
  | none => 0
  | some p => kernbase + p * pgsize

/-- `r->next` -/
def next (s : Machine) (r : Nat) : Option Nat :=
  pointer (s.mem r 0)

def setPage (s : Machine) (p : Nat) (words : Nat → Nat) : Machine :=
  { s with mem := update s.mem p words }

def setWord (s : Machine) (p i w : Nat) : Machine :=
  s.setPage p (update (s.mem p) i w)

/-- Byte `i` of a page. -/
def byte (words : Nat → Nat) (i : Nat) : Nat :=
  words (i / 4) / 256 ^ (i % 4) % 256

/-- Copy bytes into a page, from offset `off` on. -/
def storeBytes (words : Nat → Nat) (off : Nat) (bytes : List UInt8) : Nat → Nat :=
  let new i := if off ≤ i then (bytes.map UInt8.toNat).getD (i - off) (byte words i)
    else byte words i
  fun w => new (4 * w) + 256 * (new (4 * w + 1) + 256 * (new (4 * w + 2) +
    256 * new (4 * w + 3)))

end Machine

/-! ## `kalloc.c` -/

/-- `kalloc` -/
def kalloc : VmM (Option Nat) := do
  let s ← get
  let r := if s.refuse s.calls then none else s.freelist
  modify fun s => { s with calls := s.calls + 1 }
  match r with
  | none => return none
  | some r =>
    modify fun s => { s with freelist := s.next r }
    return some r

namespace Link

variable (link : Link)

/-- `kfree` -/
def kfree (v : Nat) : VmM Unit := do
  if v < link.firstPage ∨ phystop / pgsize ≤ v then
    throw .kfree
  modify fun s =>
    { s.setPage v (update (fun _ => 0x01010101) 0 (Machine.address s.freelist)) with
      freelist := some v }

/-- `freerange`, of whole pages. -/
def freerange : Nat → Nat → VmM Unit
  | _, 0 => return
  | p, count + 1 => do
      link.kfree p
      freerange (p + 1) count

/-- `kinit1(end, P2V(4*1024*1024))` -/
def kinit1 : VmM Unit :=
  link.freerange link.firstPage (1024 - link.firstPage)

/-- `kinit2(P2V(4*1024*1024), P2V(PHYSTOP))` -/
def kinit2 : VmM Unit :=
  link.freerange 1024 (phystop / pgsize - 1024)

end Link

/-! ## Page tables -/

/-- A bound on the rounds of every loop over pages. -/
def rounds : Nat := 2 ^ 20

/-- `walkpgdir`: the page and the index of an entry. -/
def walkpgdir (pgdir va : Nat) (alloc : Bool) : VmM (Option (Nat × Nat)) := do
  let s ← get
  let pde := s.mem pgdir (pdx va)
  if isPresent pde then
    return some (target pde, ptx va)
  else if alloc then
    match ← kalloc with
    | none => return none
    | some pgtab =>
      modify fun s => s.setPage pgtab fun _ => 0
      modify fun s => s.setWord pgdir (pdx va) (pgtab * pgsize ||| (pteP ||| pteW ||| pteU))
      return some (pgtab, ptx va)
  else
    return none

/-- The body of the loop of `mappages`. -/
def mapPage (pgdir a pa perm : Nat) : VmM Bool := do
  match ← walkpgdir pgdir a true with
  | none => return false
  | some (pgtab, i) =>
    let s ← get
    if isPresent (s.mem pgtab i) then
      throw .remap
    modify fun s => s.setWord pgtab i (pa ||| (perm ||| pteP))
    return true

/-- The loop of `mappages`. -/
def mapLoop (pgdir last perm : Nat) : Nat → Nat → Nat → VmM Bool
  | 0, _, _ => return false
  | fuel + 1, a, pa => do
      if ← mapPage pgdir a pa perm then
        if a = last then
          return true
        else
          mapLoop pgdir last perm fuel ((a + pgsize) % 2 ^ 32) ((pa + pgsize) % 2 ^ 32)
      else
        return false

/-- `mappages`, for a physical address `pa` of a page. -/
def mappages (pgdir va size pa perm : Nat) : VmM Bool :=
  mapLoop pgdir (pgrounddown ((va + size - 1) % 2 ^ 32)) perm rounds (pgrounddown va) pa

/-- An entry of `kmap`. -/
structure Kmap where
  virt : Nat
  physStart : Nat
  physEnd : Nat
  perm : Nat

/-- `kmap` -/
def Link.kmap (link : Link) : List Kmap :=
  [⟨kernbase, 0, extmem, pteW⟩, ⟨kernlink, extmem, link.data, 0⟩,
    ⟨kernbase + link.data, link.data, phystop, pteW⟩, ⟨devspace, devspace, 0, pteW⟩]

/-- The loop of `setupkvm`. -/
def mapKernel (pgdir : Nat) : List Kmap → VmM Bool
  | [] => return true
  | k :: rest => do
      if ← mappages pgdir k.virt ((k.physEnd + 2 ^ 32 - k.physStart) % 2 ^ 32) k.physStart k.perm
      then mapKernel pgdir rest
      else return false

namespace Link

variable (link : Link)

/-- `setupkvm`; the check of `PHYSTOP` compares constants. -/
def setupkvm : VmM (Option Nat) := do
  match ← kalloc with
  | none => return none
  | some pgdir =>
    modify fun s => s.setPage pgdir fun _ => 0
    if ← mapKernel pgdir link.kmap then
      return some pgdir
    else
      return none

/-- Free the page of a present entry and clear the entry. -/
def clearPte (pgtab i : Nat) : VmM Unit := do
  let s ← get
  let pte := s.mem pgtab i
  if isPresent pte then
    if pteAddr pte = 0 then
      throw .kfree
    link.kfree (target pte)
    modify fun s => s.setWord pgtab i 0

/-- The loop of `deallocuvm`. -/
def deallocLoop (pgdir oldsz : Nat) : Nat → Nat → VmM Unit
  | 0, _ => return
  | fuel + 1, a => do
      if a < oldsz then
        match ← walkpgdir pgdir a false with
        | none => deallocLoop pgdir oldsz fuel ((a + 1023 * pgsize + pgsize) % 2 ^ 32)
        | some (pgtab, i) =>
          link.clearPte pgtab i
          deallocLoop pgdir oldsz fuel ((a + pgsize) % 2 ^ 32)

/-- `deallocuvm` -/
def deallocuvm (pgdir oldsz newsz : Nat) : VmM Nat := do
  if newsz ≥ oldsz then
    return oldsz
  link.deallocLoop pgdir oldsz rounds (pgroundup newsz)
  return newsz

/-- The loop of `allocuvm`.  The result of `mappages` is ignored. -/
def allocLoop (pgdir oldsz newsz : Nat) : Nat → Nat → VmM Nat
  | 0, _ => return newsz
  | fuel + 1, a => do
      if a < newsz then
        match ← kalloc with
        | none =>
          let _ ← link.deallocuvm pgdir newsz oldsz
          return 0
        | some mem =>
          modify fun s => s.setPage mem fun _ => 0
          let _ ← mappages pgdir a pgsize (mem * pgsize) (pteW ||| pteU)
          allocLoop pgdir oldsz newsz fuel (a + pgsize)
      else
        return newsz

/-- `allocuvm` -/
def allocuvm (pgdir oldsz newsz : Nat) : VmM Nat := do
  if newsz ≥ kernbase then
    return 0
  if newsz < oldsz then
    return oldsz
  link.allocLoop pgdir oldsz newsz rounds (pgroundup oldsz)

/-- The loop of `freevm` over the directory. -/
def freeTables (pgdir : Nat) : List Nat → VmM Unit
  | [] => return
  | i :: rest => do
      let s ← get
      let pde := s.mem pgdir i
      if isPresent pde then
        link.kfree (target pde)
      freeTables pgdir rest

/-- `freevm` -/
def freevm (pgdir : Nat) : VmM Unit := do
  let _ ← link.deallocuvm pgdir kernbase 0
  link.freeTables pgdir (List.range 1024)
  link.kfree pgdir

/-- The loop of `copyuvm`. -/
def copyLoop (pgdir d sz : Nat) : Nat → Nat → VmM (Option Nat)
  | 0, _ => return none
  | fuel + 1, i => do
      if i < sz then
        match ← walkpgdir pgdir i false with
        | none => throw .copyuvmExist
        | some (pgtab, k) =>
          let s ← get
          let pte := s.mem pgtab k
          if !isPresent pte then
            throw .copyuvmPresent
          match ← kalloc with
          | none =>
            link.freevm d
            return none
          | some mem =>
            modify fun s => s.setPage mem (s.mem (target pte))
            if ← mappages d i pgsize (mem * pgsize) (pteFlags pte) then
              copyLoop pgdir d sz fuel ((i + pgsize) % 2 ^ 32)
            else
              link.freevm d
              return none
      else
        return some d

/-- `copyuvm` -/
def copyuvm (pgdir sz : Nat) : VmM (Option Nat) := do
  match ← link.setupkvm with
  | none => return none
  | some d => link.copyLoop pgdir d sz rounds 0

end Link

/-- `inituvm`; the results of `kalloc` and `mappages` are not checked. -/
def inituvm (pgdir : Nat) (init : List UInt8) : VmM Unit := do
  if init.length ≥ pgsize then
    throw .inituvmSize
  match ← kalloc with
  | none => throw .nullPointer
  | some mem =>
    modify fun s => s.setPage mem fun _ => 0
    let _ ← mappages pgdir 0 pgsize (mem * pgsize) (pteW ||| pteU)
    modify fun s => s.setPage mem (Machine.storeBytes (s.mem mem) 0 init)

/-- `clearpteu` -/
def clearpteu (pgdir uva : Nat) : VmM Unit := do
  match ← walkpgdir pgdir uva false with
  | none => throw .clearpteu
  | some (pgtab, i) =>
    modify fun s =>
      let pte := s.mem pgtab i
      s.setWord pgtab i (if isUser pte then pte - pteU else pte)

end Xv6.Vm
