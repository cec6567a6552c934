import Xv6.Lib.Wp

/-!
# The memory allocator of user programs

`umalloc.c`: `free`, `morecore` and `malloc`, with pointers and sizes as numbers below
`2 ^ 32`.  Memory is a map from addresses to the header that is there; headers lie in blocks
that do not overlap, so that a header is never changed through a part of another one.
-/

namespace Xv6.Malloc

open Stateful

/-- `sizeof(Header)` -/
def headerSize : Nat := 8

/-- `Header` -/
@[ext]
structure Header where
  ptr : Nat
  size : Nat

/-- The memory of a program, the static `freep`, and the region of `sbrk`. -/
structure Heap where
  mem : Nat → Header
  /-- `0` is the null pointer. -/
  freep : Nat
  /-- The break. -/
  brk : Nat
  /-- The number of calls of `sbrk` so far. -/
  calls : Nat
  /-- The number of bytes that `sbrk` has given. -/
  obtained : Nat

/-- What the allocator is linked with. -/
structure Setting where
  /-- The address of the static header `base`. -/
  base : Nat
  base_pos : 0 < base
  /-- The answer of `sbrk` to each call: it fails, or the break has gone up by so much since the
  last call and it succeeds. -/
  answer : Nat → Option Nat

/-- The loops do not end within the bound on their rounds. -/
inductive Stop
  | fuel
  deriving DecidableEq

abbrev Code := Prog Stop Heap

/-- More rounds than any loop takes. -/
@[irreducible]
def rounds : Nat := 2 ^ 34

/-- `p + n` for a pointer to headers. -/
def advance (p n : Nat) : Nat :=
  (p + headerSize * n) % 2 ^ 32

namespace Heap

/-- `p->s.ptr` -/
def next (h : Heap) (p : Nat) : Nat :=
  (h.mem p).ptr

/-- `p->s.size` -/
def size (h : Heap) (p : Nat) : Nat :=
  (h.mem p).size

def store (h : Heap) (p : Nat) (header : Header) : Heap :=
  { h with mem := Function.update h.mem p header }

/-- Let `y` follow `x`, joined with it if the two touch.  `free` does so for the block and what
follows `p`, and then for `p` and the block. -/
def link (h : Heap) (x y : Nat) : Heap :=
  if advance x (h.size x) = y then
    h.store x ⟨h.next y, (h.size x + h.size y) % 2 ^ 32⟩
  else
    h.store x ⟨y, h.size x⟩

end Heap

/-- The loop of `free`. -/
def freeLoop (bp : Nat) : Nat → Nat → Code Nat
  | 0, _ => throw .fuel
  | fuel + 1, p => do
      let next := (← get).next p
      if bp > p ∧ bp < next then
        return p
      else if p ≥ next ∧ (bp > p ∨ bp < next) then
        return p
      else
        freeLoop bp fuel next

/-- `free` -/
def free (ap : Nat) : Code Unit := do
  let bp := (ap + 2 ^ 32 - headerSize) % 2 ^ 32
  let p ← freeLoop bp rounds (← get).freep
  modify fun h => h.link bp (h.next p)
  modify fun h => h.link p bp
  modify fun h => { h with freep := p }

/-- The block of `nunits` units is taken from `p`, which follows `prevp`. -/
def take (nunits prevp p : Nat) : Code Nat := do
  let h ← get
  if h.size p = nunits then
    modify fun h => h.store prevp ⟨h.next p, h.size prevp⟩
    modify fun h => { h with freep := prevp }
    return advance p 1
  else
    modify fun h => h.store p ⟨h.next p, h.size p - nunits⟩
    let p := advance p (h.size p - nunits)
    modify fun h => h.store p ⟨h.next p, nunits⟩
    modify fun h => { h with freep := prevp }
    return advance p 1

/-- `nunits` in `malloc` -/
def units (nbytes : Nat) : Nat :=
  (nbytes + headerSize - 1) % 2 ^ 32 / headerSize + 1

/-- The size that `growproc` gives to a process, if it has the memory; `n` is an `int`. -/
def growproc (sz n : Nat) : Option Nat :=
  if n = 0 then some sz
  else if n < 2 ^ 31 then
    if sz + n < 2 ^ 31 then some (sz + n) else none
  else
    -- `n` is negative, and `deallocuvm` returns the smaller size
    let newsz := min sz ((sz + n) % 2 ^ 32)
    if newsz = 0 then none else some newsz

namespace Setting

variable (set : Setting)

/-- `sbrk`, which returns the old break if `growproc` succeeds. -/
def sbrk (n : Nat) : Code Nat := do
  let h ← get
  modify fun h => { h with calls := h.calls + 1 }
  match set.answer h.calls with
  | none => return 2 ^ 32 - 1
  | some gap =>
    match growproc (h.brk + gap) n with
    | none => return 2 ^ 32 - 1
    | some sz =>
      modify fun h => { h with brk := sz, obtained := h.obtained + (sz - (h.brk + gap)) }
      return h.brk + gap

/-- `morecore` -/
def morecore (nu : Nat) : Code Nat := do
  let nu := if nu < 4096 then 4096 else nu
  let p ← set.sbrk (nu * headerSize % 2 ^ 32)
  if p = 2 ^ 32 - 1 then
    return 0
  else
    modify fun h => h.store p ⟨h.next p, nu⟩
    free (advance p 1)
    return (← get).freep

/-- The loop of `malloc`. -/
def mallocLoop (nunits : Nat) : Nat → Nat → Nat → Code Nat
  | 0, _, _ => throw .fuel
  | fuel + 1, prevp, p => do
      let h ← get
      if h.size p ≥ nunits then
        take nunits prevp p
      else if p = h.freep then
        let p ← set.morecore nunits
        if p = 0 then
          return 0
        else
          mallocLoop nunits fuel p ((← get).next p)
      else
        mallocLoop nunits fuel p (h.next p)

/-- The first call of `malloc` makes `base` the only block of the list. -/
def start (h : Heap) : Heap :=
  if h.freep = 0 then { h.store set.base ⟨set.base, 0⟩ with freep := set.base } else h

/-- `malloc` -/
def malloc (nbytes : Nat) : Code Nat := do
  modify set.start
  let h ← get
  set.mallocLoop (units nbytes) rounds h.freep (h.next h.freep)

end Setting

end Xv6.Malloc
