import Xv6.Fs.Layout
import Xv6.Lib.Wp

/-!
# The file system state, blocks and inodes

The code of the lower half of `fs.c`: the block allocator, the inode table and
the inode cache.  The disk is the one seen through the buffer cache and the log,
so `log_write` after a change of a buffer is one update of the disk here.  There
is one device.

A call runs without interference.  It returns, or it stops the machine by a
panic, or it sleeps for ever on a lock that it holds itself.
-/

namespace Xv6.Fs

open Stateful

/-- `NINODE`: entries of the inode cache. -/
def ninode : Nat := 50

/-- `NDEV`: entries of the device switch. -/
def ndev : Nat := 10

/-- Why a call does not return. -/
inductive Halt
  /-- `"balloc: out of blocks"` -/
  | outOfBlocks
  /-- `"freeing free block"` -/
  | freeingFreeBlock
  /-- `"iget: no inodes"` -/
  | cacheFull
  /-- `"ilock"` -/
  | ilock
  /-- `"ilock: no type"` -/
  | noType
  /-- `"bmap: out of range"` -/
  | bmapRange
  /-- `"dirlookup not DIR"` -/
  | notDir
  /-- `"dirlink read"` -/
  | dirlinkRead
  /-- Not a panic: the call sleeps for ever. -/
  | asleep
  deriving DecidableEq

/-- What a call shows of its use of the log. -/
inductive OpEvent
  | logWrite (b : Nat)
  deriving DecidableEq

/-- `struct inode`: a cache entry with its copy of the inode on the disk. -/
structure Inode where
  dev : Nat
  inum : Nat
  ref : Nat
  /-- `I_BUSY` -/
  busy : Bool
  /-- `I_VALID` -/
  valid : Bool
  copy : Dinode

/-- An entry of `devsw`.  What a device reads or writes is outside this model, but
for the result of the call: the bytes read or the count written, or -1. -/
structure Device where
  read : Option (Nat → Option (List UInt8))
  write : Option ((Nat → UInt8) → Nat → Option Nat)

/-- A pointer to an entry of the inode cache. -/
abbrev Entry := Fin ninode

instance : NeZero ninode := ⟨by decide⟩

/-- The state of `fs.c`. -/
structure State where
  sb : Superblock
  disk : Nat → Block
  icache : Entry → Inode
  devsw : Nat → Device
  /-- The calls of `begin_op`, `log_write` and `end_op`, newest first. -/
  trace : List OpEvent

abbrev M (α : Type) := Prog Halt State α

/-- A short as a number. -/
def short (x : UInt16) : Int :=
  if x.toNat < 2 ^ 15 then x.toNat else x.toNat - 2 ^ 16

/-! ## Blocks -/

def bread (b : Nat) : M Block := do
  return (← get).disk b

/-- Change the data of a buffer and `log_write` it. -/
def logWrite (b : Nat) (data : Block) : M Unit :=
  modify fun s =>
    { s with disk := Function.update s.disk b data, trace := .logWrite b :: s.trace }

def readsb : M Unit :=
  modify fun s => { s with sb := Superblock.decode (s.disk 1) }

def bzero (b : Nat) : M Unit := do
  let _ ← bread b
  logWrite b fun _ => 0

/-- The inner loop of `balloc`: the first clear bit of a bitmap block, which starts
at block `b`. -/
def freeBit (sb : Superblock) (bitmap : Block) (b : Nat) : Option Nat :=
  (List.range bpb).find? fun bi => b + bi < sb.size ∧ Bitmap.get bitmap bi = false

/-- The outer loop of `balloc`, over the first block of each bitmap block. -/
def ballocLoop : List Nat → M Nat
  | [] => throw .outOfBlocks
  | b :: rest => do
      let sb := (← get).sb
      let bp ← bread (sb.bblock b)
      match freeBit sb bp b with
      | some bi =>
        logWrite (sb.bblock b) (Bitmap.set bp bi)
        bzero (b + bi)
        return b + bi
      | none => ballocLoop rest

/-- The values of `b` in `for(b = 0; b < sb.size; b += BPB)`, which is an `int`: the size is at
most `2 ^ 31`. -/
def bitmapStarts (sb : Superblock) : List Nat :=
  (List.range ((sb.size + bpb - 1) / bpb)).map (· * bpb)

def balloc : M Nat := do
  ballocLoop (bitmapStarts (← get).sb)

def bfree (b : Nat) : M Unit := do
  readsb
  let sb := (← get).sb
  let bp ← bread (sb.bblock b)
  if Bitmap.get bp (b % bpb) = false then
    throw .freeingFreeBlock
  else
    logWrite (sb.bblock b) (Bitmap.clear bp (b % bpb))

/-! ## Inodes -/

def setInode (e : Entry) (ip : Inode) : M Unit :=
  modify fun s => { s with icache := Function.update s.icache e ip }

/-- An assignment to the copied fields of a cache entry. -/
def setCopy (e : Entry) (change : Dinode → Dinode) : M Unit := do
  let ip := (← get).icache e
  setInode e { ip with copy := change ip.copy }

def iget (dev inum : Nat) : M Entry := do
  let s ← get
  match (List.finRange ninode).find? fun e =>
      0 < (s.icache e).ref ∧ (s.icache e).dev = dev ∧ (s.icache e).inum = inum with
  | some e =>
    setInode e { s.icache e with ref := (s.icache e).ref + 1 }
    return e
  | none =>
    -- recycle the first unused entry
    match (List.finRange ninode).find? fun e => (s.icache e).ref = 0 with
    | none => throw .cacheFull
    | some e =>
      setInode e
        { s.icache e with dev := dev, inum := inum, ref := 1, busy := false, valid := false }
      return e

def iupdate (e : Entry) : M Unit := do
  let s ← get
  let ip := s.icache e
  let bp ← bread (s.sb.iblock ip.inum)
  logWrite (s.sb.iblock ip.inum) (Dinode.put bp (ip.inum % ipb) ip.copy)

def ilock (e : Entry) : M Unit := do
  let s ← get
  let ip := s.icache e
  if ip.ref < 1 then
    throw .ilock
  else if ip.busy then
    throw .asleep
  else if ip.valid then
    setInode e { ip with busy := true }
  else
    let bp ← bread (s.sb.iblock ip.inum)
    let d := Dinode.get bp (ip.inum % ipb)
    setInode e { ip with busy := true, valid := true, copy := d }
    if d.type = 0 then throw .noType else return ()

/-! ## Inode content -/

def bmap (e : Entry) (bn : Nat) : M Nat := do
  let ip := (← get).icache e
  if bn < ndirect then
    if ip.copy.addr bn = 0 then
      let addr ← balloc
      setCopy e fun d => d.setAddr bn addr
      return addr
    else
      return ip.copy.addr bn
  else if bn - ndirect < nindirect then
    -- load the indirect block, allocating if necessary
    let indirect ←
      if ip.copy.addr ndirect = 0 then
        let addr ← balloc
        setCopy e fun d => d.setAddr ndirect addr
        pure addr
      else
        pure (ip.copy.addr ndirect)
    let bp ← bread indirect
    if bp.word (bn - ndirect) = 0 then
      let addr ← balloc
      logWrite indirect (bp.setWord (bn - ndirect) addr)
      return addr
    else
      return bp.word (bn - ndirect)
  else
    throw .bmapRange

/-- The loop of `readi`: `left` bytes from `off`.  Every turn reads at least one
byte, so as many turns as there are bytes are enough. -/
def readiLoop (e : Entry) : Nat → Nat → Nat → M (List UInt8)
  | 0, _, _ => return []
  | turns + 1, left, off =>
    if left = 0 then
      return []
    else do
      let bp ← bread (← bmap e (off / bsize))
      let m := min left (bsize - off % bsize)
      let rest ← readiLoop e turns (left - m) (off + m)
      return (List.range m).map (fun j => Bytes.byteAt bp (off % bsize + j)) ++ rest

/-- `readi`: the bytes it copies to `dst`, or nothing for -1. -/
def readi (e : Entry) (off n : UInt32) : M (Option (List UInt8)) := do
  let s ← get
  let d := (s.icache e).copy
  if d.type = tDev then
    if short d.major < 0 ∨ ndev ≤ short d.major then
      return none
    else
      match (s.devsw d.major.toNat).read with
      | none => return none
      | some read => return read n.toNat
  else if off > d.size ∨ off + n < off then
    return none
  else
    let n := if off + n > d.size then d.size - off else n
    return some (← readiLoop e n.toNat n.toNat off.toNat)

/-- The loop of `writei`: `left` bytes of `src` to `off`.  Returns the last value of
`off`. -/
def writeiLoop (e : Entry) : Nat → (Nat → UInt8) → Nat → Nat → M Nat
  | 0, _, _, off => return off
  | turns + 1, src, left, off =>
    if left = 0 then
      return off
    else do
      let b ← bmap e (off / bsize)
      let bp ← bread b
      let m := min left (bsize - off % bsize)
      logWrite b (Bytes.copyIn bp (off % bsize) m src)
      writeiLoop e turns (fun j => src (j + m)) (left - m) (off + m)

/-- `writei`: the count written, or nothing for -1. -/
def writei (e : Entry) (src : Nat → UInt8) (off n : UInt32) : M (Option Nat) := do
  let s ← get
  let d := (s.icache e).copy
  if d.type = tDev then
    if short d.major < 0 ∨ ndev ≤ short d.major then
      return none
    else
      match (s.devsw d.major.toNat).write with
      | none => return none
      | some write => return write src n.toNat
  else if off > d.size ∨ off + n < off then
    return none
  else if (off + n).toNat > maxfile * bsize then
    return none
  else
    let last ← writeiLoop e n.toNat src n.toNat off.toNat
    let size := ((← get).icache e).copy.size
    if 0 < n.toNat ∧ size.toNat < last then
      setCopy e fun d => { d with size := UInt32.ofNat last }
      iupdate e
      return some n.toNat
    else
      return some n.toNat

end Xv6.Fs
