import Xv6.Fs.Dir

/-!
# The program that makes a file system

The code of `mkfs.c`.  It runs on the host and builds the image of a file system
from a list of host files.  The image is a file of sectors; a sector that lies
beyond its end cannot be read, and then the program exits with status 1.
Writing to the image does not fail.
-/

namespace Xv6.Mkfs

open Stateful Fs

/-- `FSSIZE`: the blocks of the image. -/
def fssize : Nat := 1000

/-- `NINODES` -/
def ninodes : Nat := 200

/-- `LOGSIZE` -/
def nlog : Nat := 30

/-- The blocks of the bitmap. -/
def nbitmap : Nat := fssize / (bsize * 8) + 1

/-- The blocks of inodes. -/
def ninodeblocks : Nat := ninodes / ipb + 1

/-- The blocks before the data. -/
def nmeta : Nat := 2 + nlog + ninodeblocks + nbitmap

/-- The blocks of the data area. -/
def nblocks : Nat := fssize - nmeta

def sb : Superblock where
  size := fssize
  nblocks := nblocks
  ninodes := ninodes
  nlog := nlog
  logstart := 2
  inodestart := 2 + nlog
  bmapstart := 2 + nlog + ninodeblocks

/-- The sector that holds the superblock. -/
def superblock : Block :=
  Bytes.writeWords (fun _ => 0) 0
    (fun i => [sb.size, sb.nblocks, sb.ninodes, sb.nlog, sb.logstart, sb.inodestart,
      sb.bmapstart].getD i 0) 7

/-- Why the program does not exit with status 0. -/
inductive Exit
  /-- An assertion fails. -/
  | assertion
  /-- A file cannot be opened or read: `perror` and `exit(1)`. -/
  | perror
  deriving DecidableEq

/-- The image file and the two counters. -/
structure Image where
  sectors : Nat → Block
  /-- The length of the file in sectors. -/
  length : Nat
  freeinode : Nat
  freeblock : Nat

/-- The file has just been truncated. -/
def Image.empty : Image where
  sectors _ := fun _ => 0
  length := 0
  freeinode := 1
  freeblock := nmeta

abbrev M (α : Type) := Prog Exit Image α

/-! ## Sectors -/

/-- The sector at `sec * BSIZE`, a product of 32-bit numbers. -/
def seek (sec : Nat) : Nat :=
  sec * bsize % 2 ^ 32 / bsize

def rsect (sec : Nat) : M Block := do
  let img ← get
  if seek sec < img.length then return img.sectors (seek sec) else throw .perror

def wsect (sec : Nat) (buf : Block) : M Unit :=
  modify fun img =>
    { img with
      sectors := Function.update img.sectors (seek sec) buf
      length := max img.length (seek sec + 1) }

/-! ## Inodes -/

def winode (inum : Nat) (d : Dinode) : M Unit := do
  let buf ← rsect (sb.iblock inum)
  wsect (sb.iblock inum) (Dinode.put buf (inum % ipb) d)

def rinode (inum : Nat) : M Dinode := do
  let buf ← rsect (sb.iblock inum)
  return Dinode.get buf (inum % ipb)

def ialloc (type : UInt16) : M Nat := do
  let inum := (← get).freeinode
  modify fun img => { img with freeinode := inum + 1 }
  winode inum { Dinode.zero with type := type, nlink := 1 }
  return inum

/-- `balloc`: mark the first `n` blocks as used. -/
def balloc (n : Nat) : M Unit := do
  if n < bsize * 8 then
    wsect sb.bmapstart ((List.range n).foldl Bitmap.set fun _ => 0)
  else
    throw .assertion

/-- `freeblock++` -/
def nextBlock : M Nat := do
  let b := (← get).freeblock
  modify fun img => { img with freeblock := b + 1 }
  return b

/-- The address of block `fbn` of the file, which may be new; and the inode with it. -/
def blockFor (din : Dinode) (fbn : Nat) : M (Dinode × Nat) := do
  if fbn < ndirect then
    if din.addr fbn = 0 then
      let b ← nextBlock
      return (din.setAddr fbn b, b)
    else
      return (din, din.addr fbn)
  else
    let din ←
      if din.addr ndirect = 0 then
        let b ← nextBlock
        pure (din.setAddr ndirect b)
      else
        pure din
    let indirect ← rsect (din.addr ndirect)
    if indirect.word (fbn - ndirect) = 0 then
      let b ← nextBlock
      wsect (din.addr ndirect) (indirect.setWord (fbn - ndirect) b)
      return (din, b)
    else
      return (din, indirect.word (fbn - ndirect))

/-- One turn of the loop of `iappend`: the inode, and how many bytes of `p` are
stored at `off`. -/
def appendPiece (din : Dinode) (off : Nat) (p : List UInt8) : M (Dinode × Nat) := do
  let fbn := off / bsize
  if fbn < maxfile then
    let (din, x) ← blockFor din fbn
    let n1 := min p.length ((fbn + 1) * bsize - off)
    let buf ← rsect x
    wsect x (Bytes.copyIn buf (off - fbn * bsize) n1 fun j => p.getD j 0)
    return (din, n1)
  else
    throw .assertion

/-- The loop of `iappend`.  Every turn stores at least one byte. -/
def iappendLoop : Nat → Dinode → Nat → List UInt8 → M (Dinode × Nat)
  | 0, din, off, _ => return (din, off)
  | turns + 1, din, off, p =>
    if p.length = 0 then
      return (din, off)
    else do
      let (din, n1) ← appendPiece din off p
      iappendLoop turns din (off + n1) (p.drop n1)

def iappend (inum : Nat) (p : List UInt8) : M Unit := do
  let din ← rinode inum
  let (din, off) ← iappendLoop p.length din din.size.toNat p
  winode inum { din with size := UInt32.ofNat off }

/-! ## The program -/

/-- A host file as the program sees it: its name, whether it can be opened, and what
the calls of `read` return until there is nothing left. -/
structure HostFile where
  name : List UInt8
  opens : Bool
  chunks : List (List UInt8)
  noNul : 0 ∉ name
  pieces : ∀ c ∈ chunks, 0 < c.length ∧ c.length ≤ bsize

namespace HostFile

/-- The bytes of the file. -/
def bytes (f : HostFile) : List UInt8 :=
  f.chunks.flatten

/-- The name in the image, without a leading `_`. -/
def target (f : HostFile) : List UInt8 :=
  if f.name.head? = some 95 then f.name.tail else f.name

end HostFile

/-- The bytes of a directory entry. -/
def entry (name : List UInt8) (inum : Nat) : List UInt8 :=
  (List.range direntSize).map (Dirent.named name inum).byte

/-- The loop that copies a host file. -/
def copyChunks (inum : Nat) : List (List UInt8) → M Unit
  | [] => return ()
  | c :: rest => do
      iappend inum c
      copyChunks inum rest

def addFile (rootino : Nat) (f : HostFile) : M Unit := do
  if slash ∈ f.name then
    throw .assertion
  else if f.opens then
    let inum ← ialloc tFile
    iappend rootino (entry f.target inum)
    copyChunks inum f.chunks
  else
    throw .perror

/-- The loop over the host files. -/
def addFiles (rootino : Nat) : List HostFile → M Unit
  | [] => return ()
  | f :: rest => do
      addFile rootino f
      addFiles rootino rest

/-- The loop that writes zeroes to the first `n` sectors. -/
def zeroSectors : Nat → M Unit
  | 0 => return ()
  | n + 1 => do
      zeroSectors n
      wsect n fun _ => 0

theorem zeroSectors_zero : zeroSectors 0 = return () := rfl

theorem zeroSectors_succ (n : Nat) :
    zeroSectors (n + 1) = zeroSectors n >>= fun _ => wsect n fun _ => 0 := rfl

-- unfolding would run the loop
attribute [irreducible] zeroSectors

/-- Fix the size of the root directory. -/
def roundSize (rootino : Nat) : M Unit := do
  let din ← rinode rootino
  winode rootino { din with size := UInt32.ofNat ((din.size.toNat / bsize + 1) * bsize) }

def main (files : List HostFile) : M Unit := do
  zeroSectors fssize
  wsect 1 superblock
  let rootino ← ialloc tDir
  if rootino = rootIno then
    iappend rootino (entry dot rootino)
    iappend rootino (entry dotdot rootino)
    addFiles rootino files
    roundSize rootino
    balloc (← get).freeblock
  else
    throw .assertion

/-- The image that the program leaves when it exits with status 0. -/
def mkfs (files : List HostFile) : Except Exit Image :=
  ((main files).run Image.empty).map (·.2)

end Xv6.Mkfs
