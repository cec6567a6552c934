import Xv6.Disk.Block
import Xv6.Lib.Ring
import Xv6.Lib.Trace

/-!
# The buffer cache

The code of `bio.c` and what `iderw` and the disk interrupt do to a buffer.  The
stretches of `bget` and `brelse` under `bcache.lock` are one step each; a process that
finds its block busy sleeps and scans again, which changes nothing.  A disk request
is made in one step and finished in another, in any order among the requests.

Processes use buffers in the one way they may: `bread`, any number of changes that
are followed by `log_write` or `bwrite`, and `brelse`.  A process can hold several
buffers.  A commit is a process that uses buffers in this way: `write_log` and
`install_trans` read two blocks, change one, `bwrite` it and release both.

The low bit of a device number selects the drive, so the devices in use must differ in
it: the kernel itself reads `ROOTDEV` only.  The number `-1` marks a buffer that has not
been used.  Panics stop the machine, so they are no steps; the drives report no errors.
-/

namespace Xv6.Buffer

open Linked Labelled Function

/-- `NBUF` -/
def nbuf : Nat := 30

/-- The index of a buffer in `bcache.buf`. -/
abbrev Index := Fin nbuf

/-- `struct buf` with the flags `B_BUSY`, `B_VALID` and `B_DIRTY`, less its links. -/
structure Buf where
  dev : UInt32
  blockno : UInt32
  busy : Bool
  valid : Bool
  dirty : Bool
  data : Block

/-- The block that a buffer stands for. -/
def Buf.key (buf : Buf) : UInt32 × UInt32 :=
  (buf.dev, buf.blockno)

/-- The device number of a buffer that has not been used. -/
def unused : UInt32 := -1

/-- `bcache` -/
structure Cache where
  buf : Index → Buf
  links : Links Index

namespace Cache

def setBuf (c : Cache) (b : Index) (buf : Buf) : Cache :=
  { c with buf := update c.buf b buf }

/-- The body of the loop of `binit`. -/
def addBuf (c : Cache) (b : Index) : Cache :=
  { c.setBuf b { c.buf b with dev := unused } with links := c.links.pushFront b }

/-- The memory of `bcache` before `binit`, with the head linked to itself. -/
def empty : Cache where
  buf _ := ⟨0, 0, false, false, false, fun _ => 0⟩
  links := ⟨fun _ => none, fun _ => none⟩

def binit : Cache :=
  (List.finRange nbuf).foldl addBuf empty

/-- The first loop of `bget`: the buffer of a block. -/
def lookup (c : Cache) (dev blockno : UInt32) : Option Index :=
  search c.links.next (fun b => (c.buf b).dev = dev ∧ (c.buf b).blockno = blockno) (nbuf + 1)
    (c.links.next none)

/-- The second loop of `bget`: a buffer that is neither busy nor dirty. -/
def victim (c : Cache) : Option Index :=
  search c.links.prev (fun b => (c.buf b).busy = false ∧ (c.buf b).dirty = false) (nbuf + 1)
    (c.links.prev none)

end Cache

/-- What a scan of `bget` ends in. -/
inductive Got
  | got (b : Index) (c : Cache)
  | sleep (b : Index)
  | noBuffers

namespace Cache

/-- `bget`, from `loop:` on. -/
def bget (c : Cache) (dev blockno : UInt32) : Got :=
  match c.lookup dev blockno with
  | some b =>
    if (c.buf b).busy then .sleep b else .got b (c.setBuf b { c.buf b with busy := true })
  | none =>
    match c.victim with
    | some b =>
      .got b (c.setBuf b
        { c.buf b with dev, blockno, busy := true, valid := false, dirty := false })
    | none => .noBuffers

/-- `brelse` -/
def brelse (c : Cache) (b : Index) : Cache :=
  { c.setBuf b { c.buf b with busy := false } with links := (c.links.unlink b).pushFront b }

end Cache

/-- The drive of a device: `b->dev&1` in `idestart`. -/
def drive (dev : UInt32) : UInt32 :=
  dev &&& 1

/-- The device numbers that callers pass to `bread`. -/
structure Devices where
  inUse : UInt32 → Prop
  not_unused : ¬ inUse unused
  drive_injective : ∀ dev dev', inUse dev → inUse dev' → drive dev = drive dev' → dev = dev'

/-- The cache and the drives, with what the processes are doing. -/
structure System (Pid : Type) where
  cache : Cache
  /-- The blocks of each drive. -/
  disk : UInt32 → UInt32 → Block
  /-- The process between `bread` and `brelse` of a buffer. -/
  owner : Index → Option Pid
  /-- The buffer is in `idequeue`, and its owner waits in `iderw`. -/
  io : Index → Bool
  /-- The owner has changed the data and not yet called `log_write` or `bwrite`. -/
  unsaved : Index → Bool

/-- What a run shows of a step. -/
inductive Event (Pid : Type)
  | internal
  /-- `bread` returns a buffer with this data. -/
  | read (p : Pid) (dev blockno : UInt32) (data : Block)
  /-- `brelse` gives back a buffer with this data. -/
  | released (p : Pid) (dev blockno : UInt32) (data : Block)

namespace System

variable {Pid : Type}

def setOwner (s : System Pid) (b : Index) (p : Option Pid) : System Pid :=
  { s with owner := update s.owner b p }

def setIo (s : System Pid) (b : Index) (io : Bool) : System Pid :=
  { s with io := update s.io b io }

def setUnsaved (s : System Pid) (b : Index) (unsaved : Bool) : System Pid :=
  { s with unsaved := update s.unsaved b unsaved }

/-- Write some fields of a buffer. -/
def modify (s : System Pid) (b : Index) (f : Buf → Buf) : System Pid :=
  { s with cache := s.cache.setBuf b (f (s.cache.buf b)) }

/-- The data of the block that a buffer stands for, on its drive. -/
def onDisk (s : System Pid) (b : Index) : Block :=
  s.disk (drive (s.cache.buf b).dev) (s.cache.buf b).blockno

/-- Write the data of a buffer to its drive. -/
def store (s : System Pid) (b : Index) : System Pid :=
  let buf := s.cache.buf b
  { s with
    disk := update s.disk (drive buf.dev)
      (update (s.disk (drive buf.dev)) buf.blockno buf.data) }

/-- The machine after `binit`. -/
def boot (disk : UInt32 → UInt32 → Block) : System Pid where
  cache := Cache.binit
  disk := disk
  owner _ := none
  io _ := false
  unsaved _ := false

end System

variable {Pid : Type}

/-- The steps of the processes and of the drives. -/
inductive Step (devices : Devices) : System Pid → Event Pid → System Pid → Prop
  /-- `bread` finds the data in the cache. -/
  | hit {s : System Pid} {p : Pid} {dev blockno : UInt32} {b : Index} {c : Cache} :
      devices.inUse dev → s.cache.bget dev blockno = .got b c → (c.buf b).valid = true →
      Step devices s (.read p dev blockno (c.buf b).data)
        ({ s with cache := c }.setOwner b (some p))
  /-- `bread` has a buffer without the data and calls `iderw`. -/
  | miss {s : System Pid} {p : Pid} {dev blockno : UInt32} {b : Index} {c : Cache} :
      devices.inUse dev → s.cache.bget dev blockno = .got b c → (c.buf b).valid = false →
      Step devices s .internal (({ s with cache := c }.setOwner b (some p)).setIo b true)
  /-- `bread` finds the buffer busy and sleeps. -/
  | wait {s : System Pid} {dev blockno : UInt32} {b : Index} :
      s.cache.bget dev blockno = .sleep b → Step devices s .internal s
  /-- The interrupt at the end of a read: `bread` returns. -/
  | readDone {s : System Pid} {p : Pid} {b : Index} :
      s.io b = true → s.owner b = some p → (s.cache.buf b).dirty = false →
      Step devices s (.read p (s.cache.buf b).dev (s.cache.buf b).blockno (s.onDisk b))
        ((s.modify b fun buf => { buf with data := s.onDisk b, valid := true }).setIo b false)
  /-- The interrupt at the end of a write: `bwrite` returns. -/
  | writeDone {s : System Pid} {b : Index} :
      s.io b = true → (s.cache.buf b).dirty = true →
      Step devices s .internal
        (((s.store b).modify b fun buf => { buf with valid := true, dirty := false }).setIo b
          false)
  /-- The owner changes the data. -/
  | change {s : System Pid} {p : Pid} {b : Index} (data : Block) :
      s.owner b = some p → s.io b = false →
      Step devices s .internal ((s.modify b fun buf => { buf with data }).setUnsaved b true)
  /-- `log_write`, as far as it changes the buffer. -/
  | logWrite {s : System Pid} {p : Pid} {b : Index} :
      s.owner b = some p → s.io b = false →
      Step devices s .internal
        ((s.modify b fun buf => { buf with dirty := true }).setUnsaved b false)
  /-- `bwrite` up to its wait. -/
  | bwrite {s : System Pid} {p : Pid} {b : Index} :
      s.owner b = some p → s.io b = false → (s.cache.buf b).busy = true →
      Step devices s .internal
        (((s.modify b fun buf => { buf with dirty := true }).setUnsaved b false).setIo b true)
  | brelse {s : System Pid} {p : Pid} {b : Index} :
      s.owner b = some p → s.io b = false → s.unsaved b = false →
      (s.cache.buf b).busy = true →
      Step devices s
        (.released p (s.cache.buf b).dev (s.cache.buf b).blockno (s.cache.buf b).data)
        ({ s with cache := s.cache.brelse b }.setOwner b none)

/-- The data that the last holder of a block has left, and before there was one the data
on the drive; the newest event is the first. -/
def left (disk : UInt32 → UInt32 → Block) (block : UInt32 × UInt32) : List (Event Pid) → Block
  | [] => disk (drive block.1) block.2
  | .released _ dev blockno data :: events =>
    if (dev, blockno) = block then data else left disk block events
  | _ :: events => left disk block events

end Xv6.Buffer
