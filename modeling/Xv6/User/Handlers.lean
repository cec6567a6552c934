import Xv6.User.Memory

/-!
# Handlers that take user pointers

The handlers `sys_read`, `sys_write`, `sys_fstat`, `sys_pipe`, `sys_date` and
`sys_getprocs` with the functions they call, as far as these use the pointer that
the handler passes on.  A result is the value of the system call.
-/

namespace Xv6.User

open Stateful Fs Function

/-- Update the file that a handler works on. -/
def setFile (f : Nat) (file : File) : UserM Unit :=
  modify fun s => { s with file := update s.file f file }

def setConsole (keys : List UInt8) : UserM Unit :=
  modify fun s => { s with console := keys }

/-! ## Pipes and the console -/

/-- The copying loop of `piperead`: the number of bytes read. -/
def pipereadLoop (addr : UInt32) : List UInt8 → Nat → UserM Nat
  | _, 0 => return 0
  | [], _ + 1 => return 0
  | b :: unread, n + 1 => do
      store addr b
      return (← pipereadLoop (addr + 1) unread n) + 1

def piperead (p : Pipe) (addr : UInt32) (n : Int) : UserM Int := do
  if p.killed then
    return -1
  else
    return (← pipereadLoop addr p.unread n.toNat : Nat)

/-- The loop of `pipewrite` from byte `i` on: whether all bytes are written. -/
def pipewriteLoop (p : Pipe) (addr : UInt32) : Nat → Nat → UserM Bool
  | _, 0 => return true
  | i, n + 1 => do
      if p.givesUp i then
        return false
      else
        let _ ← load addr
        pipewriteLoop p (addr + 1) (i + 1) n

def pipewrite (p : Pipe) (addr : UInt32) (n : Int) : UserM Int := do
  if ← pipewriteLoop p addr 0 n.toNat then
    return n
  else
    return -1

/-- `C('D')` -/
def controlD : UInt8 := 4

/-- `'\n'` -/
def newline : UInt8 := 10

/-- The loop of `consoleread` with `n` bytes left of `target`. -/
def consolereadLoop (target : Nat) (dst : UInt32) : List UInt8 → Nat → UserM Int
  | keys, 0 => do
      setConsole keys
      return target
  | [], _ + 1 => return -1
  | c :: keys, n + 1 => do
      if c = controlD then
        setConsole (if n + 1 < target then c :: keys else keys)
        return target - (n + 1 : Nat)
      else
        store dst c
        if c = newline then
          setConsole keys
          return target - n
        else
          consolereadLoop target (dst + 1) keys n

def consoleread (dst : UInt32) (n : Int) : UserM Int := do
  consolereadLoop n.toNat dst (← get).console n.toNat

def consolewrite (buf : UInt32) (n : Int) : UserM Int := do
  let _ ← loadBytes buf n.toNat
  return n

/-- `CONSOLE`: the major number of the only device with functions in `devsw`. -/
def consoleMajor : Int := 1

/-! ## Inodes -/

/-- The loop of `readi`: `left` bytes from `off`, block by block. -/
def readiLoop (ip : Inode) : Nat → UInt32 → Nat → Nat → UserM Unit
  | 0, _, _, _ => return ()
  | turns + 1, dst, off, left => do
      if left = 0 then
        return ()
      else
        let m := min left (bsize - off % bsize)
        storeBytes dst ((List.range m).map fun j => ip.data (off + j))
        readiLoop ip turns (dst + UInt32.ofNat m) (off + m) (left - m)

def readi (ip : Inode) (dst off n : UInt32) : UserM Int := do
  if ip.type = tDev then
    if short ip.major < 0 ∨ ndev ≤ short ip.major ∨ short ip.major ≠ consoleMajor then
      return -1
    else
      consoleread dst (int n)
  else if off > ip.size ∨ off + n < off then
    return -1
  else
    let n := if off + n > ip.size then ip.size - off else n
    readiLoop ip n.toNat dst off.toNat n.toNat
    return int n

/-- The loop of `writei`: the bytes of the file after it. -/
def writeiLoop : Nat → (Nat → UInt8) → UInt32 → Nat → Nat → UserM (Nat → UInt8)
  | 0, data, _, _, _ => return data
  | turns + 1, data, src, off, left => do
      if left = 0 then
        return data
      else
        let m := min left (bsize - off % bsize)
        let bytes ← loadBytes src m
        writeiLoop turns (fun i => if off ≤ i then bytes.getD (i - off) (data i) else data i)
          (src + UInt32.ofNat m) (off + m) (left - m)

/-- `writei`: the result and the inode after it. -/
def writei (ip : Inode) (src off n : UInt32) : UserM (Int × Inode) := do
  if ip.type = tDev then
    if short ip.major < 0 ∨ ndev ≤ short ip.major ∨ short ip.major ≠ consoleMajor then
      return (-1, ip)
    else
      return (← consolewrite src (int n), ip)
  else if off > ip.size ∨ off + n < off then
    return (-1, ip)
  else if (off + n).toNat > maxfile * bsize then
    return (-1, ip)
  else
    let data ← writeiLoop n.toNat ip.data src off.toNat n.toNat
    return (int n, { ip with data, size := max ip.size (off + n) })

/-- `stati` -/
def stati (ip : Inode) (st : UInt32) : UserM Unit := do
  storeWord (st + 4) ip.dev
  storeWord (st + 8) ip.inum
  storeBytes st (halfBytes ip.type)
  storeBytes (st + 12) (halfBytes ip.nlink)
  storeWord (st + 16) ip.size

/-! ## Files -/

def fileread (f : Nat) (addr n : UInt32) : UserM Int := do
  let file := (← get).file f
  if file.readable = false then
    return -1
  else
    match file.type with
    | .pipe => piperead file.pipe addr (int n)
    | .inode => do
        let r ← readi file.ip addr file.off n
        if 0 < r then
          setFile f { file with off := file.off + UInt32.ofNat r.toNat }
          return r
        else
          return r
    | .none => throw .fileread

/-- `((LOGSIZE-1-1-2) / 2) * 512` -/
def maxChunk : Nat := ((30 - 1 - 1 - 2) / 2) * 512

/-- The loop of `filewrite` with `left = n - i`: whether all bytes are written. -/
def filewriteLoop (f : Nat) : Nat → UInt32 → Nat → UserM Bool
  | 0, _, left => return left = 0
  | turns + 1, addr, left => do
      if left = 0 then
        return true
      else
        let n1 := min left maxChunk
        let file := (← get).file f
        let (r, ip) ← writei file.ip addr file.off (UInt32.ofNat n1)
        setFile f { file with ip, off := file.off + UInt32.ofNat r.toNat }
        if r < 0 then
          return false
        else if r ≠ n1 then
          throw .shortFilewrite
        else
          filewriteLoop f turns (addr + UInt32.ofNat n1) (left - n1)

def filewrite (f : Nat) (addr n : UInt32) : UserM Int := do
  let file := (← get).file f
  if file.writable = false then
    return -1
  else
    match file.type with
    | .pipe => pipewrite file.pipe addr (int n)
    | .inode => do
        -- The loop ends with i = 0 at once when n is negative, and 0 is not n.
        if int n < 0 then
          return -1
        else if ← filewriteLoop f (int n).toNat addr (int n).toNat then
          return int n
        else
          return -1
    | .none => throw .filewrite

def filestat (f : Nat) (st : UInt32) : UserM Int := do
  let file := (← get).file f
  if file.type = .inode then
    stati file.ip st
    return 0
  else
    return -1

/-! ## Handlers -/

def sysRead : UserM Int := do
  let s ← get
  match s.argfd 0, s.argint 2 with
  | some (_, f), some n =>
    match s.argptr 1 n with
    | some p => fileread f p n
    | none => return -1
  | _, _ => return -1

def sysWrite : UserM Int := do
  let s ← get
  match s.argfd 0, s.argint 2 with
  | some (_, f), some n =>
    match s.argptr 1 n with
    | some p => filewrite f p n
    | none => return -1
  | _, _ => return -1

/-- `sizeof(struct stat)` -/
def statSize : UInt32 := 20

def sysFstat : UserM Int := do
  let s ← get
  match s.argfd 0, s.argptr 1 statSize with
  | some (_, f), some st => filestat f st
  | _, _ => return -1

/-- `fdalloc`: the first unused descriptor. -/
def fdalloc (f : Nat) : UserM (Option (Fin 16)) := do
  let s ← get
  match (List.finRange 16).find? fun fd => (s.ofile fd).isNone with
  | none => return none
  | some fd =>
    modify fun s => { s with ofile := update s.ofile fd (some f) }
    return some fd

def fdclear (fd : Fin 16) : UserM Unit :=
  modify fun s => { s with ofile := update s.ofile fd none }

def sysPipe : UserM Int := do
  let s ← get
  match s.argptr 0 8 with
  | none => return -1
  | some fd =>
    match s.pipes with
    | none => return -1
    | some (rf, wf) =>
      match ← fdalloc rf with
      | none => return -1
      | some fd0 =>
        match ← fdalloc wf with
        | none =>
          fdclear fd0
          return -1
        | some fd1 =>
          storeWord fd (UInt32.ofNat fd0.val)
          storeWord (fd + 4) (UInt32.ofNat fd1.val)
          return 0

/-- `cmostime`: store the date, then add the century to its year. -/
def cmostime (r : UInt32) : UserM Unit := do
  let t := (← get).clock
  storeWord r (t 0)
  storeWord (r + 4) (t 1)
  storeWord (r + 8) (t 2)
  storeWord (r + 12) (t 3)
  storeWord (r + 16) (t 4)
  storeWord (r + 20) (t 5)
  let _ ← loadBytes (r + 20) 4
  storeWord (r + 20) (t 5 + 2000)

/-- `sizeof(struct rtcdate)` -/
def dateSize : UInt32 := 24

/-- `sys_date` does not look at the result of `argptr`, which sets `d` only when it
succeeds. -/
def sysDate : UserM Int := do
  let s ← get
  cmostime ((s.argptr 0 dateSize).getD s.garbage)
  return 0

/-- `sizeof(struct uproc)` -/
def uprocSize : UInt32 := 56

/-- `states[p->state]` -/
def stateText : Process.ProcState → String
  | .unused => "UNUSED "
  | .embryo => "EMBRYO "
  | .sleeping => "SLEEP  "
  | .runnable => "READY  "
  | .running => "RUNNING"
  | .zombie => "ZOMBIE "

def textBytes (text : String) : List UInt8 :=
  text.toList.map fun c => UInt8.ofNat c.toNat

/-- One entry of the table that `getProcInfo` fills. -/
def storeEntry (entry : UInt32) (p : ProcInfo) : UserM Unit := do
  storeWord entry p.pid
  storeWord (entry + 4) p.uid
  storeWord (entry + 8) p.gid
  storeWord (entry + 12) p.ppid
  storeWord (entry + 36) p.sz
  storeWord (entry + 16) p.priority
  storeBytes (entry + 40) p.name
  storeBytes (entry + 20) (textBytes (stateText p.state))

/-- The loop of `getProcInfo` over the slots in use. -/
def getProcInfoLoop (entry : UInt32) : List ProcInfo → UserM Unit
  | [] => return ()
  | p :: procs => do
      storeEntry entry p
      getProcInfoLoop (entry + uprocSize) procs

/-- The slots that `getProcInfo` copies, in table order. -/
def Machine.inUse (s : Machine) : List ProcInfo :=
  ((List.finRange Process.nproc).map s.proc).filter fun p => p.state ≠ .unused

/-- `getProcInfo` compares the number of entries with `max` after it has stored
them. -/
def getProcInfo (max : Int) (table : UInt32) : UserM Int := do
  let procs := (← get).inUse
  getProcInfoLoop table procs
  if procs.length > max then
    return -1
  else
    return procs.length

def sysGetprocs : UserM Int := do
  let s ← get
  match s.argint 0, s.argptr 1 uprocSize with
  | some max, some table => getProcInfo (int max) table
  | _, _ => return -1

end Xv6.User
