import Xv6.Console.Editor
import Xv6.Sync.Client

/-!
# The console

The code of `consoleintr` and `consoleread` in `console.c`, as a program of threads that
call them in any order and with any arguments.  An interrupt handler is a thread of its
own here.  Every process may be killed at any time.  The output of `consputc` and
`procdump` is left out, and so is the lock of the inode, which `consoleread` does not
hold while it uses the buffer.

The state also records the keys that `consoleintr` has dealt with and the characters that
`consoleread` has given to its callers.
-/

namespace Xv6.Console

open Sync Function

/-- `input` -/
structure Input where
  buf : Fin inputBuf → UInt8
  r : UInt32
  w : UInt32
  e : UInt32

namespace Input

/-- `input.buf[i % INPUT_BUF]` -/
def char (input : Input) (i : UInt32) : UInt8 :=
  input.buf (Fin.ofNat inputBuf i.toNat)

/-- `input.buf[input.e++ % INPUT_BUF] = c` -/
def store (input : Input) (c : UInt8) : Input :=
  { input with
    buf := update input.buf (Fin.ofNat inputBuf input.e.toNat) c
    e := input.e + 1 }

/-- `input.e--` -/
def erase (input : Input) : Input :=
  { input with e := input.e - 1 }

/-- `input.w = input.e` -/
def commit (input : Input) : Input :=
  { input with w := input.e }

/-- `input.r++` -/
def advance (input : Input) : Input :=
  { input with r := input.r + 1 }

/-- `input.r--` -/
def retreat (input : Input) : Input :=
  { input with r := input.r - 1 }

/-- The characters from the index `i` up to the index `j`. -/
def between (input : Input) (i j : UInt32) : List UInt8 :=
  (List.range (j - i).toNat).map fun k => input.buf (Fin.ofNat inputBuf (i.toNat + k))

/-- The committed characters that have not been read. -/
def unread (input : Input) : List UInt8 :=
  input.between input.r input.w

/-- The line that is edited. -/
def line (input : Input) : List UInt8 :=
  input.between input.w input.e

end Input

/-- What a caller of `consoleread` gets: a character, or the end of the file. -/
inductive Delivery
  | byte (c : UInt8)
  | eof
  deriving DecidableEq

/-- A committed character as readers get it. -/
def Delivery.of (c : UInt8) : Delivery :=
  if c = ctrl 'D' then .eof else .byte c

structure State (Thread : Type) where
  input : Input
  killed : Thread → Bool
  /-- The keys that have been dealt with and the characters that have been read. -/
  history : List Event
  /-- What the callers of `consoleread` have got. -/
  delivered : List Delivery

namespace State

variable {Thread : Type}

/-- The line editor with the same history. -/
def editor (d : State Thread) : Editor :=
  Editor.run d.history

def setInput (d : State Thread) (input : Input) : State Thread :=
  { d with input }

/-- A key has been dealt with. -/
def press (d : State Thread) (c : UInt8) : State Thread :=
  { d with history := d.history ++ [.key c] }

/-- A character or the end of the file is given to a caller. -/
def deliver (d : State Thread) (x : Delivery) : State Thread :=
  { d with
    history := d.history ++ [.take]
    delivered := d.delivered ++ [x] }

end State

/-- What a call returns. -/
inductive Result
  /-- `consoleintr` calls `procdump` at its end. -/
  | interrupted (doprocdump : Bool)
  | failed
  | read (bytes : List UInt8)

/-- The points of the program.  In `consoleintr` the characters that `getc` will return
are kept, in `consoleread` the parameter `n` and the bytes copied to `dst` so far. -/
inductive Point
  | idle (last : Option Result)
  | intrEnter (chars : List UInt8)
  | intrWhile (chars : List UInt8) (doprocdump : Bool)
  | intrKill (chars : List UInt8) (doprocdump : Bool)
  | intrStore (c : UInt8) (chars : List UInt8) (doprocdump : Bool)
  | intrCommit (c : UInt8) (chars : List UInt8) (doprocdump : Bool)
  | intrWake (chars : List UInt8) (doprocdump : Bool)
  | intrRelease (doprocdump : Bool)
  | readEnter (n : Int)
  | readWhile (n : Int) (dst : List UInt8)
  | readTest (n : Int) (dst : List UInt8)
  | readCheck (n : Int) (dst : List UInt8)
  | readSleep (n : Int) (dst : List UInt8)
  | readTake (n : Int) (dst : List UInt8)
  | readChar (c : UInt8) (n : Int) (dst : List UInt8)
  | readFail
  | readRelease (dst : List UInt8)

/-- A call of one of the functions. -/
inductive Call
  | consoleintr (chars : List UInt8)
  | consoleread (n : Int)

/-- Where the code of a call starts. -/
def Call.enter : Call → Point
  | .consoleintr chars => .intrEnter chars
  | .consoleread n => .readEnter n

variable {Thread : Type}

/-- `cons.lock` -/
abbrev conslock : Option Unit := some ()

/-- The computations between the other instructions, for the process `t`. -/
def compute (t : Thread) (d : State Thread) : Point → State Thread × Point
  | .intrWhile [] dump => (d, .intrRelease dump)
  | .intrWhile (c :: chars) dump =>
    if c = ctrl 'P' then (d.press c, .intrWhile chars true)
    else if c = ctrl 'U' then (d, .intrKill chars dump)
    else if c = ctrl 'H' ∨ c = 0x7f then
      if d.input.e ≠ d.input.w then
        ((d.setInput d.input.erase).press c, .intrWhile chars dump)
      else (d.press c, .intrWhile chars dump)
    else if c ≠ 0 ∧ d.input.e - d.input.r < UInt32.ofNat inputBuf then
      (d, .intrStore c chars dump)
    else (d.press c, .intrWhile chars dump)
  | .intrKill chars dump =>
    if d.input.e ≠ d.input.w ∧ d.input.char (d.input.e - 1) ≠ newline then
      (d.setInput d.input.erase, .intrKill chars dump)
    else (d.press (ctrl 'U'), .intrWhile chars dump)
  | .intrStore c chars dump => (d.setInput (d.input.store (cook c)), .intrCommit c chars dump)
  | .intrCommit c chars dump =>
    if cook c = newline ∨ cook c = ctrl 'D' ∨
        d.input.e = d.input.r + UInt32.ofNat inputBuf then
      ((d.setInput d.input.commit).press c, .intrWake chars dump)
    else (d.press c, .intrWhile chars dump)
  | .readWhile n dst =>
    if (dst.length : Int) < n then (d, .readTest n dst) else (d, .readRelease dst)
  | .readTest n dst =>
    if d.input.r = d.input.w then (d, .readCheck n dst) else (d, .readTake n dst)
  | .readCheck n dst => if d.killed t = true then (d, .readFail) else (d, .readSleep n dst)
  | .readTake n dst =>
    (d.setInput d.input.advance, .readChar (d.input.char d.input.r) n dst)
  | .readChar c n dst =>
    if c = ctrl 'D' then
      if dst ≠ [] then (d.setInput d.input.retreat, .readRelease dst)
      else (d.deliver .eof, .readRelease dst)
    else if c = newline then (d.deliver (.byte c), .readRelease (dst ++ [c]))
    else (d.deliver (.byte c), .readWhile n (dst ++ [c]))
  | point => (d, point)

/-- What the thread `t` does at each point.  The channel is `&input.r`. -/
def op (t : Thread) : Point → Op Unit (State Thread) Point
  | .idle _ => .choose fun d => Set.range fun call : Call => (d, call.enter)
  | .intrEnter chars => .acquire (.intrWhile chars false)
  | .intrWake chars dump => .wakeup () (.intrWhile chars dump)
  | .intrRelease dump => .release (.idle (some (.interrupted dump)))
  | .readEnter n => .acquire (.readWhile n [])
  | .readSleep n dst => .sleep () (.readTest n dst)
  | .readFail => .release (.idle (some .failed))
  | .readRelease dst => .release (.idle (some (.read dst)))
  | point => .compute fun d => some (compute t d point)

/-- The points outside of the critical sections. -/
def Point.outside : Point → Bool
  | .idle _ | .intrEnter _ | .readEnter _ => true
  | _ => false

/-- What the computations do. -/
inductive Move (t : Thread) (d : State Thread) : Point → State Thread → Point → Prop
  | call (last : Option Result) (call : Call) : Move t d (.idle last) d call.enter
  | intrEnd {dump} : Move t d (.intrWhile [] dump) d (.intrRelease dump)
  | intrList {chars dump} :
      Move t d (.intrWhile (ctrl 'P' :: chars) dump) (d.press (ctrl 'P')) (.intrWhile chars true)
  | intrKill {chars dump} :
      Move t d (.intrWhile (ctrl 'U' :: chars) dump) d (.intrKill chars dump)
  | intrErase {c chars dump} : c = ctrl 'H' ∨ c = 0x7f → d.input.e ≠ d.input.w →
      Move t d (.intrWhile (c :: chars) dump) ((d.setInput d.input.erase).press c)
        (.intrWhile chars dump)
  | intrNothing {c chars dump} : c = ctrl 'H' ∨ c = 0x7f → d.input.e = d.input.w →
      Move t d (.intrWhile (c :: chars) dump) (d.press c) (.intrWhile chars dump)
  | intrRoom {c chars dump} : Plain c → d.input.e - d.input.r < UInt32.ofNat inputBuf →
      Move t d (.intrWhile (c :: chars) dump) d (.intrStore c chars dump)
  | intrDrop {c chars dump} : c = 0 ∨ Plain c ∧ ¬ d.input.e - d.input.r < UInt32.ofNat inputBuf →
      Move t d (.intrWhile (c :: chars) dump) (d.press c) (.intrWhile chars dump)
  | killErase {chars dump} : d.input.e ≠ d.input.w → d.input.char (d.input.e - 1) ≠ newline →
      Move t d (.intrKill chars dump) (d.setInput d.input.erase) (.intrKill chars dump)
  | killEnd {chars dump} : ¬ (d.input.e ≠ d.input.w ∧ d.input.char (d.input.e - 1) ≠ newline) →
      Move t d (.intrKill chars dump) (d.press (ctrl 'U')) (.intrWhile chars dump)
  | store {c chars dump} :
      Move t d (.intrStore c chars dump) (d.setInput (d.input.store (cook c)))
        (.intrCommit c chars dump)
  | commit {c chars dump} : cook c = newline ∨ cook c = ctrl 'D' ∨
        d.input.e = d.input.r + UInt32.ofNat inputBuf →
      Move t d (.intrCommit c chars dump) ((d.setInput d.input.commit).press c)
        (.intrWake chars dump)
  | keep {c chars dump} : ¬ (cook c = newline ∨ cook c = ctrl 'D' ∨
        d.input.e = d.input.r + UInt32.ofNat inputBuf) →
      Move t d (.intrCommit c chars dump) (d.press c) (.intrWhile chars dump)
  | readNext {n dst} : (dst.length : Int) < n → Move t d (.readWhile n dst) d (.readTest n dst)
  | readEnd {n dst} : ¬ (dst.length : Int) < n → Move t d (.readWhile n dst) d (.readRelease dst)
  | readEmpty {n dst} : d.input.r = d.input.w → Move t d (.readTest n dst) d (.readCheck n dst)
  | readSome {n dst} : d.input.r ≠ d.input.w → Move t d (.readTest n dst) d (.readTake n dst)
  | readGiveUp {n dst} : d.killed t = true → Move t d (.readCheck n dst) d .readFail
  | readWait {n dst} : ¬ d.killed t = true → Move t d (.readCheck n dst) d (.readSleep n dst)
  | readTake {n dst} : Move t d (.readTake n dst) (d.setInput d.input.advance)
      (.readChar (d.input.char d.input.r) n dst)
  | readBack {n dst} : dst ≠ [] →
      Move t d (.readChar (ctrl 'D') n dst) (d.setInput d.input.retreat) (.readRelease dst)
  | readEof {n} : Move t d (.readChar (ctrl 'D') n []) (d.deliver .eof) (.readRelease [])
  | readLine {n dst} :
      Move t d (.readChar newline n dst) (d.deliver (.byte newline))
        (.readRelease (dst ++ [newline]))
  | readByte {c n dst} : c ≠ ctrl 'D' → c ≠ newline →
      Move t d (.readChar c n dst) (d.deliver (.byte c)) (.readWhile n (dst ++ [c]))

theorem move_of_outcome {t : Thread} {point next : Point} {d d' : State Thread}
    (outcome : (d', next) ∈ (op t point).outcomes d) : Move t d point d' next := by
  cases point <;> simp only [op, Op.outcomes, Set.mem_empty_iff_false, Set.mem_ofPred_eq,
    Option.some.injEq] at outcome
  case idle last =>
    obtain ⟨call, same⟩ := outcome
    cases same
    exact .call last call
  case intrWhile chars dump =>
    cases chars with
    | nil =>
      cases outcome
      exact .intrEnd
    | cons c chars =>
      simp only [compute] at outcome
      split_ifs at outcome with isList isKill isErase some stores <;> cases outcome
      · subst isList
        exact .intrList
      · subst isKill
        exact .intrKill
      · exact .intrErase isErase some
      · exact .intrNothing isErase (not_not.mp some)
      · exact .intrRoom ⟨isList, isKill, isErase, stores.1⟩ stores.2
      · apply Move.intrDrop
        by_cases nul : c = 0
        · exact .inl nul
        · exact .inr ⟨⟨isList, isKill, isErase, nul⟩, fun room => stores ⟨nul, room⟩⟩
  case readChar c n dst =>
    simp only [compute] at outcome
    split_ifs at outcome with isEof collected isNewline <;> cases outcome
    · subst isEof
      exact .readBack collected
    · subst isEof
      obtain rfl : dst = [] := not_not.mp collected
      exact .readEof
    · subst isNewline
      exact .readLine
    · exact .readByte isEof isNewline
  all_goals simp only [compute] at outcome
  case intrKill =>
    split at outcome <;> cases outcome
    · rename_i going
      exact .killErase going.1 going.2
    · exact .killEnd ‹_›
  case intrCommit =>
    split at outcome <;> cases outcome
    · exact .commit ‹_›
    · exact .keep ‹_›
  case readWhile =>
    split at outcome <;> cases outcome
    · exact .readNext ‹_›
    · exact .readEnd ‹_›
  case readTest =>
    split at outcome <;> cases outcome
    · exact .readEmpty ‹_›
    · exact .readSome ‹_›
  case readCheck =>
    split at outcome <;> cases outcome
    · exact .readGiveUp ‹_›
    · exact .readWait ‹_›
  all_goals
    cases outcome
    constructor

theorem Call.outside_enter (call : Call) : call.enter.outside = true := by
  cases call <;> rfl

theorem Move.outside_eq {t : Thread} {d d' : State Thread} {point next : Point}
    (move : Move t d point d' next) : next.outside = point.outside := by
  cases move with
  | call last call => exact call.outside_enter
  | _ => rfl

/-- The code of the threads that use the console. -/
def client (Thread : Type) : Client Thread Unit (State Thread) Point where
  op := op
  outside := Point.outside
  fits t point := by
    have computes d d' next (outcome : (d', next) ∈ (op t point).outcomes d) :=
      (move_of_outcome outcome).outside_eq
    cases point with
    | intrEnter | intrRelease | readEnter | readSleep | readFail | readRelease => exact ⟨rfl, rfl⟩
    | intrWake => rfl
    | _ => exact computes

/-! ## The machine -/

variable {Cpu : Type} {n : Nat}

/-- Processors with `n` threads that use the console. -/
abbrev Kernel (Cpu : Type) (n : Nat) :=
  System Cpu (Fin n) Unit Unit (State (Fin n)) (At (Fin n) Point)

/-- `input` before the first interrupt. -/
def State.initial (killed : Thread → Bool) : State Thread where
  input := ⟨fun _ => 0, 0, 0, 0⟩
  killed := killed
  history := []
  delivered := []

/-- All threads are about to make their first call. -/
def start (killed : Fin n → Bool) : Kernel Cpu n :=
  System.boot (State.initial killed) fun t => ⟨t, .idle none⟩

/-- The effect of `kill` on the process `t`. -/
def kill (t : Fin n) (s : Kernel Cpu n) : Kernel Cpu n :=
  s.rouse { s.data with killed := update s.data.killed t true } t

variable [DecidableEq Cpu]

/-- A step of a processor, or a call of `kill`, which holds `ptable.lock` throughout. -/
inductive Step : Kernel Cpu n → Kernel Cpu n → Prop
  | code {s s'} : Sync.Step (client (Fin n)).program (List.finRange n) s s' → Step s s'
  | kill {s} (t : Fin n) : s.holder none = none → Step s (kill t s)

variable {s : Kernel Cpu n} {c : Cpu} {p : Fin n}

theorem Step.call {last : Option Result} (call : Call) (here : s.cur c = some p)
    (control : s.ctl p = .run ⟨p, .idle last⟩) : Step s (s.setCtl p (.run ⟨p, call.enter⟩)) :=
  .code (Client.step_of_choose here control rfl ⟨call, rfl⟩)

end Xv6.Console
