import Xv6.Console.Code
import Xv6.Lib.Fifo

/-!
# The line discipline of the console

In every interleaving, and however often the indices wrap around, the buffer of the
console shows the state of the line editor: from `r` to `w` the committed characters that
have not been read, and from `w` to `e` the line that is edited.  What readers get is
what has been committed, in order.
-/

namespace Xv6.Console

open Sync Relation

variable {Thread : Type} {d d' : State Thread} {i : Input}
variable {out committed line : List UInt8} {c : UInt8}

/-! ## The buffer -/

/-- The range of the indices. -/
def indices : Nat := 2 ^ 32

theorem inputBuf_dvd : inputBuf ∣ indices := ⟨2 ^ 25, rfl⟩

theorem inputBuf_lt : inputBuf < indices := by decide

theorem indices_pos : 0 < indices := by decide

/-- The buffer after `out` has been read, with a line that is not committed. -/
structure Input.Shows (i : Input) (out committed line : List UInt8) : Prop where
  queue : Fifo.Holds inputBuf indices i.buf i.r.toNat i.e.toNat out (committed ++ line)
  written : i.w.toNat = committed.length % indices
  behind : out <+: committed

namespace Input.Shows

variable (shown : i.Shows out committed line)
include shown

/-- Without the line the buffer is a queue of the committed characters. -/
theorem ready : Fifo.Holds inputBuf indices i.buf i.r.toNat i.w.toNat out committed := by
  have queue := shown.queue
  have room := queue.room
  rw [List.length_append] at room
  refine ⟨queue.read, shown.written, shown.behind, by omega, fun k low bound => ?_⟩
  rw [queue.stored k low (by rw [List.length_append]; omega), List.getElem_append_left bound]

theorem length_le : out.length ≤ committed.length :=
  shown.behind.length_le

theorem pending_eq : (i.e - i.r).toNat = committed.length + line.length - out.length := by
  rw [UInt32.toNat_sub, ← List.length_append]
  exact Fifo.Holds.sub_mod shown.queue inputBuf_lt

theorem unread_length : (i.w - i.r).toNat = committed.length - out.length := by
  rw [UInt32.toNat_sub]
  exact Fifo.Holds.sub_mod shown.ready inputBuf_lt

/-- The indices are in order. -/
theorem ordered : (i.w - i.r).toNat ≤ (i.e - i.r).toNat ∧ (i.e - i.r).toNat ≤ inputBuf := by
  have room := shown.queue.room
  rw [List.length_append] at room
  rw [shown.pending_eq, shown.unread_length]
  omega

theorem unread_eq : i.unread = committed.drop out.length := by
  unfold Input.unread Input.between
  rw [shown.unread_length]
  exact Fifo.Holds.contents shown.ready inputBuf_dvd

theorem append_unread : out ++ i.unread = committed := by
  rw [shown.unread_eq]
  obtain ⟨rest, rfl⟩ := shown.behind
  rw [List.drop_left]

/-- As a queue of the line, of which nothing has been read. -/
theorem edited : Fifo.Holds inputBuf indices i.buf i.w.toNat i.e.toNat committed
    (committed ++ line) := by
  have queue := shown.queue
  have le := shown.length_le
  refine ⟨shown.written, queue.written, List.prefix_append _ _, ?_, fun k low bound => ?_⟩
  · have room := queue.room
    omega
  · exact queue.stored k (by omega) bound

theorem line_eq : i.line = line := by
  have count : (i.e - i.w).toNat = (committed ++ line).length - committed.length := by
    rw [UInt32.toNat_sub]
    exact Fifo.Holds.sub_mod shown.edited inputBuf_lt
  unfold Input.line Input.between
  rw [count, Fifo.Holds.contents shown.edited inputBuf_dvd, List.drop_left]

theorem e_eq_w_iff : i.e = i.w ↔ line = [] := by
  rw [eq_comm, ← UInt32.toNat_inj, Fifo.Holds.eq_iff shown.edited inputBuf_lt]
  simp

theorem r_eq_w_iff : i.r = i.w ↔ out = committed := by
  rw [← UInt32.toNat_inj, Fifo.Holds.eq_iff shown.ready inputBuf_lt]

theorem room_iff : i.e - i.r < UInt32.ofNat inputBuf ↔
    committed.length + line.length < out.length + inputBuf := by
  have le := shown.length_le
  rw [UInt32.lt_iff_toNat_lt, shown.pending_eq]
  change _ < inputBuf ↔ _
  omega

theorem full_iff : i.e = i.r + UInt32.ofNat inputBuf ↔
    committed.length + line.length = out.length + inputBuf := by
  rw [← List.length_append, ← Fifo.Holds.eq_add_iff shown.queue inputBuf_lt, ← UInt32.toNat_inj,
    UInt32.toNat_add]
  rfl

theorem store (room : committed.length + line.length < out.length + inputBuf) (x : UInt8) :
    (i.store x).Shows out committed (line ++ [x]) := by
  rw [← List.length_append] at room
  have pushed := Fifo.Holds.push shown.queue inputBuf_dvd room x
  have next : (i.store x).e.toNat = (i.e.toNat + 1) % indices := UInt32.toNat_add i.e 1
  refine ⟨?_, shown.written, shown.behind⟩
  rw [next, ← List.append_assoc]
  exact pushed

theorem commit : i.commit.Shows out (committed ++ line) [] := by
  refine ⟨?_, shown.queue.written, shown.behind.trans (List.prefix_append _ _)⟩
  rw [List.append_nil]
  exact shown.queue

theorem erase (some : line ≠ []) : i.erase.Shows out committed line.dropLast := by
  obtain ⟨front, x, rfl⟩ := List.eq_nil_or_concat' line |>.resolve_left some
  have queue := shown.queue
  rw [← List.append_assoc] at queue
  have le := shown.length_le
  have back := queue.unpush indices_pos (by rw [List.length_append]; omega)
  have previous : i.erase.e.toNat = (indices - 1 + i.e.toNat) % indices := UInt32.toNat_sub i.e 1
  refine ⟨?_, shown.written, shown.behind⟩
  rw [previous, List.dropLast_concat]
  exact back

/-- The last character of the line. -/
theorem last_mem (some : line ≠ []) : i.char (i.e - 1) ∈ line := by
  obtain ⟨front, x, rfl⟩ := List.eq_nil_or_concat' line |>.resolve_left some
  have queue := shown.queue
  rw [← List.append_assoc] at queue
  have le := shown.length_le
  have isLast := queue.last inputBuf_dvd indices_pos (by rw [List.length_append]; omega)
  have previous : (i.e - 1).toNat = (indices - 1 + i.e.toNat) % indices := UInt32.toNat_sub i.e 1
  rw [Input.char, previous, isLast]
  simp

/-- The next character is taken out. -/
theorem advance (some : i.r ≠ i.w) : i.advance.Shows (out ++ [i.char i.r]) committed line := by
  have shorter : out.length < committed.length := by
    apply lt_of_le_of_ne shown.length_le
    intro same
    exact some (shown.r_eq_w_iff.mpr (shown.behind.eq_of_length same))
  have next : i.advance.r.toNat = (i.r.toNat + 1) % indices := UInt32.toNat_add i.r 1
  refine ⟨?_, shown.written, (Fifo.Holds.pop shown.ready inputBuf_dvd shorter).behind⟩
  rw [next]
  exact Fifo.Holds.pop shown.queue inputBuf_dvd (by rw [List.length_append]; omega)

theorem unread_head (some : i.r ≠ i.w) : i.unread.head? = .some (i.char i.r) := by
  obtain ⟨rest, whole⟩ := (shown.advance some).behind
  rw [shown.unread_eq, ← whole, List.append_assoc, List.drop_left]
  rfl

end Input.Shows

theorem Input.retreat_advance (i : Input) : i.advance.retreat = i := by
  unfold Input.advance Input.retreat
  simp

/-! ## The editor -/

/-- What readers have got is what has been read from the editor. -/
structure State.Agrees (d : State Thread) : Prop where
  sound : d.editor.Sound
  delivered : d.delivered = d.editor.read.map Delivery.of

/-- The buffer shows the editor, with another line. -/
def State.Shows (d : State Thread) (i : Input) (line : List UInt8) : Prop :=
  i.Shows d.editor.read d.editor.committed line

/-- What holds of the buffer at a point where the code holds the lock. -/
def Point.Facts (d : State Thread) : Point → Prop
  | .intrKill .. => ∃ line, line <+: d.editor.line ∧ d.Shows d.input line
  | .intrStore c .. => Plain c ∧ d.editor.pending < inputBuf ∧ d.Shows d.input d.editor.line
  | .intrCommit c .. =>
    Plain c ∧ d.editor.pending < inputBuf ∧ d.Shows d.input (d.editor.line ++ [cook c])
  | .readTake .. => d.input.r ≠ d.input.w ∧ d.Shows d.input d.editor.line
  | .readChar c .. => ∃ i, d.Shows i d.editor.line ∧ i.r ≠ i.w ∧
      d.input = i.advance ∧ c = i.char i.r
  | _ => d.Shows d.input d.editor.line

/-- The invariant when the lock is free. -/
structure State.Shown (d : State Thread) : Prop where
  agrees : d.Agrees
  buffer : d.Shows d.input d.editor.line

namespace State

@[simp]
theorem editor_setInput : (d.setInput i).editor = d.editor := rfl

@[simp]
theorem editor_press : (d.press c).editor = d.editor.press c :=
  Editor.run_append _ _

@[simp]
theorem editor_deliver {x : Delivery} : (d.deliver x).editor = d.editor.step .take :=
  Editor.run_append _ _

variable (agrees : d.Agrees)
include agrees

theorem Agrees.setInput (i : Input) : (d.setInput i).Agrees :=
  ⟨agrees.sound, agrees.delivered⟩

theorem Agrees.press (c : UInt8) : (d.press c).Agrees := by
  constructor
  · rw [editor_press]
    exact agrees.sound.press c
  · rw [editor_press, agrees.sound.read_press]
    exact agrees.delivered

theorem Agrees.deliver (next : d.editor.read ++ [c] <+: d.editor.committed) :
    (d.deliver (.of c)).Agrees := by
  obtain ⟨some, read⟩ := agrees.sound.read_take next
  constructor
  · rw [editor_deliver]
    exact agrees.sound.take some
  · rw [editor_deliver, read, List.map_append, ← agrees.delivered]
    rfl

/-- The buffer after a key that changes neither the buffer nor the editor's line. -/
theorem Shows.press (shown : i.Shows d.editor.read (d.editor.press c).committed line) :
    (d.press c).Shows i line := by
  unfold State.Shows
  rw [editor_press, agrees.sound.read_press]
  exact shown

theorem room_iff :
    d.editor.committed.length + line.length < d.editor.read.length + inputBuf ↔
      ({ d.editor with line } : Editor).pending < inputBuf := by
  have le := agrees.sound.taken_le
  rw [agrees.sound.read_length]
  unfold Editor.pending
  dsimp only
  omega

/-- The buffer is full when the line has to be committed. -/
theorem Agrees.full_iff (buffer : d.Shows d.input (d.editor.line ++ [c])) :
    d.input.e = d.input.r + UInt32.ofNat inputBuf ↔ d.editor.pending + 1 = inputBuf := by
  have le := agrees.sound.taken_le
  rw [Input.Shows.full_iff buffer, agrees.sound.read_length, List.length_append,
    List.length_singleton]
  unfold Editor.pending
  omega

omit agrees in
/-- A key that does nothing. -/
theorem Shown.press_same (shown : d.Shown) (same : d.editor.press c = d.editor) :
    (d.press c).Shown := by
  refine ⟨shown.agrees.press c, ?_⟩
  unfold Shows
  rw [editor_press, same]
  exact shown.buffer

/-- A key that changes the line. -/
theorem Agrees.press_line (buffer : d.Shows i line)
    (edits : d.editor.press c = { d.editor with line }) : ((d.setInput i).press c).Shown := by
  refine ⟨(agrees.setInput i).press c, ?_⟩
  unfold Shows
  rw [editor_press, editor_setInput, edits]
  exact buffer

/-- The character that has been taken out is delivered. -/
theorem Agrees.deliver_next (buffer : d.Shows i d.editor.line) (some : i.r ≠ i.w)
    (taken : d.input = i.advance) : (d.deliver (.of (i.char i.r))).Shown := by
  have next := Input.Shows.advance buffer some
  obtain ⟨-, read⟩ := agrees.sound.read_take next.behind
  refine ⟨agrees.deliver next.behind, ?_⟩
  unfold Shows
  rw [editor_deliver, read]
  exact taken ▸ next

end State

variable {point : Point} {t : Thread}

/-- What the computations do to the assertions. -/
theorem Move.facts {next : Point} (move : Move t d point d' next) (inside : point.outside = false)
    (agrees : d.Agrees) (facts : point.Facts d) : d'.Agrees ∧ next.Facts d' := by
  have back {d' : State Thread} (shown : d'.Shown) :
      d'.Agrees ∧ d'.Shows d'.input d'.editor.line := ⟨shown.agrees, shown.buffer⟩
  cases move with
  | call => cases inside
  | intrEnd | readNext | readEnd | readEmpty | readGiveUp | readWait => exact ⟨agrees, facts⟩
  | intrList => exact back (State.Shown.press_same ⟨agrees, facts⟩ Editor.press_list)
  | intrKill => exact ⟨agrees, d.editor.line, List.prefix_rfl, facts⟩
  | intrErase isErase some =>
    have some : d.editor.line ≠ [] := fun empty => some ((Input.Shows.e_eq_w_iff facts).mpr empty)
    exact back (agrees.press_line (Input.Shows.erase facts some) (Editor.press_erase isErase))
  | intrNothing isErase none =>
    have empty := (Input.Shows.e_eq_w_iff facts).mp none
    apply back (State.Shown.press_same ⟨agrees, facts⟩ _)
    rw [Editor.press_erase isErase, empty, List.dropLast_nil, ← empty]
  | intrRoom plain room =>
    rw [Input.Shows.room_iff facts, State.room_iff agrees] at room
    exact ⟨agrees, plain, room, facts⟩
  | intrDrop dropped =>
    rw [Input.Shows.room_iff facts, State.room_iff agrees] at dropped
    exact back (State.Shown.press_same ⟨agrees, facts⟩ (Editor.press_drop dropped))
  | killErase some =>
    obtain ⟨line, shorter, buffer⟩ := facts
    have some : line ≠ [] := fun empty => some ((Input.Shows.e_eq_w_iff buffer).mpr empty)
    exact ⟨agrees.setInput _, line.dropLast, (List.dropLast_prefix _).trans shorter,
      Input.Shows.erase buffer some⟩
  | killEnd done =>
    obtain ⟨line, shorter, buffer⟩ := facts
    -- a newline would have committed the line
    have empty : line = [] := by
      by_contra some
      refine done ⟨fun none => some ((Input.Shows.e_eq_w_iff buffer).mp none), fun isNewline => ?_⟩
      have member := Input.Shows.last_mem buffer some
      rw [isNewline] at member
      exact agrees.sound.open_line (shorter.subset member)
    subst empty
    exact back (agrees.press_line buffer Editor.press_kill)
  | store =>
    obtain ⟨plain, room, buffer⟩ := facts
    exact ⟨agrees.setInput _, plain, room,
      Input.Shows.store buffer ((State.room_iff agrees).mpr room) _⟩
  | commit complete =>
    obtain ⟨plain, room, buffer⟩ := facts
    rw [agrees.full_iff buffer] at complete
    refine ⟨(agrees.setInput _).press _, ?_⟩
    apply State.Shows.press (agrees.setInput _)
    rw [State.editor_press, State.editor_setInput, Editor.press_of_plain plain room,
      Editor.insert, if_pos complete]
    exact Input.Shows.commit buffer
  | keep unfinished =>
    obtain ⟨plain, room, buffer⟩ := facts
    rw [agrees.full_iff buffer] at unfinished
    refine ⟨agrees.press _, ?_⟩
    apply State.Shows.press agrees
    rw [State.editor_press, Editor.press_of_plain plain room, Editor.insert, if_neg unfinished]
    exact buffer
  | readSome some => exact ⟨agrees, some, facts⟩
  | readTake => exact ⟨agrees.setInput _, d.input, facts.2, facts.1, rfl, rfl⟩
  | readBack =>
    obtain ⟨i, buffer, -, taken, -⟩ := facts
    refine ⟨agrees.setInput _, ?_⟩
    rw [taken, Input.retreat_advance]
    exact buffer
  | readEof | readLine =>
    obtain ⟨i, buffer, some, taken, isChar⟩ := facts
    have shown := agrees.deliver_next buffer some taken
    rw [← isChar] at shown
    exact back shown
  | readByte notEof =>
    obtain ⟨i, buffer, some, taken, isChar⟩ := facts
    have shown := agrees.deliver_next buffer some taken
    rw [← isChar, Delivery.of, if_neg notEof] at shown
    exact back shown

/-- The lock of the console protects the buffer. -/
theorem keeps_buffer : (client Thread).Keeps State.Shown (fun point d => d.Agrees ∧ point.Facts d)
    (fun _ _ _ => True) (fun _ _ _ => True) where
  carries t point := by
    cases point with
    | intrEnter | readEnter => exact fun _ shown => ⟨shown.agrees, shown.buffer⟩
    | readSleep =>
      exact fun _ => ⟨fun known => ⟨known.1, known.2⟩, fun shown => ⟨shown.agrees, shown.buffer⟩⟩
    | intrWake => exact fun _ => id
    | intrRelease | readFail | readRelease => exact fun _ known => ⟨known.1, known.2⟩
    | _ => trivial
  compute outcome inside _ _ known := (move_of_outcome outcome).facts inside known.1 known.2
  outside outcome outside _ := by
    cases move_of_outcome outcome with
    | call => exact ⟨id, fun _ => id⟩
    | _ => cases outside

/-! ## Runs -/

/-- The console as its users know it. -/
structure State.Disciplined (d : State Thread) : Prop where
  ordered : (d.input.w - d.input.r).toNat ≤ (d.input.e - d.input.r).toNat ∧
    (d.input.e - d.input.r).toNat ≤ inputBuf
  delivered : d.delivered <+: d.editor.committed.map Delivery.of
  /-- Committed characters have been delivered, are about to be, or are in the buffer. -/
  kept : ∃ hand, hand.length ≤ 1 ∧
    d.delivered ++ (hand ++ d.input.unread).map Delivery.of = d.editor.committed.map Delivery.of

/-- The buffer and a character that a reader has taken out of it. -/
theorem State.Agrees.disciplined (agrees : d.Agrees) (hand : List UInt8)
    (shown : d.input.Shows (d.editor.read ++ hand) d.editor.committed line)
    (few : hand.length ≤ 1) : d.Disciplined := by
  refine ⟨shown.ordered, ?_, hand, few, ?_⟩
  · rw [agrees.delivered]
    exact ((List.prefix_append _ hand).trans shown.behind).map _
  · rw [agrees.delivered, ← List.map_append, ← List.append_assoc, shown.append_unread]

theorem State.Agrees.disciplined_of_shows (agrees : d.Agrees) (buffer : d.Shows d.input line) :
    d.Disciplined := by
  have shown : d.input.Shows (d.editor.read ++ []) d.editor.committed line := by
    rw [List.append_nil]
    exact buffer
  exact agrees.disciplined [] shown (Nat.zero_le 1)

theorem Point.Facts.disciplined (facts : point.Facts d) (agrees : d.Agrees) : d.Disciplined := by
  cases point with
  | intrKill =>
    obtain ⟨line, -, buffer⟩ := facts
    exact agrees.disciplined_of_shows buffer
  | intrStore | intrCommit => exact agrees.disciplined_of_shows facts.2.2
  | readTake => exact agrees.disciplined_of_shows facts.2
  | readChar =>
    obtain ⟨i, buffer, some, taken, -⟩ := facts
    have next := Input.Shows.advance buffer some
    rw [← taken] at next
    exact agrees.disciplined _ next (Nat.le_refl 1)
  | _ => exact agrees.disciplined_of_shows facts

/-- Nothing that is committed or delivered is taken back. -/
theorem Move.grows {next : Point} (move : Move t d point d' next) :
    d.editor.committed <+: d'.editor.committed ∧ d.delivered <+: d'.delivered := by
  have pressed (d : State Thread) (c : UInt8) : d.editor.committed <+:
      (d.press c).editor.committed ∧
      d.delivered <+: (d.press c).delivered := by
    rw [State.editor_press]
    exact ⟨Editor.committed_prefix_step (.key c), List.prefix_rfl⟩
  have given (x : Delivery) : d.editor.committed <+: (d.deliver x).editor.committed ∧
      d.delivered <+: (d.deliver x).delivered := by
    rw [State.editor_deliver]
    exact ⟨Editor.committed_prefix_step .take, List.prefix_append _ _⟩
  cases move with
  | intrList | intrNothing | intrDrop | killEnd | keep => exact pressed d _
  | intrErase => exact pressed (d.setInput d.input.erase) _
  | commit => exact pressed (d.setInput d.input.commit) _
  | readEof | readLine | readByte => exact given _
  | _ => exact ⟨List.prefix_rfl, List.prefix_rfl⟩

variable {Cpu : Type} [DecidableEq Cpu] {n : Nat} {killed : Fin n → Bool}
variable {s s' : Kernel Cpu n}

/-- `kill` does not touch the console. -/
theorem facts_of_kill {killed : Thread → Bool} (known : d.Agrees ∧ point.Facts d) :
    ({ d with killed } : State Thread).Agrees ∧ point.Facts { d with killed } := by
  refine ⟨⟨known.1.sound, known.1.delivered⟩, ?_⟩
  have facts := known.2
  cases point <;> exact facts

/-- In every run the lock is exclusive and protects the buffer. -/
theorem monitored_of_run (run : ReflTransGen Step (start killed) s) :
    Exclusive (client (Fin n)).program s ∧ Monitored (client (Fin n)).program () State.Shown
      (fun ℓ d => d.Agrees ∧ ℓ.point.Facts d) (fun t ℓ _ => ℓ.proc = t ∧ True) s := by
  induction run with
  | refl =>
    refine ⟨Exclusive.boot _ fun _ => rfl, Monitored.boot ⟨⟨⟨?_, ?_, ?_, ?_⟩, rfl⟩, ?_⟩
      fun _ => ⟨rfl, trivial⟩⟩
    · exact Nat.le_refl 0
    · exact Nat.zero_le inputBuf
    · exact fun _ => rfl
    · exact List.not_mem_nil
    · exact ⟨⟨rfl, rfl, List.prefix_rfl, Nat.zero_le _,
        fun _ _ bound => absurd bound (Nat.not_lt_zero _)⟩, rfl, List.prefix_rfl⟩
  | tail _ step ih =>
    obtain ⟨exclusive, monitored⟩ := ih
    cases step with
    | code step =>
      exact ⟨exclusive.step step,
        monitored.step keeps_buffer.protects exclusive (fun _ => trivial) step⟩
    | kill t =>
      exact ⟨exclusive.external (External.rouse ..),
        monitored.external (External.rouse ..)
          (fun shown => ⟨⟨shown.agrees.sound, shown.agrees.delivered⟩, shown.buffer⟩)
          (fun _ => facts_of_kill) fun _ _ => id⟩

/-- The line discipline of the console.  In every run the indices are in order, and what
readers get, with each `^D` as an end of file, is a prefix of what the line editor has
committed; the rest of it is in the buffer, and when nobody holds the lock so is the
line.  Nothing that has been committed or delivered is ever taken back.  A read that has
collected bytes leaves a `^D` that follows in the buffer. -/
theorem line_discipline (run : ReflTransGen Step (start killed) s) :
    s.data.Disciplined ∧
      (s.holder conslock = none →
        s.data.delivered ++ s.data.input.unread.map Delivery.of =
          s.data.editor.committed.map Delivery.of ∧
        s.data.input.line = s.data.editor.line) ∧
      (∀ s', Step s s' → s.data.editor.committed <+: s'.data.editor.committed ∧
        s.data.delivered <+: s'.data.delivered) ∧
      ∀ p n dst, s.ctl p = .run ⟨p, .readChar (ctrl 'D') n dst⟩ → dst ≠ [] →
        ∃ d', compute p s.data (.readChar (ctrl 'D') n dst) = (d', .readRelease dst) ∧
          d'.delivered = s.data.delivered ∧ d'.input.unread.head? = some (ctrl 'D') := by
  obtain ⟨exclusive, monitored⟩ := monitored_of_run run
  refine ⟨?_, fun unlocked => ?_, fun s' step => ?_, fun p n dst point collected => ?_⟩
  · exact monitored.always exclusive (fun shown => shown.agrees.disciplined_of_shows shown.buffer)
      fun known => known.2.disciplined known.1
  · have shown := monitored.free unlocked
    refine ⟨?_, Input.Shows.line_eq shown.buffer⟩
    rw [shown.agrees.delivered, ← List.map_append, Input.Shows.append_unread shown.buffer]
  · cases step with
    | kill => exact ⟨List.prefix_rfl, List.prefix_rfl⟩
    | code step =>
      have split : Passive (fun _ => ()) s s' ∨ ∃ p ℓ next, Computes _ p s s' ℓ next :=
        step.passive_or_computes fun _ => rfl
      rcases split with passive | ⟨p, ℓ, next, computation⟩
      · rw [passive.data]
        exact ⟨List.prefix_rfl, List.prefix_rfl⟩
      · obtain ⟨outcomes, code, outcome⟩ := computation.outcome
        exact (move_of_outcome (Op.of_compute code outcome).2).grows
  · obtain ⟨-, i, buffer, some, taken, isChar⟩ :=
      monitored.assertion_of_run exclusive point (Client.mem_held.mpr rfl)
    refine ⟨s.data.setInput i, ?_, rfl, ?_⟩
    · rw [compute, if_pos rfl, if_pos collected, taken, Input.retreat_advance]
    · rw [isChar]
      exact Input.Shows.unread_head buffer some

/-- A stretch of a run. -/
theorem turns_run {k : Nat} (c : Cpu) (p : Fin n) (taken : s.turns (client (Fin n)).program
      (List.finRange n) (client (Fin n)).outcome (fun _ => true) c p k = some s') :
    ReflTransGen Step s s' :=
  (reaches_of_turns Client.offers taken).lift id fun _ _ step => .code step.1

/-- A run in which a line with one letter is typed and the letter is read. -/
theorem exists_typed : ∃ s : Kernel Unit 1, ReflTransGen Step (start fun _ => false) s ∧
    s.data.editor.committed = [104, newline] ∧ s.data.delivered = [.byte 104] := by
  refine ⟨_, turns_run (k := 4) () 0 rfl
    |>.tail (.call (c := ()) (p := 0) (.consoleintr [104, 13]) rfl rfl)
    |>.trans (turns_run (k := 13) () 0 rfl)
    |>.tail (.call (c := ()) (p := 0) (.consoleread 1) rfl rfl)
    |>.trans (turns_run (k := 5) () 0 rfl), ?_⟩
  exact ⟨rfl, rfl⟩

/-- The rest of the line of that run is waiting for a reader. -/
theorem typed_line_kept : ∃ s : Kernel Unit 1, s.data.editor.committed = [104, newline] ∧
    s.data.delivered = [.byte 104] ∧ s.data.Disciplined := by
  obtain ⟨s, run, committed, delivered⟩ := exists_typed
  exact ⟨s, committed, delivered, (line_discipline run).1⟩

end Xv6.Console
