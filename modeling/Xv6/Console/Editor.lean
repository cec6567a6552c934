import Mathlib

/-!
# A line editor

What the console is for: a line is edited until it is committed, and committed
characters are read in order.  The queue of committed characters is unbounded.  At most
`INPUT_BUF` characters may be pending, which decides whether a key is dropped and when a
line is committed early.
-/

namespace Xv6.Console

/-- `INPUT_BUF` -/
def inputBuf : Nat := 128

instance : NeZero inputBuf := ⟨by decide⟩

/-- `C(x)` -/
def ctrl (x : Char) : UInt8 :=
  UInt8.ofNat (x.toNat - '@'.toNat)

/-- `'\n'` -/
def newline : UInt8 := 10

/-- `'\r'` becomes `'\n'`. -/
def cook (c : UInt8) : UInt8 :=
  if c = 13 then newline else c

/-- The characters that `consoleintr` may store. -/
structure Plain (c : UInt8) : Prop where
  not_list : c ≠ ctrl 'P'
  not_kill : c ≠ ctrl 'U'
  not_erase : ¬ (c = ctrl 'H' ∨ c = 0x7f)
  not_nul : c ≠ 0

/-- Everything that was committed, the line that is edited, and how many of the committed
characters have been read. -/
structure Editor where
  committed : List UInt8
  line : List UInt8
  taken : Nat

/-- A key is pressed, or a committed character is read. -/
inductive Event
  | key (c : UInt8)
  | take

namespace Editor

/-- The characters that have not been read. -/
def pending (ed : Editor) : Nat :=
  ed.committed.length + ed.line.length - ed.taken

/-- The characters that have been read. -/
def read (ed : Editor) : List UInt8 :=
  ed.committed.take ed.taken

/-- Append a character to the line, and commit the line if it is complete. -/
def insert (ed : Editor) (c : UInt8) : Editor :=
  if c = newline ∨ c = ctrl 'D' ∨ ed.pending + 1 = inputBuf then
    { ed with committed := ed.committed ++ (ed.line ++ [c]), line := [] }
  else
    { ed with line := ed.line ++ [c] }

/-- A key. -/
def press (ed : Editor) (c : UInt8) : Editor :=
  if c = ctrl 'P' then ed
  else if c = ctrl 'U' then { ed with line := [] }
  else if c = ctrl 'H' ∨ c = 0x7f then { ed with line := ed.line.dropLast }
  else if c ≠ 0 ∧ ed.pending < inputBuf then ed.insert (cook c)
  else ed

def step (ed : Editor) : Event → Editor
  | .key c => ed.press c
  | .take => { ed with taken := ed.taken + 1 }

/-- The editor after a history. -/
def run (history : List Event) : Editor :=
  history.foldl step ⟨[], [], 0⟩

@[simp]
theorem run_append (history : List Event) (event : Event) :
    run (history ++ [event]) = (run history).step event := by
  simp [run]

/-- Only committed characters are read, and a line is committed when no more characters
may be pending or when it ends. -/
structure Sound (ed : Editor) : Prop where
  taken_le : ed.taken ≤ ed.committed.length
  pending_le : ed.pending ≤ inputBuf
  full : ed.pending = inputBuf → ed.line = []
  open_line : newline ∉ ed.line

variable {ed : Editor} {c : UInt8}

theorem press_of_plain (plain : Plain c) (room : ed.pending < inputBuf) :
    ed.press c = ed.insert (cook c) := by
  rw [press, if_neg plain.not_list, if_neg plain.not_kill, if_neg plain.not_erase,
    if_pos ⟨plain.not_nul, room⟩]

theorem press_list : ed.press (ctrl 'P') = ed :=
  if_pos rfl

theorem press_kill : ed.press (ctrl 'U') = { ed with line := [] } := by
  rw [press, if_neg (by decide), if_pos rfl]

theorem press_erase (isErase : c = ctrl 'H' ∨ c = 0x7f) :
    ed.press c = { ed with line := ed.line.dropLast } := by
  have notList : c ≠ ctrl 'P' := by
    rcases isErase with rfl | rfl <;> decide
  have notKill : c ≠ ctrl 'U' := by
    rcases isErase with rfl | rfl <;> decide
  rw [press, if_neg notList, if_neg notKill, if_pos isErase]

/-- A character is dropped. -/
theorem press_drop (dropped : c = 0 ∨ Plain c ∧ ¬ ed.pending < inputBuf) : ed.press c = ed := by
  rcases dropped with rfl | ⟨plain, noRoom⟩
  · rw [press, if_neg (by decide), if_neg (by decide), if_neg (by decide), if_neg (by simp)]
  · rw [press, if_neg plain.not_list, if_neg plain.not_kill, if_neg plain.not_erase,
      if_neg fun stores => noRoom stores.2]

theorem insert_taken : (ed.insert c).taken = ed.taken := by
  unfold insert
  split <;> rfl

theorem press_taken : (ed.press c).taken = ed.taken := by
  unfold press
  split_ifs
  · rfl
  · rfl
  · rfl
  · exact insert_taken
  · rfl

/-- Committed characters stay as they are. -/
theorem committed_prefix_insert : ed.committed <+: (ed.insert c).committed := by
  unfold insert
  split
  · exact List.prefix_append _ _
  · exact List.prefix_rfl

theorem committed_prefix_step (event : Event) : ed.committed <+: (ed.step event).committed := by
  cases event with
  | take => exact List.prefix_rfl
  | key c =>
    change ed.committed <+: (ed.press c).committed
    unfold press
    split_ifs
    · exact List.prefix_rfl
    · exact List.prefix_rfl
    · exact List.prefix_rfl
    · exact committed_prefix_insert
    · exact List.prefix_rfl

variable (sound : ed.Sound)
include sound

theorem Sound.read_length : ed.read.length = ed.taken := by
  rw [read, List.length_take]
  exact Nat.min_eq_left sound.taken_le

/-- Less of the line is left. -/
theorem Sound.shorten {line : List UInt8} (shorter : line <+: ed.line) :
    ({ ed with line } : Editor).Sound := by
  have le := shorter.length_le
  refine ⟨sound.taken_le, ?_, fun isFull => ?_, fun member => ?_⟩
  · have bound := sound.pending_le
    unfold pending at bound ⊢
    dsimp only
    omega
  · have empty : ed.pending = inputBuf := by
      have bound := sound.pending_le
      unfold pending at bound isFull ⊢
      dsimp only at isFull
      omega
    rw [sound.full empty] at shorter
    exact List.prefix_nil.mp shorter
  · exact sound.open_line (shorter.subset member)

theorem Sound.insert (room : ed.pending < inputBuf) : (ed.insert c).Sound := by
  have taken := sound.taken_le
  unfold Editor.insert
  split
  · refine ⟨?_, ?_, fun _ => rfl, by simp⟩
    · simp only [List.length_append]
      omega
    · unfold pending at room ⊢
      simp only [List.length_append, List.length_nil, List.length_singleton]
      omega
  · rename_i unfinished
    rw [not_or, not_or] at unfinished
    obtain ⟨notNewline, -, notFull⟩ := unfinished
    refine ⟨taken, ?_, fun isFull => ?_, ?_⟩
    · unfold pending at room ⊢
      simp only [List.length_append, List.length_singleton]
      omega
    · unfold pending at isFull notFull
      simp only [List.length_append, List.length_singleton] at isFull
      omega
    · rw [List.mem_append, List.mem_singleton, not_or]
      exact ⟨sound.open_line, Ne.symm notNewline⟩

theorem Sound.press (c : UInt8) : (ed.press c).Sound := by
  unfold Editor.press
  split_ifs with isList isKill isErase stores
  · exact sound
  · exact sound.shorten List.nil_prefix
  · exact sound.shorten (List.dropLast_prefix _)
  · exact sound.insert stores.2
  · exact sound

/-- Keys do not change what has been read. -/
theorem Sound.read_press (c : UInt8) : (ed.press c).read = ed.read := by
  obtain ⟨rest, grown⟩ : ed.committed <+: (ed.press c).committed := committed_prefix_step (.key c)
  rw [read, read, press_taken, ← grown, List.take_append_of_le_length sound.taken_le]

theorem Sound.take (some : ed.taken < ed.committed.length) : (ed.step .take).Sound := by
  have bound := sound.pending_le
  refine ⟨some, ?_, fun isFull => ?_, sound.open_line⟩
  · unfold pending at bound ⊢
    simp only [step]
    omega
  · unfold pending at bound isFull
    simp only [step] at isFull
    omega

/-- The character that is read next. -/
theorem Sound.read_take (next : ed.read ++ [c] <+: ed.committed) :
    ed.taken < ed.committed.length ∧ (ed.step .take).read = ed.read ++ [c] := by
  have length := next.length_le
  rw [List.length_append, sound.read_length, List.length_singleton] at length
  refine ⟨length, ?_⟩
  have isTake := List.prefix_iff_eq_take.mp next
  rw [List.length_append, sound.read_length, List.length_singleton] at isTake
  exact isTake.symm

end Editor

end Xv6.Console
