import Xv6.Fs.Files
import Xv6.Fs.Image

/-!
# An inode is a flat array of bytes

The abstract machine has a flat array of bytes for every inode.  Any sequence of
`readi` and `writei` on any inodes other than devices does what that machine
does, as long as there are enough free blocks.
-/

namespace Xv6.Fs

open Stateful Splice Function

/-! ## The abstract machine -/

namespace Flat

/-- Read `n` bytes from `off`. -/
def read (a : List UInt8) (off n : Nat) : Option (List UInt8) :=
  if a.length < off ∨ 2 ^ 32 ≤ off + n then none else some ((a.drop off).take n)

/-- Write `n` bytes to `off`: the new array. -/
def write (a : List UInt8) (src : Nat → UInt8) (off n : Nat) : Option (List UInt8) :=
  if BadRange a.length off n then none else some (splice 0 a off n src)

end Flat

/-- A call of `readi` or `writei`. -/
inductive Io
  | read (e : Entry) (off n : UInt32)
  | write (e : Entry) (src : Nat → UInt8) (off n : UInt32)

/-- What the call returns. -/
inductive IoResult
  | bytes (read : Option (List UInt8))
  | count (written : Option Nat)

namespace Io

/-- The cache entry that the call is about. -/
def entry : Io → Entry
  | .read e _ _ => e
  | .write e _ _ _ => e

def exec : Io → M IoResult
  | .read e off n => return .bytes (← readi e off n)
  | .write e src off n => return .count (← writei e src off n)

/-- The array of inode `i` after the call on that inode. -/
def apply : Io → List UInt8 → List UInt8
  | .read .., a => a
  | .write _ src off n, a => (Flat.write a src off.toNat n.toNat).getD a

/-- The blocks that the call takes for a file with the given array. -/
def cost (op : Io) (a : List UInt8) : Nat :=
  blocksFor (blocksOf (op.apply a).length) - blocksFor (blocksOf a.length)

end Io

/-- The blocks that a sequence of calls takes; `inum` tells which inodes they are
about. -/
def totalCost (inum : Entry → Nat) : List Io → (Nat → List UInt8) → Nat
  | [], _ => 0
  | op :: rest, files =>
    op.cost (files (inum op.entry)) +
      totalCost inum rest (update files (inum op.entry)
        (op.apply (files (inum op.entry))))

/-- The entry holds an inode that can be read and written, other than a device. -/
structure Ready (s : State) (e : Entry) : Prop where
  live : s.Live e
  valid : (s.icache e).valid = true
  notDev : (s.icache e).copy.type ≠ tDev

/-- What one call does: a read returns bytes of the array and changes nothing, a
write that fails changes nothing, and any other write changes the array and
nothing else. -/
def FlatStep (s : State) (result : IoResult) (s' : State) : Io → Prop
  | .read e off n =>
    result = .bytes (Flat.read (s.node (s.icache e).inum).data off.toNat n.toNat) ∧ s' = s
  | .write e src off n =>
    match Flat.write (s.node (s.icache e).inum).data src off.toNat n.toNat with
    | none => result = .count none ∧ s' = s
    | some data =>
      result = .count (some n.toNat) ∧
        s'.node = update s.node (s.icache e).inum
          { s.node (s.icache e).inum with data := data }

/-- The calls return one after the other, and each does what the abstract machine
does. -/
inductive FlatRun : State → List Io → State → Prop
  | nil (s : State) : FlatRun s [] s
  | cons {s s₁ s' : State} {op : Io} {rest : List Io} {result : IoResult}
      (returns : op.exec.run s = .ok (result, s₁)) (step : FlatStep s result s₁ op)
      (run : FlatRun s₁ rest s') : FlatRun s (op :: rest) s'

variable {s s' : State} {e : Entry}

/-! ## One call -/

/-- What a call leaves for the next ones. -/
structure IoFrame (s s' : State) (op : Io) : Prop where
  inv : FsInv s'
  inum : ∀ e, (s'.icache e).inum = (s.icache e).inum
  ready : ∀ e, Ready s e → Ready s' e
  data : ∀ i, (s'.node i).data = update (fun i => (s.node i).data)
    (s.icache op.entry).inum (op.apply (s.node (s.icache op.entry).inum).data) i
  count : s'.freeCount + op.cost (s.node (s.icache op.entry).inum).data = s.freeCount

theorem IoFrame.refl (inv : FsInv s) {op : Io}
    (same : op.apply (s.node (s.icache op.entry).inum).data =
      (s.node (s.icache op.entry).inum).data) : IoFrame s s op := by
  constructor
  · exact inv
  · exact fun _ => rfl
  · exact fun _ ready => ready
  · intro i
    rw [same]
    by_cases here : i = (s.icache op.entry).inum
    · subst here
      simp
    · simp [here]
  · unfold Io.cost
    rw [same]
    omega

/-- A write that succeeds. -/
theorem FileWritten.ioFrame {src : Nat → UInt8} {off n : UInt32} (inv : FsInv s)
    (written : FileWritten s s' e src off.toNat n.toNat)
    (done : Flat.write (s.node (s.icache e).inum).data src off.toNat n.toNat =
      some (splice 0 (s.node (s.icache e).inum).data off.toNat n.toNat src))
    (length : (s.node (s.icache e).inum).data.length = (s.icache e).copy.size.toNat) :
    IoFrame s s' (.write e src off n) := by
  obtain ⟨d, cache⟩ := written.cache
  have tags : SameTags s s' := SameTags.of_update cache
  constructor
  · exact written.inv
  · exact tags.inum
  · intro e' ready
    have live := (tags.live e').mpr ready.live
    have valid := (tags.valid e').trans ready.valid
    refine ⟨live, valid, ?_⟩
    rw [← written.inv.type_inum live valid, tags.inum, written.node]
    have before := ready.notDev
    rw [← inv.type_inum ready.live ready.valid] at before
    by_cases here : (s.icache e').inum = (s.icache e).inum
    · rw [here] at before ⊢
      rwa [update_self]
    · rwa [update_of_ne here]
  · intro i
    rw [written.node]
    by_cases here : i = (s.icache e).inum
    · subst here
      simp [Io.entry, Io.apply, done]
    · simp [Io.entry, here]
  · have count := written.count
    simp only [Io.cost, Io.apply, Io.entry, done, Option.getD_some, length_splice]
    rw [length]
    exact count

/-- One call, from a state where its inode is ready and enough blocks are free. -/
theorem Io.exec_spec (inv : FsInv s) (op : Io) (ready : Ready s op.entry)
    (room : op.cost (s.node (s.icache op.entry).inum).data ≤ s.freeCount) :
    Wp op.exec (fun _ => False) (fun result s' => FlatStep s result s' op ∧ IoFrame s s' op) s := by
  obtain ⟨live, valid, notDev⟩ := ready
  have length := inv.length_inum live valid
  cases op with
  | read e off n =>
    refine Wp.bind (readi_node_spec inv live valid notDev off n) (fun _ no => no) ?_
    rintro result s' ⟨rfl, rfl⟩
    exact ⟨⟨rfl, rfl⟩, IoFrame.refl inv rfl⟩
  | write e src off n =>
    change (s.node (s.icache e).inum).data.length = _ at length
    refine Wp.bind (writei_spec inv live valid notDev src off n) ?_ ?_
    · rintro reason ⟨-, allowed, starved⟩
      rw [← length] at allowed starved
      have done : Flat.write (s.node (s.icache e).inum).data src off.toNat n.toNat =
          some (splice 0 (s.node (s.icache e).inum).data off.toNat n.toNat src) := if_neg allowed
      simp only [Io.cost, Io.apply, Io.entry, done, Option.getD_some, length_splice] at room
      omega
    · intro result s' outcome
      rw [← length] at outcome
      by_cases bad : BadRange (s.node (s.icache e).inum).data.length off.toNat n.toNat
      · rw [if_pos bad] at outcome
        obtain ⟨rfl, rfl⟩ := outcome
        have refused : Flat.write (s'.node (s'.icache e).inum).data src off.toNat n.toNat = none :=
          if_pos bad
        refine ⟨?_, IoFrame.refl inv ?_⟩
        · simp only [FlatStep, refused, and_self]
        · simp only [Io.apply, Io.entry, refused, Option.getD_none]
      · rw [if_neg bad] at outcome
        obtain ⟨rfl, written⟩ := outcome
        have done : Flat.write (s.node (s.icache e).inum).data src off.toNat n.toNat =
            some (splice 0 (s.node (s.icache e).inum).data off.toNat n.toNat src) := if_neg bad
        refine ⟨?_, written.ioFrame inv done length⟩
        simp only [FlatStep, done]
        exact ⟨trivial, written.node⟩

/-! ## Sequences of calls -/

/-- Any sequence of `readi` and `writei` on any number of inodes other than devices,
with enough free blocks, does what the abstract machine does. -/
theorem flatRun_of_fsInv (inv : FsInv s) (ops : List Io) (ready : ∀ op ∈ ops, Ready s op.entry)
    (room : totalCost (fun e => (s.icache e).inum) ops (fun i => (s.node i).data) ≤ s.freeCount) :
    ∃ s', FlatRun s ops s' ∧ FsInv s' := by
  induction ops generalizing s with
  | nil => exact ⟨s, FlatRun.nil s, inv⟩
  | cons op rest ih =>
    rw [totalCost] at room
    obtain ⟨result, s₁, returns, step, frame⟩ :=
      (op.exec_spec inv (ready op List.mem_cons_self) (by omega)).returns
    have inums : (fun e => (s₁.icache e).inum) = fun e => (s.icache e).inum :=
      funext frame.inum
    have files : (fun i => (s₁.node i).data) = _ := funext frame.data
    have count := frame.count
    obtain ⟨s', run, inv'⟩ := ih frame.inv
      (fun op' member => frame.ready _ (ready op' (List.mem_cons_of_mem op member)))
      (by rw [inums, files]; omega)
    exact ⟨s', FlatRun.cons returns step run, inv'⟩

/-- Calls on the file of a fresh image: 700 bytes, a read over the border of the two
blocks, and a write behind the end of the file, which fails. -/
def sampleCalls : List Io :=
  [.write 0 (fun j => UInt8.ofNat j) 0 700, .read 0 500 100, .write 0 (fun _ => 7) 701 1]

theorem flatRun_sampleCalls :
    ∃ s', FlatRun (Image.state Image.icache) sampleCalls s' ∧ FsInv s' := by
  apply flatRun_of_fsInv Image.fsInv_icache
  · intro op member
    have entry : op.entry = 0 := by
      simp only [sampleCalls, List.mem_cons, List.not_mem_nil, or_false] at member
      rcases member with rfl | rfl | rfl <;> rfl
    rw [entry]
    exact ⟨show 0 < 1 by decide, rfl, show tFile ≠ tDev by decide⟩
  · have inum : ((Image.state Image.icache).icache 0).inum = 2 := rfl
    have data : ((Image.state Image.icache).node 2).data = [] :=
      congrArg Node.data (Image.node_two Image.icache)
    have first (src : Nat → UInt8) :
        Flat.write [] src (0 : UInt32).toNat (700 : UInt32).toNat =
          some (splice 0 [] 0 700 src) := if_neg (by decide)
    have third (src src' : Nat → UInt8) :
        Flat.write (splice 0 [] 0 700 src) src' (701 : UInt32).toNat (1 : UInt32).toNat = none := by
      apply if_pos
      rw [length_splice]
      decide
    rw [Image.freeCount]
    simp only [totalCost, sampleCalls, Io.entry, inum, update_self, data, Io.cost,
      Io.apply, first, third, Option.getD_some, Option.getD_none, length_splice]
    decide

end Xv6.Fs
