import Xv6.Fs.Invariant
import Xv6.Lib.Splice

/-!
# Files as their users see them

An inode in use is a node: its type, its device numbers, its link count and a
flat array of bytes.  Where the bytes lie on the disk is hidden, so that what an
operation does to the file system is said by the nodes that it changes.
-/

namespace Xv6.Fs

open Stateful Splice Function

/-- A file, a directory or a device. -/
structure Node where
  type : UInt16
  major : UInt16
  minor : UInt16
  nlink : UInt16
  data : List UInt8
  deriving DecidableEq

namespace Node

/-- An inode that is not in use. -/
def free : Node := ⟨0, 0, 0, 0, []⟩

/-- The node of an inode. -/
def ofDinode (disk : Nat → Block) (d : Dinode) : Node where
  type := d.type
  major := d.major
  minor := d.minor
  nlink := d.nlink
  data := (List.range d.size.toNat).map (fileByte disk d)

@[simp]
theorem length_data_ofDinode (disk : Nat → Block) (d : Dinode) :
    (ofDinode disk d).data.length = d.size.toNat := by
  simp [ofDinode]

theorem getD_data_ofDinode (disk : Nat → Block) (d : Dinode) (x : Nat) :
    (ofDinode disk d).data.getD x 0 = if x < d.size.toNat then fileByte disk d x else 0 :=
  getD_map_range ..

end Node

/-- The node of inode `i`. -/
def State.node (s : State) (i : Nat) : Node :=
  if i < s.sb.ninodes ∧ (s.dinode i).type ≠ 0 then Node.ofDinode s.disk (s.dinode i)
  else Node.free

variable {s s' : State} {e : Entry} {i : Nat}

theorem State.node_eq (range : i < s.sb.ninodes) (type : (s.dinode i).type ≠ 0) :
    s.node i = Node.ofDinode s.disk (s.dinode i) :=
  if_pos ⟨range, type⟩

theorem State.node_eq_free (unused : i < s.sb.ninodes → (s.dinode i).type = 0) :
    s.node i = Node.free := by
  apply if_neg
  rintro ⟨range, type⟩
  exact type (unused range)

/-- The node that a valid cache entry holds. -/
theorem FsInv.node_inum (inv : FsInv s) (live : s.Live e) (valid : (s.icache e).valid = true) :
    s.node (s.icache e).inum = Node.ofDinode s.disk (s.icache e).copy := by
  obtain ⟨same, type⟩ := inv.coherent e live valid
  rw [same] at type ⊢
  exact State.node_eq (inv.cache.range e live) type

theorem FsInv.type_inum (inv : FsInv s) (live : s.Live e) (valid : (s.icache e).valid = true) :
    (s.node (s.icache e).inum).type = (s.icache e).copy.type :=
  congrArg Node.type (inv.node_inum live valid)

theorem FsInv.length_inum (inv : FsInv s) (live : s.Live e) (valid : (s.icache e).valid = true) :
    (s.node (s.icache e).inum).data.length = (s.icache e).copy.size.toNat := by
  rw [inv.node_inum live valid, Node.length_data_ofDinode]

/-- The other files are the same nodes. -/
theorem Elsewhere.node (elsewhere : Elsewhere s s' i) (inv : FsInv s) {j : Nat} (other : j ≠ i) :
    s'.node j = s.node j := by
  by_cases inUse : j < s.sb.ninodes ∧ (s.dinode j).type ≠ 0
  · obtain ⟨range, type⟩ := inUse
    have same := elsewhere.dinode j range other
    rw [State.node_eq range type,
      State.node_eq (by rwa [elsewhere.sb]) (by rwa [same])]
    unfold Node.ofDinode
    rw [same]
    congr 1
    apply List.map_congr_left
    intro x member
    have bytes := elsewhere.fileByte range other type (inv.extent j range type)
      (List.mem_range.mp member)
    rwa [same] at bytes
  · have unused' : j < s'.sb.ninodes → (s'.dinode j).type = 0 := by
      rw [elsewhere.sb]
      intro range
      rw [elsewhere.dinode j range other]
      by_contra type
      exact inUse ⟨range, type⟩
    rw [State.node_eq_free unused', State.node, if_neg inUse]

/-- Only file `i` has changed. -/
theorem Elsewhere.node_eq_update (elsewhere : Elsewhere s s' i) (inv : FsInv s) {node : Node}
    (here : s'.node i = node) : s'.node = update s.node i node := by
  funext j
  by_cases same : j = i
  · subst same
    rw [here, update_self]
  · rw [update_of_ne same]
    exact elsewhere.node inv same

end Xv6.Fs
