import Xv6.Fs.Names
import Xv6.Mkfs.WellFormed

/-!
# The kernel reads the image

What the program has written under its own view of the format is what the kernel
finds under its view: the inodes of the files have the sizes and the bytes of the
host files, and their names are found in the root directory.
-/

namespace Xv6.Mkfs

open Stateful Fs

variable {img : Image} {files : List HostFile} {s s' : State} {e : Entry} {i : Nat}

/-- The kernel has mounted the image. -/
structure Mounts (img : Image) (s : State) : Prop where
  disk : s.disk = img.sectors
  sb : s.sb = .decode (img.sectors 1)

/-- Entry `e` of the cache refers to inode `i`, and nobody holds it.  If it is valid,
its copy is the inode on the disk. -/
structure Refers (s : State) (e : Entry) (i : Nat) : Prop where
  ref : 0 < (s.icache e).ref
  idle : (s.icache e).busy = false
  inum : (s.icache e).inum = i
  copy : (s.icache e).valid = true → (s.icache e).copy = dinode s.sb s.disk i

/-- Lock the inode, and read its size and `n` bytes from `off`. -/
def readFile (e : Entry) (off n : UInt32) : Fs.M (UInt32 × Option (List UInt8)) := do
  ilock e
  let size := ((← get).icache e).copy.size
  return (size, ← readi e off n)

/-- Lock the directory, and look up the name. -/
def lookup (e : Entry) (name : List UInt8) : Fs.M (Option (Entry × Nat)) := do
  ilock e
  dirlookup e name

/-- The names of the files as the kernel sees them. -/
structure Named (files : List HostFile) : Prop where
  nonempty : ∀ f ∈ files, f.target ≠ []
  distinct : (files.map fun f => f.target.take dirsiz).Nodup
  notDot : ∀ f ∈ files, f.target.take dirsiz ≠ dot
  notDotdot : ∀ f ∈ files, f.target.take dirsiz ≠ dotdot

/-! ## Locking -/

/-- The state when entry `e` is locked and holds inode `d`. -/
def holding (s : State) (e : Entry) (d : Dinode) : State :=
  s.withInode e { s.icache e with busy := true, valid := true, copy := d }

theorem ilock_refers (refers : Refers s e i) (typed : (dinode s.sb s.disk i).type ≠ 0) :
    Wp (ilock e) (fun _ => False)
      (fun _ s' => s' = holding s e (dinode s.sb s.disk i)) s := by
  obtain ⟨ref, idle, rfl, copy⟩ := refers
  have free : ¬ (s.icache e).ref < 1 := Nat.not_lt.mpr ref
  simp only [ilock, wp_bind, wp_get, if_neg free, idle, Bool.false_eq_true, if_false]
  by_cases valid : (s.icache e).valid = true
  · rw [if_pos valid, wp_setInode]
    unfold holding
    rw [← copy valid]
    congr 1
    rw [← valid]
  · rw [if_neg valid]
    simp only [wp_bind, wp_bread, wp_setInode]
    rw [if_neg (by exact typed), wp_pure]
    rfl

@[simp]
theorem holding_disk (s : State) (e : Entry) (d : Dinode) : (holding s e d).disk = s.disk := rfl

@[simp]
theorem holding_copy (s : State) (e : Entry) (d : Dinode) :
    ((holding s e d).icache e).copy = d := by
  simp [holding, State.withInode]

@[simp]
theorem holding_dev (s : State) (e : Entry) (d : Dinode) :
    ((holding s e d).icache e).dev = (s.icache e).dev := by
  simp [holding, State.withInode]

theorem holding_ref (s : State) (e e' : Entry) (d : Dinode) :
    ((holding s e d).icache e').ref = (s.icache e').ref := by
  by_cases same : e' = e
  · subst same
    simp [holding, State.withInode]
  · simp [holding, State.withInode, same]

/-! ## Files -/

variable {f : HostFile} {k x j : Nat}

namespace Formatted

variable (formatted : Formatted files img) (mounts : Mounts img s)
include formatted mounts

/-- The kernel finds the inodes where the program has put them. -/
theorem dinode_eq (i : Nat) : dinode s.sb s.disk i = table img i := by
  rw [mounts.sb, mounts.disk, formatted.decode]
  rfl

/-- The size and the bytes of a file are those of the host file. -/
theorem readFile_spec (here : files[k]? = some f) (refers : Refers s e (k + 2)) (off n : UInt32) :
    Wp (readFile e off n) (fun _ => False) (fun r _ => r.1.toNat = f.bytes.length ∧ r.2 =
      if f.bytes.length < off.toNat ∨ 2 ^ 32 ≤ off.toNat + n.toNat then none
      else some ((f.bytes.drop off.toNat).take n.toNat)) s := by
  have bound : k < files.length := (List.getElem?_eq_some_iff.mp here).1
  have live : img.Live (k + 2) := ⟨by omega, by rw [formatted.freeinode]; omega⟩
  have other : k + 2 ≠ rootIno := by
    unfold rootIno
    omega
  have content : contents files (k + 2) = f.bytes := by
    rw [contents_file, here]
    rfl
  have size := formatted.size _ live other
  have type := formatted.type _ live
  have bytes := formatted.laid.bytes _ live
  have extent := formatted.extent live other
  rw [content] at size bytes
  rw [if_neg other] at type
  refine Wp.bind (ilock_refers refers ?_) (fun _ impossible => impossible) ?_
  · rw [formatted.dinode_eq mounts, type]
    decide
  rintro - s' rfl
  rw [formatted.dinode_eq mounts, wp_bind, wp_get, holding_copy]
  refine Wp.bind (readi_spec ?_ ?_ off n) (fun _ impossible => impossible) ?_
  · rw [holding_copy, type]
    decide
  · rw [holding_copy, holding_disk, mounts.disk]
    exact extent
  · rintro r s' ⟨-, rfl⟩
    refine ⟨size, ?_⟩
    rw [holding_copy, size]
    split
    · rfl
    · rw [Splice.take_drop_eq_map _ 0]
      apply congrArg some
      apply List.map_congr_left
      intro j member
      have inRange := List.mem_range.mp member
      rw [State.byte, holding_copy, holding_disk, mounts.disk]
      exact bytes _ (by omega)

end Formatted

/-! ## The root directory -/

/-- The name in entry `j` of the root directory. -/
def rootName (files : List HostFile) : Nat → List UInt8
  | 0 => dot
  | 1 => dotdot
  | k + 2 => (files[k]?.map HostFile.target).getD []

/-- The inode in entry `j` of the root directory. -/
def rootInum : Nat → Nat
  | 0 => rootIno
  | 1 => rootIno
  | k + 2 => k + 2

theorem getD_entry (inside : x < direntSize) (name : List UInt8) (inum : Nat) :
    (entry name inum).getD x 0 = (Dirent.named name inum).byte x := by
  rw [entry, Splice.getD_map_range, if_pos inside]

theorem getD_entries (inside : x < direntSize) (inum : Nat) (here : files[k]? = some f) :
    (entries inum files).getD (direntSize * k + x) 0 =
      (Dirent.named f.target (inum + k)).byte x := by
  induction files generalizing k inum with
  | nil => cases here
  | cons g rest ih =>
    rw [entries]
    cases k with
    | zero =>
      cases here
      rw [Nat.mul_zero, Nat.zero_add, List.getD_append _ _ _ _ (by simpa using inside),
        getD_entry inside, Nat.add_zero]
    | succ k =>
      have skip : direntSize * (k + 1) + x - direntSize = direntSize * k + x := by
        rw [Nat.mul_succ]
        omega
      rw [List.getD_append_right _ _ _ _ (by rw [length_entry, Nat.mul_succ]; omega),
        length_entry, skip, ih (inum + 1) here, Nat.add_assoc, Nat.add_comm 1 k]

theorem getD_rootContent (bound : j < files.length + 2) (inside : x < direntSize) :
    (rootContent files).getD (direntSize * j + x) 0 =
      (Dirent.named (rootName files j) (rootInum j)).byte x := by
  have first : ((entry dot rootIno) ++ (entry dotdot rootIno)).length = 2 * direntSize := by
    simp [Nat.two_mul]
  rw [rootContent]
  rcases j with _ | _ | k
  · rw [List.append_assoc, Nat.mul_zero, Nat.zero_add,
      List.getD_append _ _ _ _ (by simpa using inside), getD_entry inside]
    rfl
  · rw [Nat.zero_add, Nat.mul_one, List.getD_append _ _ _ _ (by rw [first]; omega),
      List.getD_append_right _ _ _ _ (by simp), length_entry, Nat.add_sub_cancel_left,
      getD_entry inside]
    rfl
  · have here : k < files.length := by omega
    have skip : direntSize * (k + 1 + 1) + x - 2 * direntSize = direntSize * k + x := by
      unfold direntSize
      omega
    rw [List.getD_append_right _ _ _ _ (by rw [first]; unfold direntSize; omega), first, skip,
      getD_entries inside 2 (List.getElem?_eq_getElem here), rootName, rootInum,
      List.getElem?_eq_getElem here, Nat.add_comm 2 k]
    rfl

/-- `iget` with room in the cache. -/
theorem iget_names (dev inum : Nat) (room : ∃ e, (s.icache e).ref = 0) :
    Wp (iget dev inum) (fun _ => False) (fun found s' => (s'.icache found).dev = dev ∧
      (s'.icache found).inum = inum ∧ 0 < (s'.icache found).ref) s := by
  simp only [iget, wp_bind, wp_get]
  cases search : (List.finRange ninode).find? fun e =>
      decide (0 < (s.icache e).ref ∧ (s.icache e).dev = dev ∧ (s.icache e).inum = inum) with
  | some e =>
    have hit := List.find?_some search
    have isHit := of_decide_eq_true hit
    simp only [wp_bind, wp_setInode, wp_pure, State.withInode, Function.update_self]
    exact ⟨isHit.2.1, isHit.2.2, Nat.succ_pos _⟩
  | none =>
    cases vacant : (List.finRange ninode).find? fun e => decide ((s.icache e).ref = 0) with
    | none =>
      obtain ⟨e, unused⟩ := room
      have used := List.find?_eq_none.mp vacant e (List.mem_finRange e)
      rw [decide_eq_true_eq] at used
      exact used unused
    | some e =>
      simp only [wp_bind, wp_setInode, wp_pure, State.withInode, Function.update_self]
      exact ⟨trivial, trivial, Nat.one_pos⟩

/-- The string of the name in entry `k + 2`. -/
theorem cstr_rootName (here : files[k]? = some f) :
    cstr dirsiz (rootName files (k + 2)) = f.target.take dirsiz := by
  have noNul : 0 ∉ f.target := by
    unfold HostFile.target
    split
    · exact fun member => f.noNul (List.mem_of_mem_tail member)
    · exact f.noNul
  rw [rootName, here]
  exact cstr_eq_take noNul dirsiz

/-- Earlier entries have other names. -/
theorem Named.ne_of_lt (named : Named files) (here : files[k]? = some f) (before : j < k + 2) :
    f.target.take dirsiz ≠ cstr dirsiz (rootName files j) := by
  have member : f ∈ files := List.mem_of_getElem? here
  match j with
  | 0 => exact named.notDot f member
  | 1 => exact named.notDotdot f member
  | l + 2 =>
    have bound : k < files.length := (List.getElem?_eq_some_iff.mp here).1
    have earlier : l < k := by omega
    rw [cstr_rootName (List.getElem?_eq_getElem (earlier.trans bound))]
    intro same
    have indices := (List.nodup_iff_getElem?_ne_getElem?.mp named.distinct) l k earlier
      (by simpa using bound)
    apply indices
    rw [List.getElem?_map, List.getElem?_map, here,
      List.getElem?_eq_getElem (earlier.trans bound)]
    exact congrArg some same.symm

namespace Formatted

variable (formatted : Formatted files img) (few : files.length < ninodes)
variable (disk : s.disk = img.sectors) (copy : (s.icache e).copy = table img rootIno)
include formatted few disk copy

/-- The kernel reads the entries that the program has written. -/
theorem readDirent_spec (halt : Halt) (bound : j < files.length + 2) :
    Wp (readDirent halt e (direntSize * j)) (fun _ => False) (fun de s' => s' = s ∧
      de = Dirent.named (rootName files j) (rootInum j)) s := by
  have small : files.length < 200 := few
  have rootSize := formatted.rootSize
  rw [length_rootContent] at rootSize
  have type := formatted.type rootIno formatted.liveRoot
  rw [if_pos rfl] at type
  have offset : (UInt32.ofNat (direntSize * j)).toNat = 16 * j :=
    Nat.mod_eq_of_lt (by unfold direntSize; omega)
  have width : (UInt32.ofNat direntSize).toNat = 16 := rfl
  have large : 16 * j + 16 < (table img rootIno).size.toNat := by
    rw [rootSize]
    unfold direntSize bsize
    omega
  have count : min 16 ((table img rootIno).size.toNat - 16 * j) = 16 := by omega
  have extent := formatted.extent_root
  rw [← disk, ← copy] at extent
  refine Wp.bind (readi_within ?_ extent _ _ ?_) (fun _ impossible => impossible) ?_
  · rw [copy, type]
    decide
  · intro _
    rw [offset, width, copy, count]
    unfold blocksOf direntSize bsize
    omega
  · rintro r s' ⟨rfl, rfl⟩
    rw [copy, offset, width, count, if_neg (by omega)]
    have length : ((List.range 16).map fun x => s'.byte e (16 * j + x)).length = direntSize := by
      simp [direntSize]
    simp only [length, ne_eq, not_true_eq_false, if_false, wp_pure, true_and]
    apply Dirent.ofBytes_eq
    intro x inside
    have whole : direntSize * j + x < (rootContent files).length := by
      rw [length_rootContent]
      unfold direntSize at *
      omega
    have bytes := formatted.laid.bytes rootIno formatted.liveRoot
    rw [contents_root] at bytes
    rw [Splice.getD_map_range, if_pos (by exact inside), ← getD_rootContent bound inside,
      ← bytes _ whole, State.byte, disk, copy]
    rfl

variable {name : List UInt8}

/-- The loop of `dirlookup` goes past the earlier entries and finds the file. -/
theorem dirlookupLoop_spec (named : Named files) (room : ∃ e, (s.icache e).ref = 0)
    (here : files[k]? = some f) (equal : cstr dirsiz name = f.target.take dirsiz) {turns : Nat}
    (before : j ≤ k + 2) (enough : k + 2 < turns + j) :
    Wp (dirlookupLoop e name turns (direntSize * j)) (fun _ => False) (fun r s' =>
      ∃ found, r = some (found, direntSize * (k + 2)) ∧
        (s'.icache found).dev = (s.icache e).dev ∧ (s'.icache found).inum = k + 2 ∧
        0 < (s'.icache found).ref) s := by
  have bound : k < files.length := (List.getElem?_eq_some_iff.mp here).1
  have small : files.length < 200 := few
  have rootSize := formatted.rootSize
  rw [length_rootContent] at rootSize
  induction turns generalizing j with
  | zero => omega
  | succ turns ih =>
    have large : direntSize * j < (s.icache e).copy.size.toNat := by
      rw [copy, rootSize]
      unfold direntSize bsize
      omega
    rw [dirlookupLoop, wp_bind, wp_get, if_pos large]
    refine Wp.bind (formatted.readDirent_spec few disk copy _ (by omega))
      (fun _ impossible => impossible) ?_
    rintro de s' ⟨rfl, rfl⟩
    have inum : (Dirent.named (rootName files j) (rootInum j)).inum.toNat = rootInum j := by
      apply Nat.mod_eq_of_lt
      match j with
      | 0 | 1 => decide
      | l + 2 =>
        change l + 2 < 2 ^ 16
        omega
    have nonzero : (Dirent.named (rootName files j) (rootInum j)).inum ≠ 0 := by
      intro zero
      rw [zero] at inum
      match j with
      | 0 | 1 => exact absurd inum (by decide)
      | l + 2 => exact absurd inum (by change (0 : Nat) ≠ l + 2; omega)
    have compare := namecmp_named name (rootName files j) (rootInum j)
    rw [equal] at compare
    rw [if_neg nonzero]
    by_cases last : j = k + 2
    · subst last
      rw [if_pos (compare.mpr (cstr_rootName here).symm), inum, wp_bind, wp_get]
      refine Wp.bind (iget_names _ _ room) (fun _ impossible => impossible) ?_
      intro found s'' names
      exact ⟨found, rfl, names⟩
    · have earlier : j < k + 2 := by omega
      rw [if_neg (fun same => named.ne_of_lt here earlier (compare.mp same))]
      have next : direntSize * j + direntSize = direntSize * (j + 1) := (Nat.mul_succ _ _).symm
      rw [next]
      exact ih earlier (by omega)

omit disk copy in
/-- The name of a file is found in the root directory. -/
theorem lookup_spec (named : Named files) (mounts : Mounts img s) (refers : Refers s e rootIno)
    (room : ∃ e, (s.icache e).ref = 0) (here : files[k]? = some f)
    (equal : cstr dirsiz name = f.target.take dirsiz) :
    Wp (lookup e name) (fun _ => False) (fun r s' => ∃ found,
      r = some (found, direntSize * (k + 2)) ∧ (s'.icache found).dev = (s.icache e).dev ∧
        (s'.icache found).inum = k + 2 ∧ 0 < (s'.icache found).ref) s := by
  have type := formatted.type rootIno formatted.liveRoot
  rw [if_pos rfl] at type
  have bound : k < files.length := (List.getElem?_eq_some_iff.mp here).1
  have rootSize := formatted.rootSize
  rw [length_rootContent] at rootSize
  refine Wp.bind (ilock_refers refers ?_) (fun _ impossible => impossible) ?_
  · rw [formatted.dinode_eq mounts, type]
    decide
  rintro - s' rfl
  rw [formatted.dinode_eq mounts, dirlookup, wp_bind, wp_get, holding_copy,
    if_neg (not_not.mpr type)]
  have enough : k + 2 < (table img rootIno).size.toNat / direntSize + 1 + 0 := by
    rw [rootSize]
    unfold direntSize bsize
    omega
  have room' : ∃ e', ((holding s e (table img rootIno)).icache e').ref = 0 := by
    obtain ⟨e', unused⟩ := room
    exact ⟨e', by rwa [holding_ref]⟩
  have found := formatted.dirlookupLoop_spec few (s := holding s e (table img rootIno)) mounts.disk
    (holding_copy ..) named room' here equal (Nat.zero_le _) enough
  rw [holding_dev] at found
  exact found

end Formatted

/-- What the kernel finds on the image of these files: the inode of each file gives its
size and its bytes, and its name leads to it from the root directory. -/
structure ReadsBack (files : List HostFile) (img : Image) : Prop where
  read : ∀ s, Mounts img s → ∀ k f, files[k]? = some f → ∀ e, Refers s e (k + 2) → ∀ off n,
    Wp (readFile e off n) (fun _ => False) (fun r _ => r.1.toNat = f.bytes.length ∧ r.2 =
      if f.bytes.length < off.toNat ∨ 2 ^ 32 ≤ off.toNat + n.toNat then none
      else some ((f.bytes.drop off.toNat).take n.toNat)) s
  lookup : ∀ s, Mounts img s → ∀ k f, files[k]? = some f → ∀ e, Refers s e rootIno →
    (∃ e, (s.icache e).ref = 0) → ∀ name, cstr dirsiz name = f.target.take dirsiz →
    Wp (lookup e name) (fun _ => False) (fun r s' => ∃ found off,
      r = some (found, off) ∧ (s'.icache found).dev = (s.icache e).dev ∧
        (s'.icache found).inum = k + 2 ∧ 0 < (s'.icache found).ref) s

/-- The program exits with status 0 for host files that fit, however `read` cuts them
into chunks, and the kernel reads back what it has written. -/
theorem mkfs_readsBack (few : files.length < ninodes) (fits : Fits files) (named : Named files) :
    ∃ img, mkfs files = .ok img ∧ ReadsBack files img := by
  have inodes : files.length + 2 ≤ slots := by
    have small : files.length < 200 := few
    have room : slots = 208 := rfl
    omega
  obtain ⟨img, done⟩ := mkfs_ok inodes fits
  have formatted := mkfs_formatted inodes done
  refine ⟨img, done, ?_, ?_⟩
  · intro s mounts k f here e refers off n
    exact formatted.readFile_spec mounts here refers off n
  · intro s mounts k f here e refers room name equal
    refine (formatted.lookup_spec few named mounts refers room here equal).imp ?_
    rintro r s' ⟨found, rfl, names⟩
    exact ⟨found, _, rfl, names⟩

/-- The host file `_hi`, read in two chunks. -/
def hiFile : HostFile where
  name := [95, 104, 105]
  opens := true
  chunks := [[72, 105], [10]]
  noNul := by decide
  pieces := by decide

theorem hiFile_readsBack : ∃ img, mkfs [hiFile] = .ok img ∧ ReadsBack [hiFile] img := by
  have only : ∀ f ∈ [hiFile], f = hiFile := fun f => List.mem_singleton.mp
  apply mkfs_readsBack (by decide)
  · constructor
    · intro f member
      rw [only f member]
      decide
    · intro f member
      rw [only f member]
      rfl
    · intro f member
      rw [only f member]
      decide
    · rw [cost, length_rootContent]
      decide
  · constructor
    · intro f member
      rw [only f member]
      decide
    · exact List.nodup_singleton _
    · intro f member
      rw [only f member]
      decide
    · intro f member
      rw [only f member]
      decide

end Xv6.Mkfs
