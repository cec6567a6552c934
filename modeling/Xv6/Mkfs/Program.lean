import Xv6.Mkfs.Build

/-!
# What the program leaves on the image

The inodes follow the order of the host files: the root directory is inode 1, and
the files are inodes 2, 3 and so on.  The root directory has an entry for itself
under `.` and `..` and one for each file.
-/

namespace Xv6.Mkfs

open Stateful Fs Function

variable {img : Image} {files done : List HostFile} {f : HostFile} {stop : Exit → Prop}

/-- The directory entries of files whose first inode is `inum`. -/
def entries : Nat → List HostFile → List UInt8
  | _, [] => []
  | inum, f :: rest => entry f.target inum ++ entries (inum + 1) rest

/-- The bytes of the root directory. -/
def rootContent (files : List HostFile) : List UInt8 :=
  entry dot rootIno ++ entry dotdot rootIno ++ entries 2 files

/-- The bytes of each inode. -/
def contents (files : List HostFile) (i : Nat) : List UInt8 :=
  if i = rootIno then rootContent files
  else if 2 ≤ i then (files[i - 2]?.map HostFile.bytes).getD []
  else []

/-- The blocks that the image takes. -/
def cost (files : List HostFile) : Nat :=
  nmeta + blocksFor (blocksOf (rootContent files).length) +
    (files.map fun f => blocksFor (blocksOf f.bytes.length)).sum

/-- The host files that fit on an image. -/
structure Fits (files : List HostFile) : Prop where
  names : ∀ f ∈ files, slash ∉ f.name
  opens : ∀ f ∈ files, f.opens = true
  short : ∀ f ∈ files, f.bytes.length ≤ maxfile * bsize
  room : cost files ≤ fssize

/-! ## Contents -/

@[simp]
theorem length_entry (name : List UInt8) (inum : Nat) : (entry name inum).length = direntSize := by
  simp [entry]

theorem length_entries (inum : Nat) (files : List HostFile) :
    (entries inum files).length = direntSize * files.length := by
  induction files generalizing inum with
  | nil => rfl
  | cons f rest ih =>
    rw [entries, List.length_append, length_entry, ih, List.length_cons,
      Nat.mul_succ, Nat.add_comm]

theorem length_rootContent (files : List HostFile) :
    (rootContent files).length = direntSize * (files.length + 2) := by
  simp only [rootContent, List.length_append, length_entry, length_entries]
  unfold direntSize
  omega

theorem entries_append (inum : Nat) (files : List HostFile) (f : HostFile) :
    entries inum (files ++ [f]) = entries inum files ++ entry f.target (inum + files.length) := by
  induction files generalizing inum with
  | nil => simp [entries]
  | cons g rest ih =>
    rw [List.cons_append, entries, ih, entries, List.append_assoc, List.length_cons,
      Nat.add_right_comm, Nat.add_assoc]

theorem rootContent_append (files : List HostFile) (f : HostFile) :
    rootContent (files ++ [f]) = rootContent files ++ entry f.target (files.length + 2) := by
  rw [rootContent, entries_append, rootContent, List.append_assoc _ _ (entry _ _),
    Nat.add_comm files.length]

theorem contents_root (files : List HostFile) : contents files rootIno = rootContent files :=
  if_pos rfl

theorem contents_file (files : List HostFile) (k : Nat) :
    contents files (k + 2) = (files[k]?.map HostFile.bytes).getD [] := by
  rw [contents, if_neg (by unfold rootIno; omega), if_pos (by omega), Nat.add_sub_cancel]

theorem contents_next (files : List HostFile) : contents files (files.length + 2) = [] := by
  simp [contents_file]

theorem contents_append (files : List HostFile) (f : HostFile) :
    contents (files ++ [f]) = update (update (contents files) rootIno
      (rootContent files ++ entry f.target (files.length + 2))) (files.length + 2) f.bytes := by
  funext i
  rcases Nat.lt_or_ge i 2 with low | high
  · rw [update_of_ne (by omega)]
    by_cases root : i = rootIno
    · subst root
      rw [update_self, contents_root, rootContent_append]
    · rw [update_of_ne root, contents, contents, if_neg root, if_neg root,
        if_neg (by omega), if_neg (by omega)]
  · obtain ⟨k, rfl⟩ : ∃ k, i = k + 2 := ⟨i - 2, by omega⟩
    rw [contents_file]
    by_cases last : k = files.length
    · subst last
      simp
    · rw [update_of_ne (by omega), update_of_ne (by unfold rootIno; omega),
        contents_file]
      rcases Nat.lt_or_ge k files.length with before | behind
      · rw [List.getElem?_append_left before]
      · rw [List.getElem?_eq_none (by simp; omega), List.getElem?_eq_none (by omega)]

theorem cost_append (files : List HostFile) (f : HostFile) :
    cost (files ++ [f]) = nmeta +
      blocksFor (blocksOf (rootContent files ++ entry f.target (files.length + 2)).length) +
      (files.map fun f => blocksFor (blocksOf f.bytes.length)).sum +
      blocksFor (blocksOf f.bytes.length) := by
  simp only [cost, rootContent_append, List.map_append, List.sum_append, List.map_cons,
    List.map_nil, List.sum_cons, List.sum_nil]
  omega

/-- Fewer files fit as well. -/
theorem Fits.init {more : List HostFile} (fits : Fits (files ++ more)) : Fits files := by
  refine ⟨fun f member => fits.names f (List.mem_append_left _ member),
    fun f member => fits.opens f (List.mem_append_left _ member),
    fun f member => fits.short f (List.mem_append_left _ member), ?_⟩
  refine le_trans ?_ fits.room
  have longer : (rootContent files).length ≤ (rootContent (files ++ more)).length := by
    rw [length_rootContent, length_rootContent, List.length_append]
    exact Nat.mul_le_mul_left _ (by omega)
  have mono := blocksFor_mono (blocksOf_mono longer)
  simp only [cost, List.map_append, List.sum_append]
  omega

/-! ## The loop over the files -/

/-- The image after these files. -/
structure Built (files : List HostFile) (img : Image) : Prop where
  rest : Rest img (contents files)
  freeinode : img.freeinode = files.length + 2
  freeblock : img.freeblock = cost files

theorem addFile_spec (built : Built done img) (room : done.length + 2 < slots) :
    Wp (addFile rootIno f) (fun _ => ¬ Fits (done ++ [f])) (fun _ => Built (done ++ [f])) img := by
  have member : f ∈ done ++ [f] := List.mem_append_right _ (List.mem_singleton_self f)
  have costAppend := cost_append done f
  have costDone := built.freeblock
  unfold cost at costDone
  rw [addFile]
  by_cases bad : slash ∈ f.name
  · rw [if_pos bad]
    exact fun fits => fits.names f member bad
  rw [if_neg bad]
  by_cases opens : f.opens = true
  · rw [if_pos opens]
    refine Wp.bind (ialloc_spec built.rest (by rw [built.freeinode]; omega)
      (by rwa [built.freeinode]) (by rw [built.freeinode, contents_next]) ?_)
      (fun _ impossible => impossible.elim) ?_
    · rw [built.freeinode, if_neg (by unfold rootIno; omega)]
    rintro inum img₁ ⟨rfl, rest₁, freeinode₁, freeblock₁⟩
    rw [built.freeinode] at freeinode₁ ⊢
    have liveRoot : img₁.Live rootIno := ⟨by decide, by rw [freeinode₁]; unfold rootIno; omega⟩
    refine Wp.bind (iappend_spec rest₁ liveRoot _) ?_ ?_
    · rw [contents_root]
      rintro reason (⟨rfl, long⟩ | ⟨rfl, full⟩) fits
      · rw [List.length_append, length_rootContent, length_entry] at long
        have few : done.length + 2 < 208 := room
        have whole : maxfile * bsize = 71680 := rfl
        unfold direntSize at long
        omega
      · have enough := fits.room
        omega
    · intro _ img₂ ⟨rest₂, freeinode₂, count⟩
      rw [contents_root] at count rest₂
      have live₂ : img₂.Live (done.length + 2) :=
        ⟨by omega, by rw [freeinode₂, freeinode₁]; omega⟩
      have nothing : update (contents done) rootIno (rootContent done ++
          entry f.target (done.length + 2)) (done.length + 2) = [] := by
        rw [update_of_ne (by unfold rootIno; omega), contents_next]
      have zero : blocksFor (blocksOf ([] : List UInt8).length) = 0 := rfl
      refine (copyChunks_spec rest₂ live₂ f.chunks).mono ?_ ?_
      · rw [nothing]
        rintro reason (⟨rfl, long⟩ | ⟨rfl, full⟩) fits
        · exact absurd (fits.short f member) (Nat.not_le.mpr long)
        · have enough := fits.room
          rw [List.nil_append] at full
          change _ < _ + blocksFor (blocksOf f.bytes.length) at full
          omega
      · rintro - img₃ ⟨rest₃, freeinode₃, count₃⟩
        rw [nothing, List.nil_append] at rest₃ count₃
        refine ⟨?_, ?_, ?_⟩
        · rw [contents_append]
          exact rest₃
        · rw [freeinode₃, freeinode₂, freeinode₁, List.length_append, List.length_singleton]
        · change _ = _ + blocksFor (blocksOf f.bytes.length) at count₃
          omega
  · rw [if_neg opens]
    exact fun fits => opens (fits.opens f member)

theorem addFiles_spec (built : Built done img) (few : (done ++ files).length + 2 ≤ slots) :
    Wp (addFiles rootIno files) (fun _ => ¬ Fits (done ++ files))
      (fun _ => Built (done ++ files)) img := by
  induction files generalizing done img with
  | nil =>
    rw [List.append_nil]
    exact built
  | cons f rest ih =>
    have split : done ++ f :: rest = (done ++ [f]) ++ rest := by simp
    rw [split] at few ⊢
    have room : done.length + 2 < slots := by
      simp only [List.length_append, List.length_singleton] at few
      omega
    exact Wp.bind (addFile_spec built room) (fun _ unfit fits => unfit fits.init)
      fun _ img' built' => ih built' few

/-! ## The program -/

/-- The image that the program leaves: the size of the root directory is rounded, and
the bitmap marks the blocks below `freeblock`. -/
structure Formatted (files : List HostFile) (img : Image) : Prop where
  laid : Laid img (table img) (contents files)
  superblock : img.sectors 1 = superblock
  freeinode : img.freeinode = files.length + 2
  freeblock : img.freeblock = cost files
  size : ∀ i, img.Live i → i ≠ rootIno → (table img i).size.toNat = (contents files i).length
  rootSize : (table img rootIno).size.toNat = ((rootContent files).length / bsize + 1) * bsize
  type : ∀ i, img.Live i → (table img i).type = if i = rootIno then tDir else tFile
  bitmap : img.sectors sb.bmapstart = (List.range img.freeblock).foldl Bitmap.set fun _ => 0

/-- The sectors are zero at first. -/
theorem zeroSectors_spec {n : Nat} (bound : n ≤ fssize) :
    Wp (zeroSectors n) stop (fun _ img => img = { Image.empty with length := n }) Image.empty := by
  induction n with
  | zero =>
    rw [zeroSectors_zero]
    rfl
  | succ n ih =>
    rw [zeroSectors_succ]
    refine Wp.bind (ih (by omega)) (fun _ => id) ?_
    rintro - img rfl
    have longer : max n (n + 1) = n + 1 := by omega
    rw [wsect, wp_modify, seek_eq (by omega)]
    simp only [longer]
    congr 1
    exact update_eq_self n (fun _ => fun _ => 0)

/-- The image with the superblock and nothing else. -/
def Image.blank : Image :=
  { Image.empty with length := fssize }.store 1 superblock

theorem table_blank {i : Nat} (range : i < slots) : table Image.blank i = Dinode.zero := by
  have block : Image.blank.sectors (sb.iblock i) = fun _ => 0 :=
    Image.store_of_ne _ (iblock_bounds range).1.ne' _
  unfold table dinode
  rw [block]
  simp [Dinode.get]

theorem blank_rest : Rest Image.blank fun _ => [] := by
  have none : ∀ i, ¬ Image.blank.Live i := by
    rintro i ⟨low, high⟩
    exact Nat.not_le.mpr high low
  constructor
  · refine ⟨⟨rfl, Nat.le_refl nmeta, by decide, by decide, ?_, ?_, ?_, ?_⟩, ?_⟩
    · intro b low _
      have different : b ≠ 1 := by
        rintro rfl
        exact absurd low (by decide)
      exact Image.store_of_ne _ different _
    · intro i range
      rw [table_blank range]
      exact iff_of_false (by decide) (none i)
    · exact fun i live => absurd live (none i)
    · constructor
      · intro p b held
        obtain ⟨range, typed, -⟩ := holds_eq_some.mp held
        rw [table_blank range] at typed
        exact absurd rfl typed
      · intro p q b held _
        obtain ⟨range, typed, -⟩ := holds_eq_some.mp held
        rw [table_blank range] at typed
        exact absurd rfl typed
      · rintro b ⟨low, high⟩
        exact absurd low (Nat.not_le.mpr high)
    · exact fun i live => absurd live (none i)
  · exact Image.store_self _ _ _
  · exact fun i live => absurd live (none i)
  · exact fun i live => absurd live (none i)

theorem wp_balloc {post : Unit → Image → Prop} {n : Nat} (length : img.length = fssize)
    (bound : n ≤ fssize) : Wp (balloc n) stop post img ↔
      post () (img.store sb.bmapstart ((List.range n).foldl Bitmap.set fun _ => 0)) := by
  rw [balloc, if_pos (bound.trans_lt (by decide)), wp_wsect length (by decide)]

/-- The inodes are not affected by the bitmap. -/
theorem table_storeBitmap {i : Nat} (range : i < slots) (data : Block) :
    table (img.store sb.bmapstart data) i = table img i :=
  dinode_update_of_ne (iblock_bounds range).2.ne'

/-- The new size of the root directory and the bitmap finish the image. -/
theorem Built.formatted (built : Built files img) {d : Dinode}
    (type : d.type = (table img rootIno).type) (addrs : d.addrs = (table img rootIno).addrs)
    (size : d.size.toNat = ((rootContent files).length / bsize + 1) * bsize) :
    Formatted files ((img.withInode rootIno d).store sb.bmapstart
      ((List.range img.freeblock).foldl Bitmap.set fun _ => 0)) := by
  have root : rootIno < slots := by decide
  have ranged : ∀ j, img.Live j → j < slots := fun j live =>
    live.2.trans_le built.rest.laid.blocks.inodes
  have inodes : ∀ j < slots, table ((img.withInode rootIno d).store sb.bmapstart
      ((List.range img.freeblock).foldl Bitmap.set fun _ => 0)) j =
      update (table img) rootIno d j := by
    intro j range
    rw [table_storeBitmap range, table_withInode]
  constructor
  · have stored := (built.rest.laid.storeMeta (iblock_lt_nmeta root)
      (Dinode.put (img.sectors (sb.iblock rootIno)) (rootIno % ipb) d)).storeMeta
      (b := sb.bmapstart) (by decide) ((List.range img.freeblock).foldl Bitmap.set fun _ => 0)
    apply stored.of_addrs
    intro j range
    rw [inodes j range]
    by_cases here : j = rootIno
    · subst here
      rw [update_self]
      exact ⟨type, addrs⟩
    · rw [update_of_ne here]
      exact ⟨rfl, rfl⟩
  · have different : 1 ≠ sb.bmapstart := by decide
    rw [Image.store_of_ne _ different, Image.withInode_superblock root]
    exact built.rest.superblock
  · exact built.freeinode
  · exact built.freeblock
  · intro j live other
    rw [inodes j (ranged j live), update_of_ne other]
    exact built.rest.size j live
  · rw [inodes rootIno root, update_self]
    exact size
  · intro j live
    rw [inodes j (ranged j live), ← built.rest.type j live]
    by_cases here : j = rootIno
    · subst here
      rw [update_self]
      exact type
    · rw [update_of_ne here]
  · exact Image.store_self _ _ _

theorem roundSize_spec (built : Built files img) :
    Wp (roundSize rootIno >>= fun _ => get >>= fun img => balloc img.freeblock) (fun _ => False)
      (fun _ => Formatted files) img := by
  have length := built.rest.laid.blocks.length
  have range : rootIno < slots := by decide
  have live : img.Live rootIno := ⟨by decide, by rw [built.freeinode]; unfold rootIno; omega⟩
  have rootSize := built.rest.size rootIno live
  have short := built.rest.laid.length_le live
  rw [contents_root] at rootSize short
  rw [roundSize, wp_bind, wp_bind, wp_rinode length range, wp_winode length range, wp_bind, wp_get,
    wp_balloc (by exact length) (by exact built.rest.laid.blocks.high)]
  refine built.formatted rfl rfl ?_
  rw [rootSize]
  have whole : maxfile * bsize = 71680 := rfl
  apply Nat.mod_eq_of_lt
  unfold bsize
  omega

/-- The image with the two entries of the empty root directory. -/
theorem emptyRoot_built {img₁ img₂ : Image} (blank : img.freeinode = 2)
    (first : Extended img img₁ (fun _ => []) rootIno (entry dot rootIno))
    (second : Extended img₁ img₂ (update (fun _ => []) rootIno (entry dot rootIno))
      rootIno (entry dotdot rootIno)) (start : img.freeblock = nmeta) : Built [] img₂ := by
  obtain ⟨-, freeinode, count⟩ := first
  obtain ⟨rest, freeinode', count'⟩ := second
  have same : contents [] = update (fun _ => []) rootIno
      (entry dot rootIno ++ entry dotdot rootIno) := by
    funext i
    by_cases root : i = rootIno
    · subst root
      rw [update_self, contents_root, rootContent, entries, List.append_nil]
    · rw [update_of_ne root, contents, if_neg root]
      simp
  have zero : blocksFor (blocksOf ([] : List UInt8).length) = 0 := rfl
  rw [update_self] at count'
  refine ⟨?_, ?_, ?_⟩
  · rw [update_self, update_idem] at rest
    rw [same]
    exact rest
  · rw [freeinode', freeinode, blank]
    rfl
  · rw [cost, rootContent, entries, List.append_nil]
    simp only [List.nil_append, List.map_nil, List.sum_nil] at *
    omega

variable (few : files.length + 2 ≤ slots)
include few

theorem main_spec :
    Wp (main files) (fun _ => ¬ Fits files) (fun _ => Formatted files) Image.empty := by
  rw [main]
  refine Wp.bind (zeroSectors_spec (Nat.le_refl fssize)) (fun _ => id) ?_
  rintro - img rfl
  rw [wp_bind, wp_wsect rfl (by decide)]
  refine Wp.bind (ialloc_spec blank_rest (by decide) (by decide) rfl rfl)
    (fun _ impossible => impossible.elim) ?_
  rintro inum img ⟨rfl, rest, freeinode, freeblock⟩
  have live : img.Live rootIno := ⟨by decide, by rw [freeinode]; decide⟩
  have start : Image.blank.freeinode = rootIno := rfl
  rw [if_pos start, start]
  have unstopped : ∀ reason, Stops img [] (entry dot rootIno ++ entry dotdot rootIno) reason →
      ¬ Fits files := by
    rintro reason (⟨-, long⟩ | ⟨-, full⟩)
    · rw [List.nil_append, List.length_append, length_entry, length_entry] at long
      exact absurd long (by decide)
    · rw [List.nil_append, List.length_append, length_entry, length_entry, freeblock] at full
      exact absurd full (by decide)
  refine Wp.bind (iappend_spec rest live _) (fun _ stops => unstopped _ (stops.more _)) ?_
  intro _ img₁ first
  have live₁ : img₁.Live rootIno := (Image.live_congr first.freeinode).mpr live
  have rest₁ := first.rest
  rw [List.nil_append] at rest₁
  refine Wp.bind (iappend_spec rest₁ live₁ _) ?_ ?_
  · intro reason later
    rw [update_self] at later
    exact unstopped _ (stops_append first.count later)
  intro _ img₂ second
  have built := emptyRoot_built freeinode first second freeblock
  refine Wp.bind (addFiles_spec built few) (fun _ => id) ?_
  intro _ img₃ built₃
  exact (roundSize_spec built₃).mono (fun _ impossible => impossible.elim) fun _ _ => id

/-- An image that is left has the contents of the host files. -/
theorem mkfs_formatted (done : mkfs files = .ok img) : Formatted files img := by
  unfold mkfs at done
  cases outcome : (main files).run Image.empty with
  | error reason =>
    rw [outcome] at done
    cases done
  | ok result =>
    rw [outcome] at done
    cases done
    exact (main_spec few).ok outcome

/-- The program leaves an image for host files that fit on it. -/
theorem mkfs_ok (fits : Fits files) : ∃ img, mkfs files = .ok img := by
  obtain ⟨_, img, outcome, -⟩ := (main_spec few).returns_of fun _ unfit => unfit fits
  exact ⟨img, by rw [mkfs, outcome]; rfl⟩

end Xv6.Mkfs
