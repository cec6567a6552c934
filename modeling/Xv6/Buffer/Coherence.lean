import Xv6.Buffer.Cache

/-!
# Coherence of the buffer cache

The list of the buffers is always a ring through all of them, so the two scans of
`bget` see every buffer.  A block then never has two buffers, and what is left to know
of a buffer can be said about that buffer alone (`Sound`): its data is what the last
holder left, unless somebody holds it, and equals the data on the drive unless it is
marked to be written.  A buffer that is recycled is clean and free, so nothing is lost
with it.
-/

namespace Xv6.Buffer

open Linked Labelled Function

variable {Pid : Type}

/-! ## The ring -/

variable {blockno dev : UInt32} {io : Bool} {event : Event Pid}

namespace Cache

variable {c : Cache} {order : List Index}

/-- The list runs through every buffer. -/
def Listed (c : Cache) : Prop :=
  ∃ order, Ring c.links order ∧ ∀ b, b ∈ order

theorem length_lt (ring : Ring c.links order) : order.length < nbuf + 1 := by
  have bound := ring.nodup.length_le_card
  rw [Fintype.card_fin] at bound
  omega

theorem lookup_eq (ring : Ring c.links order) (dev blockno : UInt32) :
    c.lookup dev blockno =
      order.find? fun b => (c.buf b).dev = dev ∧ (c.buf b).blockno = blockno :=
  search_eq_find ring.forward (length_lt ring)

theorem victim_eq (ring : Ring c.links order) :
    c.victim =
      order.reverse.find? fun b => (c.buf b).busy = false ∧ (c.buf b).dirty = false :=
  search_eq_find ring.backward (by simpa using length_lt ring)

/-- A scan of `bget` that succeeds has found the block in a free buffer, or has found
it in no buffer and has taken a free and clean one. -/
theorem Listed.of_bget {b : Index} {c' : Cache} (listed : c.Listed)
    (got : c.bget dev blockno = .got b c') :
    ((c.buf b).key = (dev, blockno) ∧ (c.buf b).busy = false ∧
      c' = c.setBuf b { c.buf b with busy := true }) ∨
    ((∀ b', (c.buf b').key ≠ (dev, blockno)) ∧ (c.buf b).busy = false ∧
      (c.buf b).dirty = false ∧
      c' = c.setBuf b
        { c.buf b with dev, blockno, busy := true, valid := false, dirty := false }) := by
  obtain ⟨order, ring, all⟩ := listed
  unfold bget at got
  cases found : c.lookup dev blockno with
  | some hit =>
    rw [found] at got
    rw [lookup_eq ring] at found
    have same := List.find?_some found
    rw [decide_eq_true_eq] at same
    dsimp only at got
    split at got
    · cases got
    · rename_i free
      injection got with isBuffer isCache
      subst isBuffer
      refine .inl ⟨?_, by simpa using free, isCache.symm⟩
      simp [Buf.key, same]
  | none =>
    rw [found] at got
    rw [lookup_eq ring, List.find?_eq_none] at found
    cases chosen : c.victim with
    | none => simp [chosen] at got
    | some victim =>
      rw [chosen] at got
      rw [victim_eq ring] at chosen
      have free := List.find?_some chosen
      rw [decide_eq_true_eq] at free
      dsimp only at got
      injection got with isBuffer isCache
      subst isBuffer
      refine .inr ⟨?_, free.1, free.2, isCache.symm⟩
      intro b' same
      have missed := found b' (all b')
      simp only [Buf.key, Prod.mk.injEq] at same
      simp [same] at missed

/-- `bget` finds a block that is in a free buffer. -/
theorem Listed.bget_hit {b : Index} (listed : c.Listed)
    (only : ∀ b', (c.buf b').key = (dev, blockno) → b' = b) (key : (c.buf b).key = (dev, blockno))
    (free : (c.buf b).busy = false) :
    c.bget dev blockno = .got b (c.setBuf b { c.buf b with busy := true }) := by
  obtain ⟨order, ring, all⟩ := listed
  have found : c.lookup dev blockno = some b := by
    rw [lookup_eq ring]
    cases result : order.find? fun b => (c.buf b).dev = dev ∧ (c.buf b).blockno = blockno with
    | none =>
      have missed := List.find?_eq_none.mp result b (all b)
      simp only [Buf.key, Prod.mk.injEq] at key
      simp [key] at missed
    | some b' =>
      have same := List.find?_some result
      rw [decide_eq_true_eq] at same
      rw [only b' (by simp [Buf.key, same])]
  simp [bget, found, free]

/-- `bget` recycles a buffer for a block that is in none, if there is one. -/
theorem Listed.bget_miss {b : Index} (listed : c.Listed)
    (missing : ∀ b', (c.buf b').key ≠ (dev, blockno)) (free : (c.buf b).busy = false)
    (clean : (c.buf b).dirty = false) :
    ∃ b, c.bget dev blockno = .got b (c.setBuf b
      { c.buf b with dev, blockno, busy := true, valid := false, dirty := false }) := by
  obtain ⟨order, ring, all⟩ := listed
  have lost : c.lookup dev blockno = none := by
    rw [lookup_eq ring, List.find?_eq_none]
    intro b' _ same
    rw [decide_eq_true_eq] at same
    exact missing b' (by simp [Buf.key, same])
  cases chosen : c.victim with
  | none =>
    rw [victim_eq ring, List.find?_eq_none] at chosen
    have busy := chosen b (List.mem_reverse.mpr (all b))
    simp [free, clean] at busy
  | some victim => exact ⟨victim, by simp [bget, lost, chosen]⟩

theorem Listed.brelse {b : Index} (listed : c.Listed) : (c.brelse b).Listed := by
  obtain ⟨order, ring, all⟩ := listed
  refine ⟨b :: order.erase b, ring.moveToFront (all b), ?_⟩
  intro b'
  by_cases same : b' = b
  · simp [same]
  · exact List.mem_cons_of_mem b ((List.mem_erase_of_ne same).mpr (all b'))

/-! ### The ring that `binit` builds -/

variable {bufs : List Index}

theorem ring_foldl_addBuf (ring : Ring c.links order) (fresh : (bufs ++ order).Nodup) :
    Ring (bufs.foldl addBuf c).links (bufs.reverse ++ order) := by
  induction bufs generalizing c order with
  | nil => exact ring
  | cons b bufs ih =>
    rw [List.cons_append, List.nodup_cons, List.mem_append, not_or] at fresh
    have added : Ring (c.addBuf b).links (b :: order) := ring.pushFront fresh.1.2
    have rest : (bufs ++ b :: order).Nodup := by
      rw [List.nodup_middle, List.nodup_cons, List.mem_append, not_or]
      exact fresh
    simpa using ih added rest

theorem buf_foldl_addBuf {b : Index} :
    (bufs.foldl addBuf c).buf b =
      if b ∈ bufs then { c.buf b with dev := unused } else c.buf b := by
  induction bufs generalizing c with
  | nil => simp
  | cons first bufs ih =>
    rw [List.foldl_cons, ih]
    by_cases same : b = first
    · subst same
      simp [addBuf, setBuf]
    · simp [addBuf, setBuf, same]

theorem listed_binit : binit.Listed := by
  refine ⟨(List.finRange nbuf).reverse ++ [], ring_foldl_addBuf Ring.empty ?_, ?_⟩
  · simpa using List.nodup_finRange nbuf
  · intro b
    simp

theorem buf_binit (b : Index) : binit.buf b = { empty.buf b with dev := unused } := by
  rw [binit, buf_foldl_addBuf, if_pos (List.mem_finRange b)]

end Cache

/-! ## The invariant -/

section

variable (disk : UInt32 → UInt32 → Block)

/-- What holds of one buffer. -/
structure Sound (events : List (Event Pid)) (s : System Pid) (b : Index) : Prop where
  owned : (s.cache.buf b).busy = (s.owner b).isSome
  idle : s.owner b = none → s.io b = false ∧ s.unsaved b = false
  blank : (s.cache.buf b).dev = unused →
    (s.cache.buf b).valid = false ∧ (s.cache.buf b).dirty = false ∧ s.owner b = none
  filled : (s.cache.buf b).dev ≠ unused → s.io b = false → (s.cache.buf b).valid = true
  request : s.io b = true →
    s.unsaved b = false ∧ (s.cache.buf b).valid = (s.cache.buf b).dirty
  clean : (s.cache.buf b).valid = true → (s.cache.buf b).dirty = false →
    s.unsaved b = false → (s.cache.buf b).data = s.onDisk b
  free : (s.cache.buf b).valid = true → s.owner b = none →
    (s.cache.buf b).data = left disk (s.cache.buf b).key events
  unread : (s.cache.buf b).valid = false → (s.cache.buf b).dev ≠ unused →
    s.onDisk b = left disk (s.cache.buf b).key events

/-- The invariant of the cache. -/
structure Coherent (devices : Devices) (events : List (Event Pid)) (s : System Pid) :
    Prop where
  listed : s.cache.Listed
  inUse : ∀ b, (s.cache.buf b).dev = unused ∨ devices.inUse (s.cache.buf b).dev
  distinct : ∀ b b', (s.cache.buf b).dev ≠ unused →
    (s.cache.buf b).key = (s.cache.buf b').key → b = b'
  sound : ∀ b, Sound disk events s b
  uncached : ∀ dev blockno, devices.inUse dev →
    (∀ b, (s.cache.buf b).key ≠ (dev, blockno)) →
    s.disk (drive dev) blockno = left disk (dev, blockno) events

end

variable {disk : UInt32 → UInt32 → Block} {devices : Devices} {events events' : List (Event Pid)}
  {s s' : System Pid} {b : Index}

theorem System.setIo_eq_self (same : s.io b = io) : s.setIo b io = s := by
  rw [← same, System.setIo, update_eq_self]

variable {p : Pid}

namespace Sound

variable (sound : Sound disk events s b)
include sound

/-- A step that changes nothing about a buffer and its block keeps it sound. -/
theorem congr (buf : s'.cache.buf b = s.cache.buf b) (owner : s'.owner b = s.owner b)
    (io : s'.io b = s.io b) (unsaved : s'.unsaved b = s.unsaved b)
    (onDisk : (s.cache.buf b).dev ≠ unused → s'.onDisk b = s.onDisk b)
    (same : (s.cache.buf b).dev ≠ unused →
      left disk (s.cache.buf b).key events' = left disk (s.cache.buf b).key events) :
    Sound disk events' s' b := by
  have used : (s.cache.buf b).valid = true → (s.cache.buf b).dev ≠ unused := by
    intro valid isUnused
    rw [(sound.blank isUnused).1] at valid
    contradiction
  constructor
  · rw [buf, owner]
    exact sound.owned
  · rw [owner, io, unsaved]
    exact sound.idle
  · rw [buf, owner]
    exact sound.blank
  · rw [buf, io]
    exact sound.filled
  · rw [buf, io, unsaved]
    exact sound.request
  · rw [buf, unsaved]
    intro valid dirty saved
    rw [onDisk (used valid)]
    exact sound.clean valid dirty saved
  · rw [buf, owner]
    intro valid unowned
    rw [same (used valid)]
    exact sound.free valid unowned
  · rw [buf]
    intro invalid isUsed
    rw [onDisk isUsed, same isUsed]
    exact sound.unread invalid isUsed

theorem used_of_owner (owner : s.owner b = some p) : (s.cache.buf b).dev ≠ unused := by
  intro isUnused
  rw [(sound.blank isUnused).2.2] at owner
  contradiction

theorem owner_eq_none (free : (s.cache.buf b).busy = false) : s.owner b = none := by
  have owned := sound.owned
  rw [free] at owned
  cases owner : s.owner b with
  | none => rfl
  | some p => simp [owner] at owned

theorem used_of_io (io : s.io b = true) : (s.cache.buf b).dev ≠ unused := by
  intro isUnused
  rw [(sound.idle (sound.blank isUnused).2.2).1] at io
  contradiction

end Sound

attribute [local simp] System.setOwner System.setIo System.setUnsaved System.modify System.store
  Cache.setBuf

namespace Coherent

theorem boot : Coherent disk devices [] (System.boot disk : System Pid) := by
  have isUnused : ∀ b, ((System.boot disk : System Pid).cache.buf b).dev = unused := by
    intro b
    simp [System.boot, Cache.buf_binit]
  constructor
  · exact Cache.listed_binit
  · intro b
    exact .inl (isUnused b)
  · intro b b' used
    exact absurd (isUnused b) used
  · intro b
    constructor <;> simp [System.boot, Cache.buf_binit, Cache.empty]
  · intro dev blockno _ _
    rfl

variable (coherent : Coherent disk devices events s)
include coherent

/-- A step on a buffer that keeps its block: only that buffer has to be looked at. -/
theorem touch (b : Index) (listed : s'.cache.Listed)
    (key : (s'.cache.buf b).key = (s.cache.buf b).key)
    (others : ∀ b' ≠ b, s'.cache.buf b' = s.cache.buf b' ∧ s'.owner b' = s.owner b' ∧
      s'.io b' = s.io b' ∧ s'.unsaved b' = s.unsaved b')
    (blocks : ∀ dev blockno, devices.inUse dev → (dev, blockno) ≠ (s.cache.buf b).key →
      s'.disk (drive dev) blockno = s.disk (drive dev) blockno ∧
      left disk (dev, blockno) events' = left disk (dev, blockno) events)
    (sound : Sound disk events' s' b) : Coherent disk devices events' s' := by
  have keys : ∀ b', (s'.cache.buf b').key = (s.cache.buf b').key := by
    intro b'
    by_cases same : b' = b
    · rw [same, key]
    · rw [(others b' same).1]
  have devs : ∀ b', (s'.cache.buf b').dev = (s.cache.buf b').dev := by
    intro b'
    exact congrArg Prod.fst (keys b')
  constructor
  · exact listed
  · intro b'
    rw [devs]
    exact coherent.inUse b'
  · intro b₁ b₂
    rw [devs, keys, keys]
    exact coherent.distinct b₁ b₂
  · intro b'
    by_cases same : b' = b
    · rw [same]
      exact sound
    · obtain ⟨buf, owner, io, unsaved⟩ := others b' same
      have apart : (s.cache.buf b').dev ≠ unused →
          s'.disk (drive (s.cache.buf b').dev) (s.cache.buf b').blockno =
            s.disk (drive (s.cache.buf b').dev) (s.cache.buf b').blockno ∧
          left disk (s.cache.buf b').key events' = left disk (s.cache.buf b').key events := by
        intro isUsed
        apply blocks
        · exact (coherent.inUse b').resolve_left isUsed
        · intro sameKey
          exact same (coherent.distinct b' b isUsed sameKey)
      apply (coherent.sound b').congr buf owner io unsaved
      · intro isUsed
        rw [System.onDisk, System.onDisk, buf]
        exact (apart isUsed).1
      · intro isUsed
        exact (apart isUsed).2
  · intro dev blockno isUsed missing
    simp only [keys] at missing
    obtain ⟨sameDisk, sameLeft⟩ := blocks dev blockno isUsed (missing b).symm
    rw [sameDisk, sameLeft]
    exact coherent.uncached dev blockno isUsed missing

/-! ## The steps -/

/-- `bread` finds its block in a free buffer. -/
theorem hit (free : (s.cache.buf b).busy = false) (valid : (s.cache.buf b).valid = true)
    (silent : ∀ block, left disk block events' = left disk block events) :
    Coherent disk devices events'
      ({ s with cache := s.cache.setBuf b { s.cache.buf b with busy := true } }.setOwner b
        (some p)) := by
  have sound := coherent.sound b
  have owner := sound.owner_eq_none free
  have used : (s.cache.buf b).dev ≠ unused := by
    intro isUnused
    rw [(sound.blank isUnused).1] at valid
    contradiction
  apply coherent.touch b
  · exact coherent.listed
  · simp [Buf.key]
  · intro b' different
    simp [different]
  · intro dev blockno _ _
    exact ⟨rfl, silent _⟩
  · obtain ⟨noRequest, saved⟩ := sound.idle owner
    have clean := sound.clean valid
    constructor <;>
      simp_all [System.onDisk, Buf.key]

/-- `bread` recycles a buffer: the old block is as its last holder left it, on the
drive, and so is the new one. -/
theorem recycle (inUse : devices.inUse dev) (missing : ∀ b', (s.cache.buf b').key ≠ (dev, blockno))
    (free : (s.cache.buf b).busy = false) (clean : (s.cache.buf b).dirty = false)
    (silent : ∀ block, left disk block events' = left disk block events) :
    Coherent disk devices events'
      (({ s with cache := s.cache.setBuf b { s.cache.buf b with
          dev, blockno, busy := true, valid := false, dirty := false } }.setOwner b
        (some p)).setIo b true) := by
  have sound := coherent.sound b
  have owner := sound.owner_eq_none free
  obtain ⟨noRequest, saved⟩ := sound.idle owner
  have used : dev ≠ unused := by
    rintro rfl
    exact devices.not_unused inUse
  have newBlock := coherent.uncached dev blockno inUse missing
  constructor
  · exact coherent.listed
  · intro b'
    by_cases same : b' = b
    · subst same
      simp [inUse]
    · simpa [same] using coherent.inUse b'
  · intro b₁ b₂ used sameKey
    by_cases first : b₁ = b <;> by_cases second : b₂ = b
    · rw [first, second]
    · subst first
      simp only [System.setOwner, System.setIo, Cache.setBuf, update_self,
        update_of_ne second] at sameKey
      exact absurd sameKey.symm (missing b₂)
    · subst second
      simp only [System.setOwner, System.setIo, Cache.setBuf, update_self,
        update_of_ne first] at sameKey
      exact absurd sameKey (missing b₁)
    · simp only [System.setOwner, System.setIo, Cache.setBuf, update_of_ne first,
        update_of_ne second] at used sameKey
      exact coherent.distinct b₁ b₂ used sameKey
  · intro b'
    by_cases same : b' = b
    · subst same
      constructor <;>
        simp_all [System.onDisk, Buf.key]
    · apply (coherent.sound b').congr
      · simp [same]
      · simp [same]
      · simp [same]
      · rfl
      · intro _
        simp [System.onDisk, same]
      · intro _
        exact silent _
  · intro dev' blockno' inUse' missing'
    rw [silent]
    change s.disk (drive dev') blockno' = _
    by_cases old : (s.cache.buf b).key = (dev', blockno')
    · -- the block that loses its buffer
      have oldUsed : (s.cache.buf b).dev ≠ unused := by
        intro isUnused
        have sameDev : (s.cache.buf b).dev = dev' := congrArg Prod.fst old
        rw [← sameDev, isUnused] at inUse'
        exact devices.not_unused inUse'
      have valid := sound.filled oldUsed noRequest
      have onDisk := sound.clean valid clean saved
      have isLeft := sound.free valid owner
      have sameBlock : s.onDisk b = s.disk (drive dev') blockno' := by
        rw [System.onDisk, show (s.cache.buf b).dev = dev' from congrArg Prod.fst old,
          show (s.cache.buf b).blockno = blockno' from congrArg Prod.snd old]
      rw [← sameBlock, ← onDisk, isLeft, old]
    · apply coherent.uncached dev' blockno' inUse'
      intro b' key
      by_cases same : b' = b
      · rw [same] at key
        exact old key
      · apply missing' b'
        simpa [same] using key

theorem readDone (io : s.io b = true) (read : (s.cache.buf b).dirty = false)
    (silent : ∀ block, left disk block events' = left disk block events) :
    Coherent disk devices events'
      ((s.modify b fun buf => { buf with data := s.onDisk b, valid := true }).setIo b false) := by
  have sound := coherent.sound b
  have used := sound.used_of_io io
  apply coherent.touch b
  · exact coherent.listed
  · simp [Buf.key]
  · intro b' different
    simp [different]
  · intro dev blockno _ _
    exact ⟨rfl, silent _⟩
  · have owned : s.owner b ≠ none := by
      intro owner
      rw [(sound.idle owner).1] at io
      contradiction
    have busy := sound.owned
    constructor <;>
      simp_all [System.onDisk, Buf.key]

theorem writeDone (io : s.io b = true)
    (silent : ∀ block, left disk block events' = left disk block events) :
    Coherent disk devices events'
      (((s.store b).modify b fun buf => { buf with valid := true, dirty := false }).setIo b
        false) := by
  have sound := coherent.sound b
  have used := sound.used_of_io io
  apply coherent.touch b
  · exact coherent.listed
  · simp [Buf.key]
  · intro b' different
    simp [different]
  · intro dev blockno inUse other
    refine ⟨?_, silent _⟩
    change update s.disk (drive (s.cache.buf b).dev) _ (drive dev) blockno = _
    by_cases sameDrive : drive dev = drive (s.cache.buf b).dev
    · have sameDev := devices.drive_injective dev _ inUse
        ((coherent.inUse b).resolve_left used) sameDrive
      have sameBlockno : blockno ≠ (s.cache.buf b).blockno := by
        rintro rfl
        exact other (by rw [sameDev]; rfl)
      rw [sameDrive, update_self, update_of_ne sameBlockno]
    · rw [update_of_ne sameDrive]
  · have owned : s.owner b ≠ none := by
      intro owner
      rw [(sound.idle owner).1] at io
      contradiction
    have busy := sound.owned
    constructor <;>
      simp_all [System.onDisk, Buf.key]

/-- The owner writes to the data or the flags of a buffer that it has read. -/
theorem write {f : Buf → Buf} {unsaved : Bool} (owner : s.owner b = some p) (ready : s.io b = false)
    (key : (f (s.cache.buf b)).key = (s.cache.buf b).key)
    (busy : (f (s.cache.buf b)).busy = (s.cache.buf b).busy)
    (valid : (f (s.cache.buf b)).valid = (s.cache.buf b).valid)
    (marked : unsaved = true ∨ (f (s.cache.buf b)).dirty = true)
    (request : io = true → unsaved = false ∧ (f (s.cache.buf b)).dirty = true)
    (silent : ∀ block, left disk block events' = left disk block events) :
    Coherent disk devices events'
      (((s.modify b f).setUnsaved b unsaved).setIo b io) := by
  have sound := coherent.sound b
  have used := sound.used_of_owner owner
  have filled := sound.filled used ready
  have dev : (f (s.cache.buf b)).dev = (s.cache.buf b).dev := congrArg Prod.fst key
  apply coherent.touch b
  · exact coherent.listed
  · simp [key]
  · intro b' different
    simp [different]
  · intro dev blockno _ _
    exact ⟨rfl, silent _⟩
  · have owned := sound.owned
    rcases marked with marked | marked <;> constructor <;>
      simp_all [System.onDisk]

theorem brelse (owner : s.owner b = some p) (ready : s.io b = false) (saved : s.unsaved b = false) :
    Coherent disk devices
      (.released p (s.cache.buf b).dev (s.cache.buf b).blockno (s.cache.buf b).data :: events)
      ({ s with cache := s.cache.brelse b }.setOwner b none) := by
  have sound := coherent.sound b
  have used := sound.used_of_owner owner
  have filled := sound.filled used ready
  apply coherent.touch b
  · exact coherent.listed.brelse
  · simp [Cache.brelse, Buf.key]
  · intro b' different
    simp [Cache.brelse, different]
  · intro dev blockno _ other
    refine ⟨rfl, ?_⟩
    rw [left, if_neg]
    exact fun same => other same.symm
  · have clean := sound.clean filled
    constructor <;>
      simp_all [Cache.brelse, System.onDisk, Buf.key, left]

end Coherent

/-- Only a release changes what the last holders have left. -/
theorem left_cons (silent : ∀ p dev blockno data, event ≠ .released p dev blockno data)
    (block : UInt32 × UInt32) : left disk block (event :: events) = left disk block events := by
  cases event with
  | internal | read => rfl
  | released p dev blockno data => exact absurd rfl (silent p dev blockno data)

theorem Coherent.step (coherent : Coherent disk devices events s) (edge : Step devices s event s') :
    Coherent disk devices (event :: events) s' := by
  cases edge with
  | hit inUse got valid =>
    rcases coherent.listed.of_bget got with ⟨_, free, rfl⟩ | ⟨_, _, _, rfl⟩
    · apply coherent.hit free
      · simpa using valid
      · exact left_cons (by simp)
    · simp at valid
  | @miss p dev blockno b c inUse got invalid =>
    rcases coherent.listed.of_bget got with ⟨key, free, rfl⟩ | ⟨missing, free, clean, rfl⟩
    · -- a free buffer of a block has been read
      have sound := coherent.sound b
      have used : (s.cache.buf b).dev ≠ unused := by
        rw [show (s.cache.buf b).dev = dev from congrArg Prod.fst key]
        rintro rfl
        exact devices.not_unused inUse
      have valid := sound.filled used (sound.idle (sound.owner_eq_none free)).1
      simp [valid] at invalid
    · exact coherent.recycle inUse missing free clean (left_cons (by simp))
  | wait got =>
    have silent : ∀ block, left disk block (.internal :: events) = left disk block events :=
      left_cons (by simp)
    exact ⟨coherent.listed, coherent.inUse, coherent.distinct,
      fun b => (coherent.sound b).congr rfl rfl rfl rfl (fun _ => rfl) (fun _ => silent _),
      coherent.uncached⟩
  | readDone io owner read => exact coherent.readDone io read (left_cons (by simp))
  | writeDone io write => exact coherent.writeDone io (left_cons (by simp))
  | @change p b data owner ready =>
    have written : Coherent disk devices (.internal :: events)
        (((s.modify b fun buf => { buf with data }).setUnsaved b true).setIo b false) :=
      coherent.write owner ready rfl rfl rfl (.inl rfl) (by simp) (left_cons (by simp))
    rw [System.setIo_eq_self] at written
    · exact written
    · exact ready
  | @logWrite p b owner ready =>
    have written : Coherent disk devices (.internal :: events)
        (((s.modify b fun buf => { buf with dirty := true }).setUnsaved b false).setIo b
          false) :=
      coherent.write owner ready rfl rfl rfl (.inr rfl) (by simp) (left_cons (by simp))
    rw [System.setIo_eq_self] at written
    · exact written
    · exact ready
  | bwrite owner ready busy =>
    exact coherent.write owner ready rfl rfl rfl (.inr rfl) (fun _ => ⟨rfl, rfl⟩)
      (left_cons (by simp))
  | brelse owner ready saved busy => exact coherent.brelse owner ready saved

/-! ## The result -/

theorem Coherent.of_run (run : Trace (Step devices) (System.boot disk) events s) :
    Coherent disk devices events s := by
  apply run.invariant (Coherent disk devices)
  · exact Coherent.boot
  · intro events event s s' coherent edge
    exact coherent.step edge

/-- A buffer changes hands only when its owner releases it or when it is free. -/
theorem Step.owner_cases (listed : s.cache.Listed)
    (owned : ∀ b, (s.cache.buf b).busy = (s.owner b).isSome) (edge : Step devices s event s')
    (b : Index) :
    s'.owner b = s.owner b ∨ s.owner b = none ∨
      ∃ p, s.owner b = some p ∧ s'.owner b = none ∧
        event = .released p (s.cache.buf b).dev (s.cache.buf b).blockno (s.cache.buf b).data := by
  have taken : ∀ {dev blockno : UInt32} {b' : Index} {c : Cache},
      s.cache.bget dev blockno = .got b' c → s.owner b' = none := by
    intro dev blockno b' c got
    have free : (s.cache.buf b').busy = false := by
      rcases listed.of_bget got with ⟨_, free, _⟩ | ⟨_, free, _⟩ <;> exact free
    simpa [free] using (owned b').symm
  cases edge with
  | @hit p dev blockno b' c inUse got valid | @miss p dev blockno b' c inUse got valid =>
    by_cases same : b = b'
    · exact .inr (.inl (same ▸ taken got))
    · exact .inl (by simp [same])
  | @brelse p b' owner ready saved busy =>
    by_cases same : b = b'
    · subst same
      exact .inr (.inr ⟨p, owner, by simp, rfl⟩)
    · exact .inl (by simp [same])
  | wait | readDone | writeDone | change | logWrite | bwrite => exact .inl rfl

/-- A dirty buffer keeps its block. -/
theorem Step.key_eq (listed : s.cache.Listed) (edge : Step devices s event s')
    (dirty : (s.cache.buf b).dirty = true) : (s'.cache.buf b).key = (s.cache.buf b).key := by
  have taken : ∀ {dev blockno : UInt32} {b' : Index} {c : Cache},
      s.cache.bget dev blockno = .got b' c → (c.buf b).key = (s.cache.buf b).key := by
    intro dev blockno b' c got
    rcases listed.of_bget got with ⟨_, _, rfl⟩ | ⟨_, _, clean, rfl⟩
    · by_cases same : b = b'
      · subst same
        simp [Buf.key]
      · simp [same]
    · have different : b ≠ b' := by
        rintro rfl
        rw [dirty] at clean
        contradiction
      simp [different]
  have kept : ∀ (f : Buf → Buf) (b' : Index), (∀ buf, (f buf).key = buf.key) →
      ((s.cache.setBuf b' (f (s.cache.buf b'))).buf b).key = (s.cache.buf b).key := by
    intro f b' same
    by_cases this : b = b'
    · subst this
      simp [same]
    · simp [this]
  cases edge with
  | hit inUse got valid => exact taken got
  | miss inUse got invalid => exact taken got
  | wait got => rfl
  | @readDone p b' io owner read =>
    exact kept (fun buf => { buf with data := s.onDisk b', valid := true }) b' fun _ => rfl
  | writeDone io write =>
    exact kept (fun buf => { buf with valid := true, dirty := false }) _ fun _ => rfl
  | change data owner ready => exact kept (fun buf => { buf with data }) _ fun _ => rfl
  | logWrite | bwrite => exact kept (fun buf => { buf with dirty := true }) _ fun _ => rfl
  | brelse owner ready saved busy =>
    exact kept (fun buf => { buf with busy := false }) _ fun _ => rfl

/-- `bread` returns a buffer of the block with the data that the last holder left. -/
theorem Coherent.read {data : Block} (coherent : Coherent disk devices events s)
    (edge : Step devices s (.read p dev blockno data) s') :
    data = left disk (dev, blockno) events ∧ ∃ b, s'.owner b = some p ∧
      (s'.cache.buf b).key = (dev, blockno) ∧ (s'.cache.buf b).data = data := by
  cases edge with
  | @hit _ _ _ b c inUse got valid =>
    rcases coherent.listed.of_bget got with ⟨key, free, rfl⟩ | ⟨_, _, _, rfl⟩
    · have sound := coherent.sound b
      have isValid : (s.cache.buf b).valid = true := by simpa using valid
      constructor
      · rw [← key, ← sound.free isValid (sound.owner_eq_none free)]
        simp
      · refine ⟨b, by simp, ?_, rfl⟩
        simpa [Buf.key] using key
    · simp at valid
  | @readDone _ b io owner read =>
    have sound := coherent.sound b
    constructor
    · exact sound.unread ((sound.request io).2.trans read) (sound.used_of_io io)
    · refine ⟨b, owner, ?_, ?_⟩ <;> simp [Buf.key]

/-- The block of a free buffer can be read at once. -/
theorem Coherent.exists_hit (coherent : Coherent disk devices events s) (p : Pid)
    (inUse : devices.inUse (s.cache.buf b).dev) (free : s.owner b = none) :
    ∃ s', Step devices s
      (.read p (s.cache.buf b).dev (s.cache.buf b).blockno (s.cache.buf b).data) s' := by
  have sound := coherent.sound b
  have used : (s.cache.buf b).dev ≠ unused := by
    intro isUnused
    rw [isUnused] at inUse
    exact devices.not_unused inUse
  have valid := sound.filled used (sound.idle free).1
  have notBusy : (s.cache.buf b).busy = false := by
    rw [sound.owned, free]
    rfl
  have got := coherent.listed.bget_hit
    (fun b' same => (coherent.distinct b b' used same.symm).symm) rfl notBusy
  have edge := Step.hit (p := p) inUse got (by simpa using valid)
  rw [show ((s.cache.setBuf b { s.cache.buf b with busy := true }).buf b).data =
    (s.cache.buf b).data by simp] at edge
  exact ⟨_, edge⟩

/-- Coherence of the buffer cache.  In every state of every run the list is a ring of
all the buffers, each once, and no block has two buffers.  In every step a buffer that
a process holds stays with it until that process releases it, a dirty buffer keeps its
block, and `bread` returns the data that the last holder of the block has left, or the
data on the drive if there was none. -/
theorem cache_coherent (devices : Devices) (disk : UInt32 → UInt32 → Block)
    (run : Trace (Step devices) (System.boot disk) events s) :
    (∃ order, Ring s.cache.links order ∧ order.Nodup ∧ ∀ b, b ∈ order) ∧
    (∀ b b', (s.cache.buf b).dev ≠ unused →
      (s.cache.buf b).key = (s.cache.buf b').key → b = b') ∧
    ∀ event s', Step devices s event s' →
      (∀ b p, s.owner b = some p → s'.owner b = some p ∨ s'.owner b = none ∧
        event = .released p (s.cache.buf b).dev (s.cache.buf b).blockno (s.cache.buf b).data) ∧
      (∀ b, (s.cache.buf b).dirty = true → (s'.cache.buf b).key = (s.cache.buf b).key) ∧
      (∀ p dev blockno data, event = .read p dev blockno data →
        data = left disk (dev, blockno) events ∧ ∃ b, s'.owner b = some p ∧
          (s'.cache.buf b).key = (dev, blockno) ∧ (s'.cache.buf b).data = data) := by
  have coherent := Coherent.of_run run
  refine ⟨?_, coherent.distinct, ?_⟩
  · obtain ⟨order, ring, all⟩ := coherent.listed
    exact ⟨order, ring, ring.nodup, all⟩
  · intro event s' edge
    refine ⟨?_, fun b dirty => edge.key_eq coherent.listed dirty, ?_⟩
    · intro b p owner
      have owned b := (coherent.sound b).owned
      rcases edge.owner_cases coherent.listed owned b with same | free | ⟨q, isOwner, released⟩
      · exact .inl (same.trans owner)
      · rw [owner] at free
        contradiction
      · rw [owner] at isOwner
        cases isOwner
        exact .inr released
    · rintro p dev blockno data rfl
      exact coherent.read edge

/-- The device that the kernel reads. -/
def rootDevice : Devices where
  inUse dev := dev = 1
  not_unused := by decide
  drive_injective := by
    rintro dev dev' rfl rfl _
    rfl

/-- A first process writes a block and releases it, and a second one reads it. -/
theorem exists_reread (block : Block) :
    ∃ events s s', Trace (Step rootDevice) (System.boot fun _ _ _ => 0) events s ∧
      Step rootDevice s (.read true 1 7 block) s' ∧
      left (fun _ _ _ => 0) (1, 7) events = block := by
  have missing : ∀ b', (Cache.binit.buf b').key ≠ (1, 7) := by
    intro b' key
    rw [Cache.buf_binit] at key
    have isUnused : unused = 1 := congrArg Prod.fst key
    exact absurd isUnused (by decide)
  obtain ⟨b, got⟩ := Cache.listed_binit.bget_miss (b := ⟨0, by decide⟩) missing
    (by rw [Cache.buf_binit]; rfl) (by rw [Cache.buf_binit]; rfl)
  have start : Trace (Step rootDevice) (System.boot fun _ _ _ => 0) []
    (System.boot fun _ _ _ => 0 : System Bool) := Trace.refl
  have asked := start.step (Step.miss (p := false) rfl got (by simp))
  have read := asked.step (Step.readDone (p := false) (b := b) (by simp)
    (by simp)
    (by simp))
  have changed := read.step (Step.change (p := false) (b := b) block
    (by simp) (by simp))
  have logged := changed.step (Step.logWrite (p := false) (b := b)
    (by simp)
    (by simp))
  have released := logged.step (Step.brelse (p := false) (b := b)
    (by simp)
    (by simp)
    (by simp)
    (by simp))
  have coherent := Coherent.of_run released
  obtain ⟨s', edge⟩ := coherent.exists_hit true (b := b)
    (by simp [Cache.brelse, rootDevice])
    (by simp)
  refine ⟨_, _, s', released, ?_, ?_⟩
  · simpa [Cache.brelse] using edge
  · simp [left]

theorem reread_block :
    ∃ events s s', Trace (Step rootDevice) (System.boot fun _ _ _ => 0) events s ∧
      Step rootDevice s (.read true 1 7 fun _ => 1) s' ∧
      ∃ b, s'.owner b = some true ∧ (s'.cache.buf b).data = fun _ => 1 := by
  obtain ⟨events, s, s', run, edge, -⟩ := exists_reread fun _ => 1
  refine ⟨events, s, s', run, edge, ?_⟩
  have steps := (cache_coherent rootDevice _ run).2.2
  obtain ⟨-, -, reads⟩ := steps _ s' edge
  obtain ⟨-, b, owner, -, data⟩ := reads _ _ _ _ rfl
  exact ⟨b, owner, data⟩

end Xv6.Buffer
