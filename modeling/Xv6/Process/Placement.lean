import Xv6.Process.Queue

/-!
# Every slot in its place

`Placed t l out` is the part of the scheduler's invariant that only looks at
the table: the free list holds exactly the unused slots, ready list `i` exactly
the runnable slots of priority `i`, and every priority is a list index.  The
parameter `out` singles out the slots that have been marked unused but whose
`AddFreeList` call is still to come; they are on no list.

Each operation of the table is given one lemma: it has a result, the result is
placed again, and the fields of every slot are those the source writes.
-/

namespace Xv6.Process

open Function

/-- A process after a wakeup on `chan`: runnable if it slept there. -/
def Proc.woken (chan : Option Chan) (q : Proc) : Proc :=
  if q.state = .sleeping ∧ q.chan = chan then { q with state := .runnable } else q

/-- A process after the exit of `self`: its child is passed to `initproc`. -/
def Proc.adopted (self initproc : Slot) (q : Proc) : Proc :=
  if q.parent = some self then { q with parent := some initproc } else q

namespace Proc

variable (chan : Option Chan)
include chan

@[simp]
theorem woken_idem (q : Proc) : (q.woken chan).woken chan = q.woken chan := by
  unfold woken
  by_cases asleep : q.state = .sleeping ∧ q.chan = chan <;> simp [asleep]

@[simp]
theorem woken_parent (q : Proc) : (q.woken chan).parent = q.parent := by
  unfold woken
  split <;> rfl

@[simp]
theorem woken_state_zombie (q : Proc) : (q.woken chan).state = .zombie ↔ q.state = .zombie := by
  unfold woken
  split
  · rename_i asleep
    simp [asleep.1]
  · rfl

theorem woken_adopted (self initproc : Slot) (q : Proc) :
    (q.adopted self initproc).woken chan = (q.woken chan).adopted self initproc := by
  unfold woken adopted
  by_cases asleep : q.state = .sleeping ∧ q.chan = chan <;>
    by_cases child : q.parent = some self <;> simp [asleep, child]

end Proc

namespace PTable

variable {t t' : PTable} {l l' : Lists} {out out' : Slot → Prop} {p : Slot} {i : Fin 3}

/-- Each slot is on the list that its state and priority call for, and on no
other. -/
structure Placed (t : PTable) (l : Lists) (out : Slot → Prop) : Prop where
  rep : t.Rep l
  mem_free : ∀ p, p ∈ l.free ↔ (t.proc p).state = .unused ∧ ¬ out p
  mem_ready : ∀ p i,
    p ∈ l.ready i ↔ (t.proc p).state = .runnable ∧ readyIndex (t.proc p).priority = some i
  valid : ∀ p, ∃ i, readyIndex (t.proc p).priority = some i

/-- The ready lists hold the runnable slots, each on the list of its priority. -/
structure Scheduled (t : PTable) (l : Lists) : Prop where
  rep : t.Rep l
  mem_ready : ∀ p i,
    p ∈ l.ready i ↔ (t.proc p).state = .runnable ∧ readyIndex (t.proc p).priority = some i
  indexed : ∀ p, (t.proc p).state = .runnable → ∃ i, readyIndex (t.proc p).priority = some i

variable {self : Slot}

section

variable (placed : t.Placed l out)
include placed

theorem Placed.scheduled : t.Scheduled l :=
  ⟨placed.rep, placed.mem_ready, fun p _ => placed.valid p⟩

/-- A slot that is neither free nor runnable is on no list. -/
theorem Placed.off (notFree : (t.proc p).state = .unused → out p)
    (notRunnable : (t.proc p).state ≠ .runnable) : l.Off p := by
  constructor
  · intro member
    obtain ⟨unused, inside⟩ := (placed.mem_free p).mp member
    exact inside (notFree unused)
  · intro i member
    exact notRunnable ((placed.mem_ready p i).mp member).1

/-- A change of one slot, of its list membership and of its flag `out` keeps
the table placed when that slot is placed afterwards. -/
theorem Placed.change (p : Slot) (rep : t'.Rep l') (proc : ∀ q ≠ p, t'.proc q = t.proc q)
    (outside : ∀ q ≠ p, (out' q ↔ out q)) (free : ∀ q ≠ p, (q ∈ l'.free ↔ q ∈ l.free))
    (ready : ∀ q ≠ p, ∀ i, (q ∈ l'.ready i ↔ q ∈ l.ready i))
    (freeHere : p ∈ l'.free ↔ (t'.proc p).state = .unused ∧ ¬ out' p)
    (readyHere : ∀ i, p ∈ l'.ready i ↔
      (t'.proc p).state = .runnable ∧ readyIndex (t'.proc p).priority = some i)
    (validHere : ∃ i, readyIndex (t'.proc p).priority = some i) : t'.Placed l' out' where
  rep := rep
  mem_free q := by
    by_cases same : q = p
    · subst same
      exact freeHere
    · rw [free q same, proc q same, outside q same]
      exact placed.mem_free q
  mem_ready q i := by
    by_cases same : q = p
    · subst same
      exact readyHere i
    · rw [ready q same, proc q same]
      exact placed.mem_ready q i
  valid q := by
    by_cases same : q = p
    · subst same
      exact validHere
    · rw [proc q same]
      exact placed.valid q

/-- Writing fields other than state and priority moves no slot. -/
theorem Placed.modify (p : Slot) (f : Proc → Proc) (state : (f (t.proc p)).state = (t.proc p).state)
    (priority : (f (t.proc p)).priority = (t.proc p).priority) : (t.modify p f).Placed l out := by
  refine placed.change p (placed.rep.modify p f)
    (fun q different => modify_proc_of_ne t f different)
    (fun _ _ => .rfl) (fun _ _ => .rfl) (fun _ _ _ => .rfl) ?_ ?_ ?_
  · rw [modify_proc_self, state]
    exact placed.mem_free p
  · intro i
    rw [modify_proc_self, state, priority]
    exact placed.mem_ready p i
  · rw [modify_proc_self, priority]
    exact placed.valid p

/-- A slot that is on no list may change its state and priority, as long as it
does not become free or runnable. -/
theorem Placed.modify_off (p : Slot) (f : Proc → Proc) (off : l.Off p)
    (notFree : (f (t.proc p)).state = .unused → out' p)
    (notRunnable : (f (t.proc p)).state ≠ .runnable)
    (valid : ∃ i, readyIndex (f (t.proc p)).priority = some i)
    (outside : ∀ q ≠ p, (out' q ↔ out q)) : (t.modify p f).Placed l out' := by
  refine placed.change p (placed.rep.modify p f)
    (fun q different => modify_proc_of_ne t f different)
    outside (fun _ _ => .rfl) (fun _ _ _ => .rfl) ?_ ?_ ?_
  · rw [modify_proc_self]
    exact ⟨fun member => absurd member off.1,
      fun ⟨unused, inside⟩ => absurd (notFree unused) inside⟩
  · intro i
    rw [modify_proc_self]
    exact ⟨fun member => absurd member (off.2 i), fun ⟨runnable, _⟩ => absurd runnable notRunnable⟩
  · rw [modify_proc_self]
    exact valid

/-- `AddFreeList` puts a slot that was out back in place. -/
theorem Placed.addFreeList (unused : (t.proc p).state = .unused) (outside : out p)
    (within : ¬ out' p) (others : ∀ q ≠ p, (out' q ↔ out q)) :
    (t.addFreeList (some p)).2.Placed { l with free := p :: l.free } out' := by
  have off : l.Off p := placed.off (fun _ => outside) (by simp [unused])
  have sameProc : (t.addFreeList (some p)).2.proc = t.proc := by rw [addFreeList_some]
  refine placed.change p (placed.rep.addFreeList off) (fun q _ => by rw [sameProc]) others
    ?_ (fun _ _ _ => .rfl) ?_ ?_ ?_
  · intro q different
    simp [different]
  · simp [sameProc, unused, within]
  · intro i
    rw [sameProc]
    exact placed.mem_ready p i
  · rw [sameProc]
    exact placed.valid p

/-- A slot popped from the free list is out of every list until it is
published. -/
theorem Placed.allocate (removed : t.removeFreeList = (some p, t')) (f : Proc → Proc)
    (embryo : ∀ q, (f q).state = .embryo) (valid : ∀ q, (f q).priority = q.priority) :
    (t.proc p).state = .unused ∧ ¬ out p ∧ t'.proc = t.proc ∧
      t'.timeToReset = t.timeToReset ∧
      ∃ rest, (t'.modify p f).Placed { l with free := rest } out := by
  obtain ⟨rest, first⟩ : ∃ rest, l.free = p :: rest := by
    cases free : l.free with
    | nil =>
      have empty := removeFreeList_nil placed.rep free
      rw [removed] at empty
      simp at empty
    | cons head rest =>
      obtain ⟨_, popped, -⟩ := removeFreeList_cons placed.rep free
      rw [removed] at popped
      obtain ⟨same, -⟩ : p = head ∧ _ := by simpa using popped
      exact ⟨rest, by rw [same]⟩
  obtain ⟨t₁, popped, rep', proc', time'⟩ := removeFreeList_cons placed.rep first
  obtain rfl : t' = t₁ := by simpa using removed.symm.trans popped
  have member : p ∈ l.free := by simp [first]
  obtain ⟨unused, inside⟩ := (placed.mem_free p).mp member
  have distinct := placed.rep.free.nodup
  rw [first, List.nodup_cons] at distinct
  refine ⟨unused, inside, proc', time', rest, ?_⟩
  refine placed.change p (rep'.modify p f) ?_ (fun _ _ => .rfl) ?_ (fun _ _ _ => .rfl)
    ?_ ?_ ?_
  · intro q different
    rw [modify_proc_of_ne _ _ different, proc']
  · intro q different
    simp [first, different]
  · simp [distinct.1, embryo]
  · intro i
    have notReady := placed.rep.free_ready p member i
    simp [notReady, embryo]
  · rw [modify_proc_self, valid, proc']
    exact placed.valid p

/-- Enqueueing a slot that is neither free nor runnable. -/
theorem Placed.makeRunnable (notFree : (t.proc p).state = .unused → out p)
    (notRunnable : (t.proc p).state ≠ .runnable) :
    ∃ t' i, t.makeRunnable p = some t' ∧ t'.Placed (l.enqueue i p) out ∧
      t'.proc = (t.setState p .runnable).proc ∧ t'.timeToReset = t.timeToReset := by
  obtain ⟨i, index⟩ := placed.valid p
  have off : l.Off p := placed.off notFree notRunnable
  have rep : (t.setState p .runnable).Rep l := placed.rep.modify p _
  obtain ⟨t', added, rep', proc', time'⟩ := addReadyList_eq rep off
    (by simp [setState]) (i := i) (by simpa [setState] using index)
  refine ⟨t', i, by simp [PTable.makeRunnable, added], ?_, proc', time'⟩
  have here : t'.proc p = { t.proc p with state := .runnable } := by simp [proc', setState]
  refine placed.change p rep' ?_ (fun _ _ => .rfl) (fun _ _ => .rfl) ?_ ?_ ?_ ?_
  · intro q different
    rw [proc']
    exact modify_proc_of_ne t _ different
  · intro q different j
    by_cases same : j = i
    · subst same
      simp [Lists.enqueue, different]
    · simp [Lists.enqueue, same]
  · simp only [here, reduceCtorEq, false_and, iff_false]
    exact off.1
  · intro j
    by_cases same : j = i
    · subst same
      simpa [Lists.enqueue, here] using index
    · have elsewhere : p ∉ l.ready j := off.2 j
      simp only [here, Lists.enqueue, update_of_ne same, true_and]
      refine ⟨fun member => absurd member elsewhere, fun other => ?_⟩
      exact absurd (Option.some.inj (other.symm.trans index)) same
  · exact ⟨i, by simpa [here] using index⟩

/-! ## Waking sleepers -/

theorem Placed.wakeSlot (chan : Option Chan) (p : Slot) :
    ∃ t' l', wakeSlot chan t p = some t' ∧ t'.Placed l' out ∧ l.Grows l' ∧
      t'.proc = update t.proc p ((t.proc p).woken chan) ∧
      t'.timeToReset = t.timeToReset := by
  by_cases asleep : (t.proc p).state = .sleeping ∧ (t.proc p).chan = chan
  · obtain ⟨t', i, woke, placed', proc', time'⟩ :=
      placed.makeRunnable (p := p) (by simp [asleep.1]) (by simp [asleep.1])
    refine ⟨t', _, by simp [PTable.wakeSlot, asleep, woke], placed', l.grows_enqueue i p, ?_, time'⟩
    simp [proc', setState, PTable.modify, Proc.woken, asleep]
  · refine ⟨t, l, by simp [PTable.wakeSlot, asleep], placed, Lists.Grows.refl l, ?_, rfl⟩
    simp [Proc.woken, asleep]

/-- The loop of `wakeup1` over any part of the table. -/
theorem Placed.wakeSlots (chan : Option Chan) (slots : List Slot) :
    ∃ t' l', slots.foldlM (PTable.wakeSlot chan) t = some t' ∧ t'.Placed l' out ∧ l.Grows l' ∧
      (∀ q, t'.proc q = if q ∈ slots then (t.proc q).woken chan else t.proc q) ∧
      t'.timeToReset = t.timeToReset := by
  induction slots generalizing t l with
  | nil => exact ⟨t, l, rfl, placed, Lists.Grows.refl l, by simp, rfl⟩
  | cons p rest ih =>
    obtain ⟨t₁, l₁, first, placed₁, grows₁, proc₁, time₁⟩ := placed.wakeSlot chan p
    obtain ⟨t', l', later, placed', grows', proc', time'⟩ := ih placed₁
    refine ⟨t', l', by simp [first, later], placed', grows₁.trans grows', ?_,
      time'.trans time₁⟩
    intro q
    rw [proc' q, proc₁]
    by_cases same : q = p
    · subst same
      by_cases again : q ∈ rest <;> simp [again]
    · simp [same]

/-- `wakeup1` makes exactly the processes that sleep on `chan` runnable. -/
theorem Placed.wakeup1 (chan : Option Chan) :
    ∃ t' l', t.wakeup1 chan = some t' ∧ t'.Placed l' out ∧ l.Grows l' ∧
      t'.proc = (fun q => (t.proc q).woken chan) ∧ t'.timeToReset = t.timeToReset := by
  obtain ⟨t', l', woke, placed', grows, proc', time'⟩ :=
    placed.wakeSlots chan (List.finRange nproc)
  exact ⟨t', l', woke, placed', grows, funext fun q => by simp [proc' q], time'⟩

variable {pid : Int}

/-- `kill` marks the first process with the pid and wakes it if it sleeps. -/
theorem Placed.kill_some (found : t.slotOfPid pid = some p) :
    ∃ t' l', t.kill pid = some (0, t') ∧ t'.Placed l' out ∧ l.Grows l' ∧
      t'.proc = update t.proc p
        { t.proc p with
          killed := true
          state := if (t.proc p).state = .sleeping then .runnable else (t.proc p).state } ∧
      t'.timeToReset = t.timeToReset := by
  have marked : (t.modify p fun q => { q with killed := true }).Placed l out :=
    placed.modify p _ rfl rfl
  by_cases asleep : (t.proc p).state = .sleeping
  · obtain ⟨t', i, woke, placed', proc', time'⟩ :=
      marked.makeRunnable (p := p) (by simp [asleep]) (by simp [asleep])
    refine ⟨t', _, by simp [PTable.kill, found, asleep, woke], placed', l.grows_enqueue i p, ?_,
      time'⟩
    simp [proc', setState, PTable.modify, asleep]
  · refine ⟨_, l, by simp [PTable.kill, found, asleep], marked, Lists.Grows.refl l, ?_, rfl⟩
    simp [PTable.modify, asleep]

/-! ## Exit -/

/-- One turn of the loop that passes children to `initproc`. -/
theorem Placed.reparentSlot (self initproc p : Slot) :
    ∃ t' l', reparentSlot self initproc t p = some t' ∧ t'.Placed l' out ∧ l.Grows l' ∧
      t'.proc = (fun q =>
        if (t.proc p).parent = some self ∧ (t.proc p).state = .zombie then
          (update t.proc p ((t.proc p).adopted self initproc) q).woken
            (some (.proc initproc))
        else update t.proc p ((t.proc p).adopted self initproc) q) ∧
      t'.timeToReset = t.timeToReset := by
  by_cases child : (t.proc p).parent = some self
  · have moved : (t.modify p fun q => { q with parent := some initproc }).Placed l out :=
      placed.modify p _ rfl rfl
    have adopted : (t.modify p fun q => { q with parent := some initproc }).proc =
        update t.proc p ((t.proc p).adopted self initproc) := by
      simp [PTable.modify, Proc.adopted, child]
    by_cases zombie : (t.proc p).state = .zombie
    · obtain ⟨t', l', woke, placed', grows, proc', time'⟩ :=
        moved.wakeup1 (some (.proc initproc))
      refine ⟨t', l', by simp [PTable.reparentSlot, child, zombie, woke], placed', grows, ?_, time'⟩
      rw [proc', adopted]
      simp [child, zombie]
    · refine ⟨_, l, by simp [PTable.reparentSlot, child, zombie], moved,
        Lists.Grows.refl l, ?_, rfl⟩
      rw [adopted]
      simp [zombie]
  · refine ⟨t, l, by simp [PTable.reparentSlot, child], placed, Lists.Grows.refl l, ?_, rfl⟩
    simp [Proc.adopted, child]

/-- The fields of a process after the reparenting loop has passed `slots`. -/
def reparented (t : PTable) (self initproc : Slot) (slots : List Slot) (q : Slot) : Proc :=
  let moved := if q ∈ slots then (t.proc q).adopted self initproc else t.proc q
  if ∃ r ∈ slots, (t.proc r).parent = some self ∧ (t.proc r).state = .zombie then
    moved.woken (some (.proc initproc))
  else moved

theorem Placed.reparentSlots (self initproc : Slot) {slots : List Slot} (distinct : slots.Nodup) :
    ∃ t' l', slots.foldlM (PTable.reparentSlot self initproc) t = some t' ∧ t'.Placed l' out ∧
      l.Grows l' ∧ t'.proc = t.reparented self initproc slots ∧
      t'.timeToReset = t.timeToReset := by
  induction slots generalizing t l with
  | nil => exact ⟨t, l, rfl, placed, Lists.Grows.refl l, by simp [reparented, funext_iff], rfl⟩
  | cons p rest ih =>
    obtain ⟨notLater, distinct⟩ := List.nodup_cons.mp distinct
    obtain ⟨t₁, l₁, first, placed₁, grows₁, proc₁, time₁⟩ :=
      placed.reparentSlot self initproc p
    obtain ⟨t', l', later, placed', grows', proc', time'⟩ := ih placed₁ distinct
    refine ⟨t', l', by simp [first, later], placed', grows₁.trans grows', ?_, time'.trans time₁⟩
    -- the later slots are still the zombie children they were
    have same : ∀ r ∈ rest,
        ((t₁.proc r).parent = some self ∧ (t₁.proc r).state = .zombie ↔
          (t.proc r).parent = some self ∧ (t.proc r).state = .zombie) := by
      intro r member
      have different : r ≠ p := by
        rintro rfl
        exact notLater member
      rw [proc₁]
      by_cases zombie : (t.proc p).parent = some self ∧ (t.proc p).state = .zombie <;>
        simp [zombie, different]
    have exists_iff :
        (∃ r ∈ rest, (t₁.proc r).parent = some self ∧ (t₁.proc r).state = .zombie) ↔
          ∃ r ∈ rest, (t.proc r).parent = some self ∧ (t.proc r).state = .zombie :=
      exists_congr fun r => and_congr_right fun member => same r member
    rw [proc']
    funext q
    simp only [reparented, exists_iff, List.mem_cons, exists_eq_or_imp]
    rw [proc₁]
    by_cases equal : q = p
    · subst equal
      by_cases zombie : (t.proc q).parent = some self ∧ (t.proc q).state = .zombie <;>
        by_cases more : ∃ r ∈ rest, (t.proc r).parent = some self ∧ (t.proc r).state = .zombie <;>
        simp [notLater, zombie, more]
    · by_cases zombie : (t.proc p).parent = some self ∧ (t.proc p).state = .zombie <;>
        by_cases more : ∃ r ∈ rest, (t.proc r).parent = some self ∧ (t.proc r).state = .zombie <;>
        by_cases member : q ∈ rest <;>
        simp [equal, zombie, more, member, ← Proc.woken_adopted]

/-- The fields of a process after the locked part of `exit` by `self`. -/
def exited (t : PTable) (self initproc q : Slot) : Proc :=
  let notified := ((t.proc q).woken ((t.proc self).parent.map .proc)).adopted self initproc
  let settled :=
    if ∃ r, (t.proc r).parent = some self ∧ (t.proc r).state = .zombie then
      notified.woken (some (.proc initproc))
    else notified
  if q = self then { settled with state := .zombie } else settled

/-- `exit` notifies the parent, passes the children on and leaves a zombie. -/
theorem Placed.exitLocked (initproc : Slot) (running : (t.proc self).state = .running) :
    ∃ t' l', t.exitLocked self initproc = some t' ∧ t'.Placed l' out ∧ l.Grows l' ∧
      t'.proc = t.exited self initproc ∧ t'.timeToReset = t.timeToReset := by
  obtain ⟨t₁, l₁, woke, placed₁, grows₁, proc₁, time₁⟩ :=
    placed.wakeup1 ((t.proc self).parent.map .proc)
  obtain ⟨t₂, l₂, passed, placed₂, grows₂, proc₂, time₂⟩ :=
    placed₁.reparentSlots self initproc (List.nodup_finRange nproc)
  have settled : t₂.proc = fun q =>
      if ∃ r, (t.proc r).parent = some self ∧ (t.proc r).state = .zombie then
        (((t.proc q).woken ((t.proc self).parent.map .proc)).adopted self initproc).woken
          (some (.proc initproc))
      else ((t.proc q).woken ((t.proc self).parent.map .proc)).adopted self initproc := by
    rw [proc₂]
    funext q
    simp [reparented, proc₁]
  have stillRunning : (t₂.proc self).state = .running := by
    rw [settled]
    by_cases zombie : ∃ r, (t.proc r).parent = some self ∧ (t.proc r).state = .zombie <;>
      by_cases child : (t.proc self).parent = some self <;>
      simp [zombie, child, Proc.woken, Proc.adopted, running]
  have off : l₂.Off self := placed₂.off (by simp [stillRunning]) (by simp [stillRunning])
  refine ⟨t₂.setState self .zombie, l₂, by simp [PTable.exitLocked, woke, passed],
    placed₂.modify_off self _ off (by simp) (by simp) (placed₂.valid self) fun _ _ => .rfl,
    grows₁.trans grows₂, ?_, time₂.trans time₁⟩
  funext q
  rw [setState, modify_proc, settled]
  by_cases same : q = self
  · subst same
    simp [exited]
  · simp [exited, same]

/-! ## Wait -/

/-- A scan that finds a zombie child frees its slot. -/
theorem Placed.waitScan_reaped (within : ∀ q, (t.proc q).state = .zombie → ¬ out q)
    (scan : t.waitScan self = .reaped pid t') :
    ∃ p, (t.proc p).parent = some self ∧ (t.proc p).state = .zombie ∧ (t.proc p).pid = pid ∧
      t'.Placed { l with free := p :: l.free } out ∧
      t'.proc = update t.proc p
        { t.proc p with
          state := .unused, pid := 0, parent := none, killed := false } ∧
      t'.timeToReset = t.timeToReset := by
  unfold PTable.waitScan at scan
  simp only at scan
  split at scan
  · rename_i p found
    have zombie : (t.proc p).state = .zombie := by simpa using List.find?_some found
    have child : (t.proc p).parent = some self := by
      simpa using List.mem_of_find?_eq_some found
    injection scan with pidEq tableEq
    have off : l.Off p := placed.off (by simp [zombie]) (by simp [zombie])
    have marked : (t.setState p .unused).Placed l fun q => q = p ∨ out q :=
      placed.modify_off p _ off (fun _ => .inl rfl) (by simp) (placed.valid p)
        fun q different => by simp [different]
    have added : ((t.setState p .unused).addFreeList (some p)).2.Placed _ out :=
      marked.addFreeList (by simp [setState]) (.inl rfl) (within p zombie)
        fun q different => by simp [different]
    refine ⟨p, child, zombie, pidEq, ?_, ?_, ?_⟩
    · rw [← tableEq]
      exact added.modify p _ rfl rfl
    · rw [← tableEq]
      simp [PTable.modify, addFreeList_some, setState]
    · rw [← tableEq, addFreeList_some]
      rfl
  · split at scan <;> cases scan

end

/-- A process goes to sleep in `wait` only when it has no zombie child. -/
theorem waitScan_sleep (scan : t.waitScan self = .sleep) (p : Slot)
    (child : (t.proc p).parent = some self) : (t.proc p).state ≠ .zombie := by
  unfold waitScan at scan
  simp only at scan
  split at scan
  · cases scan
  · rename_i missing
    rw [List.find?_eq_none] at missing
    simpa using missing p (List.mem_filter.mpr ⟨List.mem_finRange p, by simpa using child⟩)

/-! ## The scheduler -/

/-- The fields of a process after the priority reset, if it is due. -/
def ticked (t : PTable) (q : Slot) : Proc :=
  if t.timeToReset = 0 then { t.proc q with priority := 1 } else t.proc q

@[simp]
theorem ticked_state (t : PTable) (q : Slot) : (t.ticked q).state = (t.proc q).state := by
  unfold ticked
  split <;> rfl

/-- The reset, or the countdown towards it. -/
theorem Scheduled.countdown (scheduled : t.Scheduled l) :
    ∃ t', t.countdown = some t' ∧ t'.Scheduled (l.tick t.timeToReset) ∧ t'.proc = t.ticked ∧
      t'.timeToReset = if t.timeToReset = 0 then maxTimeToReset else t.timeToReset - 1 := by
  by_cases due : t.timeToReset = 0
  · obtain ⟨t₁, done, rep₁, proc₁, -⟩ := resetPriority_eq scheduled.rep
    refine ⟨{ t₁ with timeToReset := maxTimeToReset }, by simp [PTable.countdown, due, done], ?_,
      by funext q; simp [proc₁, ticked, due], by simp [due]⟩
    have lists : l.tick t.timeToReset = l.reset := by simp [Lists.tick, due]
    rw [lists]
    refine ⟨rep₁.congr rfl rfl rfl, ?_, fun p _ => ⟨1, by simp [proc₁]⟩⟩
    intro p i
    have queued : (∃ j, p ∈ l.ready j) ↔ (t.proc p).state = .runnable := by
      refine ⟨fun ⟨j, member⟩ => ((scheduled.mem_ready p j).mp member).1, fun runnable => ?_⟩
      obtain ⟨j, index⟩ := scheduled.indexed p runnable
      exact ⟨j, (scheduled.mem_ready p j).mpr ⟨runnable, index⟩⟩
    have one : readyIndex 1 = some i ↔ i = 1 := by
      rw [show readyIndex 1 = some 1 from rfl, Option.some.injEq, eq_comm]
    rw [Lists.mem_reset_ready_iff, queued, proc₁]
    simp only [one]
    exact and_comm
  · refine ⟨{ t with timeToReset := t.timeToReset - 1 }, by simp [PTable.countdown, due], ?_,
      by funext q; simp [ticked, due], by simp [due]⟩
    have lists : l.tick t.timeToReset = l := by simp [Lists.tick, due]
    rw [lists]
    exact ⟨scheduled.rep.congr rfl rfl rfl, scheduled.mem_ready, scheduled.indexed⟩

/-- An iteration of the scheduler takes the selected slot off its list and
changes no other slot. -/
theorem Scheduled.dispatch (scheduled : t.Scheduled l) (ready : t.anyReady = true) :
    ∃ p i t', (l.tick t.timeToReset).select = some (i, p) ∧ t.dispatch = some (p, t') ∧
      (t.proc p).state = .runnable ∧
      t'.Scheduled ((l.tick t.timeToReset).remove i p) ∧
      t'.proc = update t.ticked p { t.ticked p with state := .running } ∧
      t'.timeToReset = if t.timeToReset = 0 then maxTimeToReset else t.timeToReset - 1 := by
  obtain ⟨t₁, counted, scheduled₁, proc₁, time₁⟩ := scheduled.countdown
  obtain ⟨i, p, selected⟩ : ∃ i p, (l.tick t.timeToReset).select = some (i, p) := by
    cases choice : (l.tick t.timeToReset).select with
    | some pair => exact ⟨pair.1, pair.2, rfl⟩
    | none =>
      -- a reset keeps the queued slots, so some list was and is non-empty
      exfalso
      have empty := Lists.select_eq_none_iff.mp choice
      apply (anyReady_iff scheduled.rep).mp ready
      rw [Lists.select_eq_none_iff]
      intro j
      rw [List.eq_nil_iff_forall_not_mem]
      intro q member
      have runnable : (t₁.proc q).state = .runnable := by
        rw [proc₁, ticked_state]
        exact ((scheduled.mem_ready q j).mp member).1
      obtain ⟨k, index⟩ := scheduled₁.indexed q runnable
      have queued := (scheduled₁.mem_ready q k).mpr ⟨runnable, index⟩
      rw [empty k] at queued
      simp at queued
  obtain ⟨head, -⟩ := Lists.select_eq_some_iff.mp selected
  have member : p ∈ (l.tick t.timeToReset).ready i := List.mem_of_head? head
  obtain ⟨runnable, index⟩ := (scheduled₁.mem_ready p i).mp member
  have rep₂ : (t₁.setState p .running).Rep (l.tick t.timeToReset) := scheduled₁.rep.modify p _
  obtain ⟨t', removed, rep', proc', time'⟩ :=
    removeReadyList_eq (p := p) (i := i) rep₂ (by simpa [setState] using index) member
  have chosen : t₁.getReady = some p := by rw [getReady_eq scheduled₁.rep, selected]; rfl
  have procEq : t'.proc = update t.ticked p { t.ticked p with state := .running } := by
    rw [proc', setState, PTable.modify, proc₁]
  refine ⟨p, i, t', selected, ?_, ?_, ⟨rep', ?_, ?_⟩, procEq, time'.trans time₁⟩
  · simp [PTable.dispatch, counted, chosen, removed]
  · rw [proc₁, ticked_state] at runnable
    exact runnable
  · intro q j
    rw [scheduled₁.rep.mem_remove_ready_iff member, procEq]
    by_cases same : q = p
    · simp [same]
    · rw [update_of_ne same, ← proc₁]
      simpa [same] using scheduled₁.mem_ready q j
  · intro q
    rw [procEq]
    by_cases same : q = p
    · simp [same]
    · rw [update_of_ne same, ← proc₁]
      exact scheduled₁.indexed q

/-- An iteration of the scheduler leaves all other slots in place. -/
theorem Placed.dispatch (placed : t.Placed l out) (ready : t.anyReady = true) :
    ∃ p i t', (l.tick t.timeToReset).select = some (i, p) ∧ t.dispatch = some (p, t') ∧
      (t.proc p).state = .runnable ∧
      t'.Placed ((l.tick t.timeToReset).remove i p) out ∧
      t'.proc = update t.ticked p { t.ticked p with state := .running } ∧
      t'.timeToReset = if t.timeToReset = 0 then maxTimeToReset else t.timeToReset - 1 := by
  obtain ⟨p, i, t', selected, dispatched, runnable, scheduled', proc', time'⟩ :=
    placed.scheduled.dispatch ready
  refine ⟨p, i, t', selected, dispatched, runnable,
    ⟨scheduled'.rep, ?_, scheduled'.mem_ready, ?_⟩, proc', time'⟩
  · intro q
    have sameFree : ((l.tick t.timeToReset).remove i p).free = l.free := by
      simp only [Lists.remove, Lists.tick]
      split <;> rfl
    rw [sameFree, placed.mem_free q, proc']
    by_cases same : q = p
    · subst same
      simp [runnable]
    · rw [update_of_ne same, ticked_state]
  · intro q
    have valid : ∃ j, readyIndex (t.ticked q).priority = some j := by
      unfold ticked
      split
      · exact ⟨1, rfl⟩
      · exact placed.valid q
    rw [proc']
    by_cases same : q = p
    · subst same
      simpa using valid
    · rw [update_of_ne same]
      exact valid

end PTable

end Xv6.Process
