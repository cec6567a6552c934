import Xv6.Process.Change

/-!
# Parents, children and what the run has shown of them

`Family k events` relates the `parent` fields to the events so far.  A process
that has started and is not `initproc` has a parent that is alive; the parent
forked it, or is `initproc` and got it when the forking process exited.  A
zombie has exited, a reaped pid belongs to nobody, and no process sleeps in
`wait` on a zombie child.
-/

namespace Xv6.Process

open Function

namespace Kernel

variable {Cpu : Type} {k k' : Kernel Cpu} {events : List Event} {p np q r : Slot}

/-- How `r` became the parent of `q`. -/
def Kin (k : Kernel Cpu) (events : List Event) (r q : Slot) : Prop :=
  .forked (k.ptable.proc r).pid (k.ptable.proc q).pid ∈ events ∨
    r = k.initproc ∧ ∃ pid, .forked pid (k.ptable.proc q).pid ∈ events ∧ .exited pid ∈ events

/-- The family relations and what the events say of them. -/
structure Family (k : Kernel Cpu) (events : List Event) : Prop where
  init_alive : (k.ptable.proc k.initproc).state.alive = true
  init_pid : (k.ptable.proc k.initproc).pid = 1
  init_parent : (k.ptable.proc k.initproc).parent = none
  unused : ∀ q, (k.ptable.proc q).state = .unused → (k.ptable.proc q).parent = none
  irrefl : ∀ q, (k.ptable.proc q).parent ≠ some q
  stage : ∀ p stage np, k.forking p = some (stage, np) →
    (k.ptable.proc np).parent = if stage.hasParent then some p else none
  child : ∀ q ≠ k.initproc,
    (k.ptable.proc q).state.alive = true ∨ (k.ptable.proc q).state = .zombie →
    ∃ r, (k.ptable.proc q).parent = some r ∧ (k.ptable.proc r).state.alive = true ∧
      k.Kin events r q
  zombie : ∀ q, (k.ptable.proc q).state = .zombie → .exited (k.ptable.proc q).pid ∈ events
  gone : ∀ pid ∈ events.filterMap Event.reaped, pid < k.nextpid ∧
    ∀ q, (k.ptable.proc q).state ≠ .unused → (k.ptable.proc q).pid ≠ pid
  once : (events.filterMap Event.reaped).Nodup
  notified : ∀ p, k.ptable.InWait p → ∀ z, (k.ptable.proc z).parent = some p →
    (k.ptable.proc z).state ≠ .zombie

variable {event : Event}

theorem Kin.mono (kin : k.Kin events r q) (parent : (k'.ptable.proc r).pid = (k.ptable.proc r).pid)
    (child : (k'.ptable.proc q).pid = (k.ptable.proc q).pid) (initproc : k'.initproc = k.initproc) :
    k'.Kin (event :: events) r q := by
  unfold Kin
  rw [parent, child, initproc]
  rcases kin with forked | ⟨init, p, forked, exited⟩
  · exact .inl (List.mem_cons_of_mem event forked)
  · exact .inr ⟨init, p, List.mem_cons_of_mem event forked, List.mem_cons_of_mem event exited⟩

variable (family : k.Family events)
include family

/-- Steps that neither start nor end the life of a slot. -/
theorem Family.mild (mild : ∀ q, (k.ptable.proc q).Mild (k'.ptable.proc q))
    (forking : k'.forking = k.forking) (initproc : k'.initproc = k.initproc)
    (nextpid : k'.nextpid = k.nextpid) (quiet : event.reaped = none)
    (waits : ∀ p, k'.ptable.InWait p → k.ptable.InWait p ∨
      ∀ z, (k.ptable.proc z).parent = some p → (k.ptable.proc z).state ≠ .zombie) :
    k'.Family (event :: events) := by
  have reaped : (event :: events).filterMap Event.reaped = events.filterMap Event.reaped := by
    simp [quiet]
  refine ⟨?_, ?_, ?_, ?_, ?_, ?_, ?_, ?_, ?_, ?_, ?_⟩
  · rw [initproc, (mild _).alive_iff]
    exact family.init_alive
  · rw [initproc, (mild _).1]
    exact family.init_pid
  · rw [initproc, (mild _).2.1]
    exact family.init_parent
  · intro q state
    rw [(mild q).state_iff rfl] at state
    rw [(mild q).2.1]
    exact family.unused q state
  · intro q
    rw [(mild q).2.1]
    exact family.irrefl q
  · intro p stage np inProgress
    rw [forking] at inProgress
    rw [(mild np).2.1]
    exact family.stage p stage np inProgress
  · intro q notInit born
    rw [initproc] at notInit
    rw [(mild q).alive_iff, (mild q).state_iff rfl] at born
    obtain ⟨r, parent, alive, kin⟩ := family.child q notInit born
    refine ⟨r, by rw [(mild q).2.1, parent], by rw [(mild r).alive_iff, alive], ?_⟩
    exact kin.mono (mild r).1 (mild q).1 initproc
  · intro q state
    rw [(mild q).state_iff rfl] at state
    rw [(mild q).1]
    exact List.mem_cons_of_mem event (family.zombie q state)
  · intro pid member
    rw [reaped] at member
    obtain ⟨old, absent⟩ := family.gone pid member
    refine ⟨by rwa [nextpid], fun q used => ?_⟩
    rw [(mild q).1]
    refine absent q fun state => used ?_
    rwa [(mild q).state_iff rfl]
  · rw [reaped]
    exact family.once
  · intro p inWait z parent
    rw [(mild z).2.1] at parent
    rw [Ne, (mild z).state_iff rfl]
    rcases waits p inWait with before | none
    · exact family.notified p before z parent
    · exact none z parent

/-- A step that changes only the slot `np`, in which nobody is alive before. -/
theorem Family.single (np : Slot) (dead : (k.ptable.proc np).state.alive = false)
    (elsewhere : ∀ q ≠ np, k'.ptable.proc q = k.ptable.proc q)
    (awake : (k'.ptable.proc np).state ≠ .sleeping) (kept : (k'.ptable.proc np).state ≠ .zombie)
    (unused : (k'.ptable.proc np).state = .unused → (k'.ptable.proc np).parent = none)
    (irrefl : (k'.ptable.proc np).parent ≠ some np)
    (stage : ∀ p stage m, k'.forking p = some (stage, m) →
      (k'.ptable.proc m).parent = if stage.hasParent then some p else none)
    (born : (k'.ptable.proc np).state.alive = true → ∃ r ≠ np,
      (k'.ptable.proc np).parent = some r ∧ (k.ptable.proc r).state.alive = true ∧
        k'.Kin (event :: events) r np) (pid : (k'.ptable.proc np).state ≠ .unused →
      (k'.ptable.proc np).pid = k.nextpid ∨
        (k.ptable.proc np).state ≠ .unused ∧ (k'.ptable.proc np).pid = (k.ptable.proc np).pid)
    (reaped : ∀ pid, event.reaped = some pid → pid < k.nextpid ∧
      pid ∉ events.filterMap Event.reaped ∧
        ∀ q, (k'.ptable.proc q).state ≠ .unused → (k'.ptable.proc q).pid ≠ pid)
    (initproc : k'.initproc = k.initproc) (nextpid : k.nextpid ≤ k'.nextpid) :
    k'.Family (event :: events) := by
  have differs : ∀ {q : Slot}, (k.ptable.proc q).state.alive = true → q ≠ np := by
    rintro q alive rfl
    simp [dead] at alive
  have zombieDiffers : ∀ {q : Slot}, (k'.ptable.proc q).state = .zombie → q ≠ np := by
    rintro q zombie rfl
    exact kept zombie
  have init := elsewhere _ (differs family.init_alive)
  refine ⟨?_, ?_, ?_, ?_, ?_, stage, ?_, ?_, ?_, ?_, ?_⟩
  · rw [initproc, init]
    exact family.init_alive
  · rw [initproc, init]
    exact family.init_pid
  · rw [initproc, init]
    exact family.init_parent
  · intro q state
    by_cases same : q = np
    · subst same
      exact unused state
    · rw [elsewhere q same] at state ⊢
      exact family.unused q state
  · intro q
    by_cases same : q = np
    · subst same
      exact irrefl
    · rw [elsewhere q same]
      exact family.irrefl q
  · intro q notInit bornAfter
    by_cases same : q = np
    · subst same
      obtain ⟨r, other, parent, alive, kin⟩ := born (bornAfter.resolve_right kept)
      exact ⟨r, parent, by rwa [elsewhere r other], kin⟩
    · rw [initproc] at notInit
      rw [elsewhere q same] at bornAfter ⊢
      obtain ⟨r, parent, alive, kin⟩ := family.child q notInit bornAfter
      have otherParent := elsewhere r (differs alive)
      exact ⟨r, parent, by rwa [otherParent],
        kin.mono (by rw [otherParent]) (by rw [elsewhere q same]) initproc⟩
  · intro q state
    have other := elsewhere q (zombieDiffers state)
    rw [other] at state ⊢
    exact List.mem_cons_of_mem event (family.zombie q state)
  · intro pid' member
    simp only [List.mem_filterMap, List.exists_mem_cons_iff] at member
    rcases member with new | member
    · obtain ⟨old, -, absent⟩ := reaped pid' new
      exact ⟨by omega, absent⟩
    · obtain ⟨old, absent⟩ := family.gone pid' (List.mem_filterMap.mpr member)
      refine ⟨by omega, fun q used => ?_⟩
      by_cases same : q = np
      · subst same
        rcases pid used with new | ⟨wasUsed, samePid⟩
        · omega
        · rw [samePid]
          exact absent q wasUsed
      · rw [elsewhere q same] at used ⊢
        exact absent q used
  · cases isReaped : event.reaped with
    | none =>
      rw [List.filterMap_cons_none isReaped]
      exact family.once
    | some pid' =>
      rw [List.filterMap_cons_some isReaped, List.nodup_cons]
      exact ⟨(reaped pid' isReaped).2.1, family.once⟩
  · intro q inWait z parent zombie
    have waiting : q ≠ np := by
      rintro rfl
      exact awake inWait.1
    have other := elsewhere z (zombieDiffers zombie)
    rw [other] at parent zombie
    refine family.notified q ?_ z parent zombie
    unfold PTable.InWait at inWait ⊢
    rwa [elsewhere q waiting] at inWait

/-- A step of the `fork` of `p` on its slot `np`, while that is unused or an
embryo. -/
theorem Family.forkStep (np : Slot) (stage' : Option (ForkStage × Slot))
    (own : ∀ q stage, k.forking q = some (stage, np) → q = p)
    (fresh : (k.ptable.proc np).state.alive = false)
    (elsewhere : ∀ q ≠ np, k'.ptable.proc q = k.ptable.proc q)
    (fresh' : (k'.ptable.proc np).state.alive = false ∧ (k'.ptable.proc np).state ≠ .zombie)
    (unused : (k'.ptable.proc np).state = .unused → (k'.ptable.proc np).parent = none)
    (irrefl : (k'.ptable.proc np).parent ≠ some np) (next : ∀ stage q, stage' = some (stage, q) →
      q = np ∧ (k'.ptable.proc np).parent = if stage.hasParent then some p else none)
    (pid : (k'.ptable.proc np).state ≠ .unused →
      (k'.ptable.proc np).pid = k.nextpid ∨
        (k.ptable.proc np).state ≠ .unused ∧ (k'.ptable.proc np).pid = (k.ptable.proc np).pid)
    (forking : k'.forking = update k.forking p stage') (initproc : k'.initproc = k.initproc)
    (nextpid : k.nextpid ≤ k'.nextpid) (quiet : event.reaped = none) :
    k'.Family (event :: events) := by
  refine family.single np fresh elsewhere ?_ fresh'.2 unused irrefl ?_ (by simp [fresh'.1]) pid
    (by simp [quiet]) initproc nextpid
  · intro asleep
    simp [asleep, ProcState.alive] at fresh'
  · intro q stage m inProgress
    by_cases same : q = p
    · subst same
      rw [forking, update_self] at inProgress
      obtain ⟨rfl, parent⟩ := next stage m inProgress
      exact parent
    · rw [forking, update_of_ne same] at inProgress
      have other : m ≠ np := by
        rintro rfl
        exact same (own q stage inProgress)
      rw [elsewhere m other]
      exact family.stage q stage m inProgress

/-- The `fork` of `p` lets its new process run. -/
theorem Family.publish (inProgress : k.forking p = some (.prepared, np))
    (running : (k.ptable.proc p).state = .running) (embryo : (k.ptable.proc np).state = .embryo)
    (table : k'.ptable.proc =
      update k.ptable.proc np { k.ptable.proc np with state := .runnable })
    (forking : k'.forking = update k.forking p none) (initproc : k'.initproc = k.initproc)
    (nextpid : k'.nextpid = k.nextpid) :
    k'.Family (.forked (k.ptable.proc p).pid (k.ptable.proc np).pid :: events) := by
  have elsewhere : ∀ q ≠ np, k'.ptable.proc q = k.ptable.proc q := fun q different => by
    rw [table, update_of_ne different]
  have here : k'.ptable.proc np = { k.ptable.proc np with state := .runnable } := by
    rw [table, update_self]
  have forkerOther : p ≠ np := by
    rintro rfl
    simp [running] at embryo
  refine family.single np (by simp [embryo, ProcState.alive]) elsewhere (by simp [here])
    (by simp [here]) (by simp [here]) ?_ ?_ ?_ (fun _ => .inr ⟨by simp [embryo], by rw [here]⟩)
    nofun initproc nextpid.ge
  · rw [here]
    exact family.irrefl np
  · intro q stage m busy
    by_cases same : q = p
    · subst same
      simp [forking] at busy
    · rw [forking, update_of_ne same] at busy
      rw [← family.stage q stage m busy]
      by_cases changed : m = np
      · rw [changed, here]
      · rw [elsewhere m changed]
  · intro _
    refine ⟨p, forkerOther, ?_, by rw [running]; rfl, .inl ?_⟩
    · rw [here]
      exact family.stage p _ np inProgress
    · rw [here, elsewhere p forkerOther]
      exact List.mem_cons_self

/-- `wait` frees the slot of the zombie `z` and returns its pid. -/
theorem Family.reap {l : Lists} (inv : k.Inv l) {z : Slot} {f : Proc → Proc} (caller : Int)
    (zombie : (k.ptable.proc z).state = .zombie)
    (table : k'.ptable.proc = update k.ptable.proc z (f (k.ptable.proc z)))
    (unused : (f (k.ptable.proc z)).state = .unused) (parent : (f (k.ptable.proc z)).parent = none)
    (forking : k'.forking = k.forking) (initproc : k'.initproc = k.initproc)
    (nextpid : k'.nextpid = k.nextpid) :
    k'.Family (.waited caller (k.ptable.proc z).pid :: events) := by
  have elsewhere : ∀ q ≠ z, k'.ptable.proc q = k.ptable.proc q := fun q different => by
    rw [table, update_of_ne different]
  have here : k'.ptable.proc z = f (k.ptable.proc z) := by rw [table, update_self]
  refine family.single z (by simp [zombie, ProcState.alive]) elsewhere (by simp [here, unused])
    (by simp [here, unused]) (by simp [here, parent]) (by simp [here, parent]) ?_
    (by simp [here, unused, ProcState.alive]) (by simp [here, unused]) ?_ initproc nextpid.ge
  · intro q stage m inProgress
    rw [forking] at inProgress
    have other : m ≠ z := by
      rintro rfl
      have state := inv.stage q stage m inProgress
      rw [zombie] at state
      cases stage <;> cases state
    rw [elsewhere m other]
    exact family.stage q stage m inProgress
  · intro pid isReaped
    have pidLive : (k.ptable.proc z).pid ≠ 0 := inv.pid_live z (by simp [zombie])
    have pidRange := inv.pid_range z
    have notMinus : (k.ptable.proc z).pid ≠ -1 := by omega
    obtain rfl : (k.ptable.proc z).pid = pid := by simpa [Event.reaped, notMinus] using isReaped
    refine ⟨pidRange.2, fun member => (family.gone _ member).2 z (by simp [zombie]) rfl,
      fun q used samePid => ?_⟩
    have other : q ≠ z := by
      rintro rfl
      exact used (by rw [here, unused])
    rw [elsewhere q other] at samePid
    exact other (inv.pid_inj q z samePid (by rwa [samePid]))

end Kernel

namespace PTable

variable {t : PTable} {self initproc q : Slot}

theorem exited_parent : (t.exited self initproc q).parent =
    if (t.proc q).parent = some self then some initproc else (t.proc q).parent := by
  have adopted : ∀ r : Proc, (r.adopted self initproc).parent =
      if r.parent = some self then some initproc else r.parent := by
    intro r
    unfold Proc.adopted
    split <;> rfl
  unfold exited
  by_cases zombie : ∃ r, (t.proc r).parent = some self ∧ (t.proc r).state = .zombie <;>
    by_cases same : q = self <;> simp [zombie, same, adopted]

/-- Who still sleeps in `wait` after an exit: neither the parent, nor `initproc`
if it got a zombie. -/
theorem exited_inWait (asleep : (t.exited self initproc q).state = .sleeping)
    (chan : (t.exited self initproc q).chan = some (.proc q)) :
    t.InWait q ∧ (t.proc self).parent ≠ some q ∧
      ((∃ r, (t.proc r).parent = some self ∧ (t.proc r).state = .zombie) → q ≠ initproc) := by
  have other : q ≠ self := by
    rintro rfl
    simp at asleep
  have woken : ∀ {r : Proc} {chan : Option Chan}, (r.woken chan).state = .sleeping →
      r.state = .sleeping ∧ r.woken chan = r ∧ r.chan ≠ chan := by
    intro r chan asleep
    unfold Proc.woken at asleep ⊢
    split at asleep
    · cases asleep
    · rename_i kept
      exact ⟨asleep, if_neg kept, fun same => kept ⟨asleep, same⟩⟩
  have adopted : ∀ r : Proc, (r.adopted self initproc).chan = r.chan := by
    intro r
    unfold Proc.adopted
    split <;> rfl
  -- the wakeup of the parent left `q` asleep
  have first : ((t.proc q).woken ((t.proc self).parent.map .proc)).state = .sleeping ∧
      ((t.proc q).woken ((t.proc self).parent.map .proc)).chan = some (.proc q) ∧
      ((∃ r, (t.proc r).parent = some self ∧ (t.proc r).state = .zombie) → q ≠ initproc) := by
    unfold exited at asleep chan
    by_cases zombie : ∃ r, (t.proc r).parent = some self ∧ (t.proc r).state = .zombie
    · simp only [zombie, other, if_true, if_false] at asleep chan
      obtain ⟨asleep, same, elsewhere⟩ := woken asleep
      rw [same, adopted] at chan
      rw [Proc.adopted_state] at asleep
      refine ⟨asleep, chan, fun _ init => elsewhere ?_⟩
      rw [adopted, chan, init]
    · simp only [zombie, other, if_false] at asleep chan
      rw [Proc.adopted_state] at asleep
      rw [adopted] at chan
      exact ⟨asleep, chan, fun some => absurd some zombie⟩
  obtain ⟨asleep, chan, notInit⟩ := first
  obtain ⟨asleep, same, elsewhere⟩ := woken asleep
  rw [same] at chan
  refine ⟨⟨asleep, chan⟩, fun parent => elsewhere ?_, notInit⟩
  rw [chan, parent]
  rfl

end PTable

namespace Kernel

variable {Cpu : Type} {k k' : Kernel Cpu} {events : List Event} {self : Slot}

/-- `exit` of `self`. -/
theorem Family.exit (family : k.Family events) (running : (k.ptable.proc self).state = .running)
    (whole : k.forking self = none) (notInit : self ≠ k.initproc)
    (table : k'.ptable.proc = k.ptable.exited self k.initproc) (forking : k'.forking = k.forking)
    (initproc : k'.initproc = k.initproc) (nextpid : k'.nextpid = k.nextpid) :
    k'.Family (.exited (k.ptable.proc self).pid :: events) := by
  have aliveAfter : ∀ {q : Slot}, q ≠ self → (k.ptable.proc q).state.alive = true →
      (k'.ptable.proc q).state.alive = true := by
    intro q other alive
    rw [table]
    rcases k.ptable.exited_state_of_ne k.initproc other with same | ⟨-, awake⟩
    · rwa [same]
    · rw [awake]
      rfl
  have stateAfter : ∀ {q : Slot}, q ≠ self → ∀ {state : ProcState}, state.alive = false →
      ((k'.ptable.proc q).state = state ↔ (k.ptable.proc q).state = state) := by
    intro q other state dead
    rw [table]
    rcases k.ptable.exited_state_of_ne k.initproc other with same | ⟨asleep, awake⟩
    · rw [same]
    · rw [asleep, awake]
      constructor <;> (rintro rfl; cases dead)
  have selfAfter : (k'.ptable.proc self).state = .zombie := by rw [table, PTable.exited_state_self]
  have allPid : ∀ q, (k'.ptable.proc q).pid = (k.ptable.proc q).pid := by
    intro q
    rw [table, PTable.exited_pid]
  have parentAfter : ∀ q, (k'.ptable.proc q).parent =
      if (k.ptable.proc q).parent = some self then some k.initproc
      else (k.ptable.proc q).parent := by
    intro q
    rw [table, PTable.exited_parent]
  refine ⟨?_, ?_, ?_, ?_, ?_, ?_, ?_, ?_, ?_, ?_, ?_⟩
  · rw [initproc]
    exact aliveAfter notInit.symm family.init_alive
  · rw [initproc, allPid]
    exact family.init_pid
  · rw [initproc, parentAfter, family.init_parent]
    simp
  · intro q state
    have other : q ≠ self := by
      rintro rfl
      simp [selfAfter] at state
    rw [stateAfter other rfl] at state
    rw [parentAfter, family.unused q state]
    simp
  · intro q own
    rw [parentAfter] at own
    split at own
    · rename_i child
      obtain rfl := Option.some.inj own
      simp [family.init_parent] at child
    · exact family.irrefl q own
  · intro p stage np inProgress
    rw [forking] at inProgress
    have parent := family.stage p stage np inProgress
    have forker : p ≠ self := by
      rintro rfl
      simp [whole] at inProgress
    rw [parentAfter, parent]
    cases stage.hasParent <;> simp [forker]
  · intro q other born
    rw [initproc] at other
    have bornBefore :
        (k.ptable.proc q).state.alive = true ∨ (k.ptable.proc q).state = .zombie := by
      by_cases same : q = self
      · rw [same, running]
        exact .inl rfl
      · rcases born with alive | dead
        · refine .inl ?_
          rw [table] at alive
          rcases k.ptable.exited_state_of_ne k.initproc same with kept | ⟨asleep, -⟩
          · rwa [kept] at alive
          · rw [asleep]
            rfl
        · exact .inr ((stateAfter same rfl).mp dead)
    obtain ⟨r, parent, alive, kin⟩ := family.child q other bornBefore
    by_cases orphan : r = self
    · subst orphan
      refine ⟨k.initproc, by rw [parentAfter, if_pos parent],
        aliveAfter notInit.symm family.init_alive, .inr ⟨initproc.symm, (k.ptable.proc r).pid, ?_,
          List.mem_cons_self⟩⟩
      rcases kin with forked | ⟨init, -⟩
      · rw [allPid]
        exact List.mem_cons_of_mem _ forked
      · exact absurd init notInit
    · refine ⟨r, ?_, aliveAfter orphan alive, kin.mono (allPid r) (allPid q) initproc⟩
      rw [parentAfter, parent, if_neg (by simpa using orphan)]
  · intro q state
    rw [allPid]
    by_cases same : q = self
    · subst same
      exact List.mem_cons_self
    · exact List.mem_cons_of_mem _ (family.zombie q ((stateAfter same rfl).mp state))
  · intro pid member
    obtain ⟨old, absent⟩ := family.gone pid (by simpa [Event.reaped] using member)
    refine ⟨by rwa [nextpid], fun q used => ?_⟩
    rw [allPid]
    by_cases same : q = self
    · subst same
      exact absent q (by simp [running])
    · exact absent q fun state => used ((stateAfter same rfl).mpr state)
  · rw [List.filterMap_cons_none rfl]
    exact family.once
  · intro q inWait z childOf dead
    unfold PTable.InWait at inWait
    rw [table] at inWait
    obtain ⟨before, notParent, notAdopter⟩ := PTable.exited_inWait inWait.1 inWait.2
    rw [parentAfter] at childOf
    by_cases same : z = self
    · subst same
      rw [if_neg (family.irrefl z)] at childOf
      exact notParent childOf
    · rw [stateAfter same rfl] at dead
      split at childOf
      · rename_i child
        exact notAdopter ⟨z, child, dead⟩ (Option.some.inj childOf).symm
      · exact family.notified q before z childOf dead

end Kernel

end Xv6.Process
