import Xv6.Log.Protocol

/-!
# Admission to the log

`begin_op` reserves `MAXOPBLOCKS` blocks for each operation and admits operations
while the reservations fit into `LOGSIZE`.  `mkfs` makes the log area `LOGSIZE`
blocks long, header included, so that one block less is there, and `log_write`
panics as soon as all of them are in use, also for a block that is listed already:
operations that each stay within their reservation can together be too many.  With
two blocks less to reserve they could not.
-/

namespace Xv6.Log

open Labelled

variable {Pid : Type} [DecidableEq Pid]

/-- The distinct blocks that `p` has passed to `log_write` since it was last
admitted. -/
def bracket (p : Pid) : List (Event Pid) → List Nat
  | [] => []
  | .called q blockno _ :: older =>
    if q = p ∧ blockno ∉ bracket p older then blockno :: bracket p older else bracket p older
  | .began q :: older => if q = p then [] else bracket p older
  | _ :: older => bracket p older

/-- Those of them that have been recorded. -/
def recorded (p : Pid) : List (Event Pid) → Finset Nat
  | [] => ∅
  | .recorded q blockno _ _ :: older =>
    if q = p then insert blockno (recorded p older) else recorded p older
  | .began q :: older => if q = p then ∅ else recorded p older
  | _ :: older => recorded p older

/-- What `p` has reserved and not used. -/
def reserve (events : List (Event Pid)) (p : Pid) : Nat :=
  maxOpBlocks - (recorded p events).card

namespace State

variable {s s' : State Pid} {area : Area} {events : List (Event Pid)} {event : Event Pid}

/-- An admission leaves two blocks of `LOGSIZE` to spare. -/
def spares (s : State Pid) : Event Pid → Bool
  | .began _ => s.lh.length + (s.outstanding + 1) * maxOpBlocks ≤ logSize - 2
  | _ => true

/-- The steps of a kernel whose admissions do so. -/
def SpareStep (area : Area) (s : State Pid) (event : Event Pid) (s' : State Pid) : Prop :=
  Step area s event s' ∧ s.spares event = true

/-- The blocks in the header and the reservations together are within bounds. -/
structure Budget (events : List (Event Pid)) (s : State Pid) : Prop where
  called : ∀ {p blockno data}, s.status p = .checked blockno data → blockno ∈ bracket p events
  used : ∀ p, ∀ blockno ∈ recorded p events, blockno ∈ bracket p events
  listed : ∀ {p}, (s.status p).active = true → ∀ blockno ∈ recorded p events, blockno ∈ s.lh
  room : s.phase.recovering = false → ∀ active : Finset Pid,
    (∀ p, p ∈ active ↔ (s.status p).active = true) →
    s.lh.length + ∑ p ∈ active, reserve events p ≤ logSize - 2

namespace Budget

variable {new : Status} {p : Pid} {blockno : Nat}

theorem kept_update {q : Pid} (inactive : new.active = false)
    (active : (Function.update s.status p new q).active = true) :
    Function.update s.status p new q = s.status q := by
  by_cases same : q = p
  · rw [same, Function.update_self, inactive] at active
    cases active
  · exact Function.update_of_ne same _ _

theorem kept_wakeup {t : State Pid} {q : Pid} (inactive : new.active = false)
    (status : t.status = Function.update s.status p new)
    (active : (t.wakeup.status q).active = true) : t.wakeup.status q = s.status q := by
  rcases t.wakeup_status q with same | ⟨-, awake⟩
  · rw [same, status] at active ⊢
    exact kept_update inactive active
  · rw [awake] at active
    cases active

variable (budget : s.Budget events) (protocol : s.Protocol)
include budget protocol

/-- A step that records nothing, calls nothing and admits nobody. -/
theorem pass (same : ∀ p, bracket p (event :: events) = bracket p events ∧
      recorded p (event :: events) = recorded p events)
    (kept : ∀ {p}, (s'.status p).active = true → s'.status p = s.status p)
    (lh : s'.lh = s.lh ∧ (s'.phase.recovering = false → s.phase.recovering = false) ∨
      (∀ p, (s'.status p).active = false) ∧ (s'.phase.recovering = false → s'.lh = [])) :
    s'.Budget (event :: events) := by
  have reserves : reserve (event :: events) = reserve events := by
    funext p
    rw [reserve, reserve, (same p).2]
  refine ⟨fun {p _ _} isChecked => ?_, fun p => ?_, fun {p} isActive => ?_,
    fun booted set isActive => ?_⟩
  · rw [(same p).1]
    exact budget.called ((kept (by rw [isChecked]; rfl)).symm.trans isChecked)
  · rw [(same p).1, (same p).2]
    exact budget.used p
  · rw [(same p).2]
    rcases lh with ⟨lh, -⟩ | ⟨nobody, -⟩
    · rw [lh]
      exact budget.listed (kept isActive ▸ isActive)
    · cases (nobody p).symm.trans isActive
  · rw [reserves]
    rcases lh with ⟨lh, before⟩ | ⟨nobody, empty⟩
    · obtain ⟨before', mem_iff, -⟩ := protocol.count
      have fewer : set ⊆ before' := fun p member =>
        (mem_iff p).mpr (kept ((isActive p).mp member) ▸ (isActive p).mp member)
      have room := budget.room (before booted) before' mem_iff
      have smaller := Finset.sum_le_sum_of_subset (f := reserve events) fewer
      rw [lh]
      omega
    · have none : set = ∅ := Finset.eq_empty_of_forall_notMem fun p member => by
        cases (nobody p).symm.trans ((isActive p).mp member)
      rw [empty booted, none]
      exact Nat.zero_le _

omit protocol in
/-- `begin_op` admits a process. -/
theorem enter (spare : s.lh.length + (s.outstanding + 1) * maxOpBlocks ≤ logSize - 2)
    (after : s'.Protocol) (count : s'.outstanding = s.outstanding + 1) (lh : s'.lh = s.lh)
    (status : s'.status = Function.update s.status p .inside) : s'.Budget (.began p :: events) := by
  have self : recorded p (.began p :: events) = ∅ := by simp [recorded]
  have other {q : Pid} (away : q ≠ p) : bracket q (.began p :: events) = bracket q events ∧
      recorded q (.began p :: events) = recorded q events := by
    simp [bracket, recorded, Ne.symm away]
  have elsewhere {q : Pid} (away : q ≠ p) : s'.status q = s.status q := by
    rw [status, Function.update_of_ne away]
  refine ⟨fun {q _ _} isChecked => ?_, fun q => ?_, fun {q} isActive => ?_,
    fun _ set isActive => ?_⟩
  · have away : q ≠ p := by
      rintro rfl
      simp [status] at isChecked
    rw [(other away).1]
    exact budget.called ((elsewhere away).symm.trans isChecked)
  · by_cases same : q = p
    · subst same
      simp [self]
    · rw [(other same).1, (other same).2]
      exact budget.used q
  · by_cases same : q = p
    · subst same
      simp [self]
    · rw [(other same).2, lh]
      exact budget.listed (elsewhere same ▸ isActive)
  · have most : ∑ q ∈ set, reserve (.began p :: events) q ≤ set.card • maxOpBlocks :=
      Finset.sum_le_card_nsmul _ _ _ fun q _ => Nat.sub_le _ _
    rw [after.count.card_eq isActive, count, smul_eq_mul] at most
    rw [lh]
    omega

omit protocol in
/-- `log_write` records a block. -/
theorem record {data : Block} {slot : Nat} (checked : s.status p = .checked blockno data)
    (within : (bracket p events).length ≤ maxOpBlocks)
    (lh : s'.lh = if blockno ∈ s.lh then s.lh else s.lh ++ [blockno]) (phase : s'.phase = s.phase)
    (status : s'.status = Function.update s.status p .inside) :
    s'.Budget (.recorded p blockno data slot :: events) := by
  have wasActive : (s.status p).active = true := by rw [checked]; rfl
  have self : recorded p (.recorded p blockno data slot :: events) =
      insert blockno (recorded p events) := by simp [recorded]
  have other {q : Pid} (away : q ≠ p) : recorded q (.recorded p blockno data slot :: events) =
      recorded q events := by simp [recorded, Ne.symm away]
  have elsewhere {q : Pid} (away : q ≠ p) : s'.status q = s.status q := by
    rw [status, Function.update_of_ne away]
  have mine : insert blockno (recorded p events) ⊆ (bracket p events).toFinset := by
    refine Finset.insert_subset_iff.mpr ⟨List.mem_toFinset.mpr (budget.called checked), ?_⟩
    exact fun b member => List.mem_toFinset.mpr (budget.used p b member)
  have grows : blockno ∈ s'.lh ∧ ∀ b ∈ s.lh, b ∈ s'.lh := by
    rw [lh]
    split
    · exact ⟨‹_›, fun _ => id⟩
    · exact ⟨by simp, fun _ => List.mem_append_left _⟩
  refine ⟨fun {q _ _} isChecked => ?_, fun q b member => ?_, fun {q} isActive b member => ?_,
    fun booted set isActive => ?_⟩
  · have away : q ≠ p := by
      rintro rfl
      simp [status] at isChecked
    exact budget.called ((elsewhere away).symm.trans isChecked)
  · by_cases same : q = p
    · subst same
      rw [self] at member
      exact List.mem_toFinset.mp (mine member)
    · rw [other same] at member
      exact budget.used q b member
  · by_cases same : q = p
    · subst same
      rw [self, Finset.mem_insert] at member
      rcases member with rfl | member
      · exact grows.1
      · exact grows.2 b (budget.listed wasActive b member)
    · rw [other same] at member
      exact grows.2 b (budget.listed (elsewhere same ▸ isActive) b member)
  · have before : ∀ q, q ∈ set ↔ (s.status q).active = true := by
      intro q
      rw [isActive]
      by_cases same : q = p
      · subst same
        rw [status, Function.update_self]
        exact iff_of_true rfl wasActive
      · rw [elsewhere same]
    have room := budget.room (phase ▸ booted) set before
    have rest : ∑ q ∈ set.erase p, reserve (.recorded p blockno data slot :: events) q =
        ∑ q ∈ set.erase p, reserve events q :=
      Finset.sum_congr rfl fun q away => by
        rw [reserve, reserve, other (Finset.ne_of_mem_erase away)]
    have few := (Finset.card_le_card mine).trans ((List.toFinset_card_le _).trans within)
    rw [← Finset.add_sum_erase _ _ ((before p).mpr wasActive)] at room ⊢
    change _ + (maxOpBlocks - (recorded p events).card + _) ≤ _ at room
    rw [rest, reserve, self, lh]
    split
    · have more := Finset.card_le_card (Finset.subset_insert blockno (recorded p events))
      omega
    · -- a block that is not listed is new to the bracket too
      rename_i fresh
      have new : blockno ∉ recorded p events := fun old => fresh (budget.listed wasActive _ old)
      rw [Finset.card_insert_of_notMem new] at few ⊢
      rw [List.length_append, List.length_singleton]
      omega

omit protocol in
/-- `log_write` is called. -/
theorem call {panics : Bool} (lh : s'.lh = s.lh) (phase : s'.phase = s.phase)
    (active : ∀ q, (s'.status q).active = (s.status q).active)
    (checked : ∀ {q b data}, s'.status q = .checked b data →
      q = p ∧ b = blockno ∨ s.status q = .checked b data) :
    s'.Budget (.called p blockno panics :: events) := by
  have more {q : Pid} {b : Nat} (member : b ∈ bracket q events) :
      b ∈ bracket q (.called p blockno panics :: events) := by
    unfold bracket
    split
    · exact List.mem_cons_of_mem _ member
    · exact member
  refine ⟨fun {q b data} isChecked => ?_, fun q b member => more (budget.used q b member),
    fun {q} isActive => ?_, fun booted set isActive => ?_⟩
  · rcases checked isChecked with ⟨rfl, rfl⟩ | before
    · unfold bracket
      split
      · exact List.mem_cons_self
      · rename_i known
        simpa using known
    · exact more (budget.called before)
  · rw [lh]
    exact budget.listed ((active q).symm.trans isActive)
  · rw [lh]
    exact budget.room (phase ▸ booted) set fun q => (isActive q).trans (by rw [active])

theorem length_le (active : (s.status p).active = true) : s.lh.length ≤ logSize - 2 := by
  obtain ⟨set, mem_iff, -⟩ := protocol.count
  have room := budget.room (by rw [(protocol.idle active).2]; rfl) set mem_iff
  omega

/-- Every step keeps the budget. -/
theorem move (step : Move area s event s') (spare : s.spares event = true)
    (within : ∀ p, (bracket p events).length ≤ maxOpBlocks) : s'.Budget (event :: events) := by
  have silent (p : Pid) : bracket p (.internal :: events) = bracket p events ∧
      recorded p (.internal :: events) = recorded p events := ⟨rfl, rfl⟩
  have after := protocol.move step
  cases step with
  | beginOp p | sleep p => exact budget.pass protocol silent (kept_update rfl) (.inl ⟨rfl, id⟩)
  | enter => exact budget.enter (of_decide_eq_true spare) after rfl rfl rfl
  | tooBig => exact budget.call rfl rfl (fun _ => rfl) .inr
  | logWrite p blockno data inside =>
    refine budget.call rfl rfl (fun q => ?_) fun {q b data'} isChecked => ?_
    · by_cases same : q = p
      · simp [setStatus, same, inside, Status.active]
      · simp [setStatus, same]
    · by_cases same : q = p
      · simp only [setStatus, same, Function.update_self, Status.checked.injEq] at isChecked
        exact .inl ⟨same, isChecked.1.symm⟩
      · exact .inr ((Function.update_of_ne same _ _).symm.trans isChecked)
  | record p blockno data checked => exact budget.record checked (within p) rfl rfl rfl
  | endPanic | recycle => exact budget.pass protocol silent (fun _ => rfl) (.inl ⟨rfl, id⟩)
  | endCommit p inside =>
    refine budget.pass protocol (fun _ => ⟨rfl, rfl⟩) (kept_update rfl) (.inl ⟨rfl, fun _ => ?_⟩)
    rw [(protocol.idle (p := p) (by rw [inside]; rfl)).2]
    rfl
  | endOp p =>
    exact budget.pass protocol (fun _ => ⟨rfl, rfl⟩) (kept_wakeup rfl rfl) (.inl ⟨rfl, id⟩)
  | finish p => exact budget.pass protocol silent (kept_wakeup rfl rfl) (.inl ⟨rfl, id⟩)
  | writeLog tail blockno phase | commit tail phase =>
    refine budget.pass protocol (fun _ => ⟨rfl, rfl⟩) (fun _ => ?_) (.inl ⟨?_, fun _ => ?_⟩)
    · simp [writeLogBlock, writeHeadBlock, bwrite]
    · simp [writeLogBlock, writeHeadBlock, bwrite]
    · rw [phase]
      rfl
  | install recovering tail blockno phase =>
    refine budget.pass protocol (fun _ => ⟨rfl, rfl⟩) (fun _ => ?_) (.inl ⟨?_, fun booted => ?_⟩)
    · simp [installBlock, bwrite]
    · simp [installBlock, bwrite]
    · rw [phase]
      exact booted
  | erase recovering tail phase =>
    refine budget.pass protocol (fun _ => ⟨rfl, rfl⟩) (fun _ => ?_)
      (.inr ⟨fun p => ?_, fun _ => ?_⟩)
    · simp [writeHeadBlock, bwrite]
    · by_contra active
      have idle := (protocol.idle (p := p) (by simpa [writeHeadBlock, bwrite] using active)).2
      cases phase.symm.trans idle
    · simp [writeHeadBlock, bwrite]
  | load => exact budget.pass protocol silent (fun _ => by simp) (.inl ⟨by simp, by simp⟩)
  | crash =>
    refine budget.pass protocol (fun _ => ⟨rfl, rfl⟩) ?_ (.inr ⟨fun _ => rfl, ?_⟩)
    · rintro p ⟨⟩
    · rintro ⟨⟩
  | readHead lh phase =>
    have nobody := protocol.recovering (by rw [phase]; rfl)
    refine budget.pass protocol silent (fun _ => ?_) (.inr ⟨fun p => ?_, ?_⟩)
    · simp
    · simp [nobody, Status.active]
    · rintro ⟨⟩

end Budget

/-- The event is no panic of `log_write`, and no slot outside the log area. -/
def InArea (area : Area) : Event Pid → Prop
  | .called _ _ panics => panics = false
  | .recorded _ _ _ slot =>
    area.start + 1 ≤ area.start + 1 + slot ∧ area.start + 1 + slot ≤ area.start + area.size - 1
  | _ => True

theorem Budget.inArea (budget : s.Budget events) (protocol : s.Protocol)
    (step : Move mkfsArea s event s') : InArea mkfsArea event := by
  cases step with
  | tooBig p blockno inside full =>
    have active : (s.status p).active = true := by rw [inside]; rfl
    have bound := budget.length_le protocol active
    have positive := protocol.count.pos active
    simp only [mkfsArea, logSize, maxOpBlocks] at full bound
    omega
  | record p blockno data checked =>
    have bound := budget.length_le protocol (p := p) (by rw [checked]; rfl)
    have slot := List.idxOf_le_length (a := blockno) (l := s.lh)
    simp only [InArea, mkfsArea, logSize, maxOpBlocks] at bound ⊢
    omega
  | logWrite => exact rfl
  | _ => trivial

/-- On the layout of `mkfs`, and with admissions that leave two blocks to spare, brackets that
log at most `MAXOPBLOCKS` distinct blocks each have no panic of `log_write` and get slots
inside the log area. -/
theorem admission_of_spare {disk : Nat → Block}
    (run : Trace (SpareStep mkfsArea) (boot disk : State Pid) events s)
    (within : ∀ older ∈ events.tails, ∀ p, (bracket p older).length ≤ maxOpBlocks) :
    ∀ event ∈ events, InArea mkfsArea event := by
  suffices strong : s.Protocol ∧ s.Budget events ∧ ∀ event ∈ events, InArea mkfsArea event from
    strong.2.2
  induction run with
  | refl =>
    refine ⟨boot_protocol disk, ⟨nofun, fun _ _ => ?_, nofun, nofun⟩, nofun⟩
    exact fun member => by cases member
  | @step events event middle last run step ih =>
    rw [List.tails_cons, List.forall_mem_cons] at within
    obtain ⟨protocol, budget, sofar⟩ := ih within.2
    have move := (step_move step.1).1
    refine ⟨protocol.move move, budget.move protocol move step.2 (within.2 _ ?_), ?_⟩
    · simp
    · exact List.forall_mem_cons.mpr ⟨budget.inArea protocol move, sofar⟩

/-- After the recovery of an empty log three processes are admitted. -/
def admitThree : List (Action (Fin 3)) :=
  [.readHead, .write, .beginOp 0, .enter 0, .beginOp 1, .enter 1, .beginOp 2, .enter 2]

/-- The process logs ten blocks of its own. -/
def logTen (p : Fin 3) : List (Action (Fin 3)) :=
  (List.range 10).flatMap fun i => [.logWrite p (100 * (p + 1) + i) fun _ => 0, .record p]

/-- The transition function of a kernel whose admissions leave blocks to spare. -/
def spareStep (area : Area) (s : State Pid) (action : Action Pid) :
    Option (Event Pid × State Pid) :=
  (s.step area action).filter fun (event, _) => s.spares event

theorem SpareStep.of_eq_some {action : Action Pid}
    (taken : s.spareStep area action = some (event, s')) : SpareStep area s event s' := by
  obtain ⟨taken, spare⟩ := Option.filter_eq_some_iff.mp taken
  exact ⟨⟨action, taken⟩, spare⟩

/-- Two operations that use their reservations fit. -/
theorem admission_of_two : ∃ (events : List (Event (Fin 3))) (s : State (Fin 3)),
    Trace (SpareStep mkfsArea) (boot fun _ _ => 0) events s ∧ s.lh.length = 20 ∧
      ∀ event ∈ events, InArea mkfsArea event := by
  obtain ⟨events, s, run, count, within⟩ : ∃ (events : List (Event (Fin 3))) (s : State (Fin 3)),
      Trace (SpareStep mkfsArea) (boot fun _ _ => 0) events s ∧ s.lh.length = 20 ∧
        ∀ older ∈ events.tails, ∀ p, (bracket p older).length ≤ maxOpBlocks :=
    Trace.exists_of_execute (spareStep mkfsArea) (admitThree.dropLast ++ logTen 0 ++ logTen 1)
      (fun taken => .of_eq_some taken) (by decide +kernel)
  exact ⟨events, s, run, count, admission_of_spare run within⟩

/-- The third operation panics, although each bracket logs at most `MAXOPBLOCKS`
distinct blocks at any time. -/
theorem admission_fails : ∃ (events : List (Event (Fin 3))) (s : State (Fin 3)),
    Trace (Step mkfsArea) (boot fun _ _ => 0) events s ∧
      (∀ older ∈ events.tails, ∀ p, (bracket p older).length ≤ maxOpBlocks) ∧
      .called 2 309 true ∈ events := by
  apply Trace.exists_of_execute (step mkfsArea)
    (admitThree ++ logTen 0 ++ logTen 1 ++ (logTen 2).dropLast) (fun taken => ⟨_, taken⟩)
  decide +kernel

end State

end Xv6.Log
