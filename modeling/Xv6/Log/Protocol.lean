import Xv6.Log.Cache

/-!
# The group commit protocol

`outstanding` counts the processes inside their brackets, `committing` marks the
one that commits, and a commit excludes both: while a process is inside, no
commit runs and no recovery does.  The header lists the blocks recorded since
the last commit, each once.
-/

namespace Xv6.Log

open Labelled

variable {Pid : Type}

/-- The process is between `begin_op` and `end_op`. -/
def Status.active : Status → Bool
  | .inside | .checked _ _ => true
  | _ => false

/-- The number of active processes. -/
def ActiveCount (status : Pid → Status) (count : Nat) : Prop :=
  ∃ active : Finset Pid, (∀ p, p ∈ active ↔ (status p).active = true) ∧ active.card = count

variable {p : Pid} {new : Status}

namespace ActiveCount

variable {status status' : Pid → Status} {count : Nat}

variable (counted : ActiveCount status count)
include counted

theorem congr (same : ∀ p, (status' p).active = (status p).active) : ActiveCount status' count := by
  obtain ⟨active, mem_iff, card⟩ := counted
  exact ⟨active, fun p => by rw [mem_iff, same], card⟩

theorem pos (active : (status p).active = true) : 0 < count := by
  obtain ⟨set, mem_iff, card⟩ := counted
  rw [← card]
  exact Finset.card_pos.mpr ⟨p, (mem_iff p).mpr active⟩

theorem card_eq {active : Finset Pid} (isActive : ∀ p, p ∈ active ↔ (status p).active = true) :
    active.card = count := by
  obtain ⟨set, mem_iff, card⟩ := counted
  rw [← card]
  exact congrArg Finset.card (Finset.ext fun p => by rw [isActive, mem_iff])

variable [DecidableEq Pid]

theorem enter (idle : (status p).active = false) (active : new.active = true) :
    ActiveCount (Function.update status p new) (count + 1) := by
  obtain ⟨set, mem_iff, card⟩ := counted
  have fresh : p ∉ set := by simp [mem_iff, idle]
  refine ⟨insert p set, fun q => ?_, by rw [Finset.card_insert_of_notMem fresh, card]⟩
  by_cases same : q = p
  · subst same
    simp [active]
  · simp [same, mem_iff]

theorem leave (active : (status p).active = true) (idle : new.active = false) :
    ActiveCount (Function.update status p new) (count - 1) := by
  obtain ⟨set, mem_iff, card⟩ := counted
  have member : p ∈ set := (mem_iff p).mpr active
  refine ⟨set.erase p, fun q => ?_, by rw [Finset.card_erase_of_mem member, card]⟩
  by_cases same : q = p
  · subst same
    simp [idle]
  · simp [same, mem_iff]

theorem update (same : new.active = (status p).active) :
    ActiveCount (Function.update status p new) count := by
  apply counted.congr
  intro q
  by_cases equal : q = p
  · subst equal
    simp [same]
  · simp [equal]

end ActiveCount

namespace State

variable {s s' : State Pid} {area : Area}

/-- Who is where during which phase. -/
structure Protocol (s : State Pid) : Prop where
  count : ActiveCount s.status s.outstanding
  committer : s.committing = true ↔ ∃ p, s.status p = .committer
  single : ∀ p q, s.status p = .committer → s.status q = .committer → p = q
  quiet : s.committing = true → s.outstanding = 0
  phase : s.phase ≠ .idle → s.committing = true ∨ s.phase.recovering = true
  recovering : s.phase.recovering = true → ∀ p, s.status p = .outside

theorem boot_protocol (disk : Nat → Block) : Protocol (boot disk : State Pid) := by
  constructor
  · exact ⟨∅, by simp [boot, Status.active], rfl⟩
  · simp [boot]
  · simp [boot]
  · simp [boot]
  · simp [boot, Phase.recovering]
  · simp [boot]

variable (protocol : s.Protocol)
include protocol

/-- While a process is inside its bracket, nothing commits or recovers. -/
theorem Protocol.idle (active : (s.status p).active = true) :
    s.committing = false ∧ s.phase = .idle := by
  have free : s.committing = false := by
    cases committing : s.committing with
    | false => rfl
    | true =>
      have positive := protocol.count.pos active
      rw [protocol.quiet committing] at positive
      exact absurd positive (Nat.lt_irrefl 0)
  refine ⟨free, ?_⟩
  by_contra busy
  rcases protocol.phase busy with committing | recovering
  · simp [free] at committing
  · rw [protocol.recovering recovering p] at active
    cases active

theorem Protocol.booted_of_ne_outside (present : s.status p ≠ .outside) :
    s.phase.recovering = false := by
  cases recovering : s.phase.recovering with
  | false => rfl
  | true => exact absurd (protocol.recovering recovering p) present

theorem Protocol.congr (status : s'.status = s.status)
    (outstanding : s'.outstanding = s.outstanding) (committing : s'.committing = s.committing)
    (phase : s'.phase ≠ .idle → s.phase ≠ .idle ∧ s'.phase.recovering = s.phase.recovering) :
    s'.Protocol := by
  constructor
  · rw [status, outstanding]
    exact protocol.count
  · rw [status, committing]
    exact protocol.committer
  · rw [status]
    exact protocol.single
  · rw [committing, outstanding]
    exact protocol.quiet
  · intro busy
    obtain ⟨wasBusy, same⟩ := phase busy
    rw [committing, same]
    exact protocol.phase wasBusy
  · intro recovering
    have busy : s'.phase ≠ .idle := by
      intro idle
      rw [idle] at recovering
      cases recovering
    rw [(phase busy).2] at recovering
    rw [status]
    exact protocol.recovering recovering

omit protocol in
theorem wakeup_status (s : State Pid) (p : Pid) :
    s.wakeup.status p = s.status p ∨
      s.status p = .sleeping ∧ s.wakeup.status p = .entering := by
  unfold wakeup
  by_cases asleep : s.status p = .sleeping
  · simp [asleep]
  · simp [asleep]

theorem Protocol.wakeup : s.wakeup.Protocol := by
  have same : ∀ p status, status ≠ .sleeping → status ≠ .entering →
      (s.wakeup.status p = status ↔ s.status p = status) := by
    intro p status notAsleep notEntering
    rcases s.wakeup_status p with kept | ⟨asleep, awake⟩
    · rw [kept]
    · rw [asleep, awake]
      exact ⟨fun equal => absurd equal.symm notEntering, fun equal => absurd equal.symm notAsleep⟩
  constructor
  · apply protocol.count.congr
    intro p
    rcases s.wakeup_status p with kept | ⟨asleep, awake⟩
    · rw [kept]
    · rw [asleep, awake]
      rfl
  · simp only [same _ .committer (by simp) (by simp)]
    exact protocol.committer
  · intro p q first second
    rw [same _ _ (by simp) (by simp)] at first second
    exact protocol.single p q first second
  · exact protocol.quiet
  · exact protocol.phase
  · intro recovering p
    rw [same _ _ (by simp) (by simp)]
    exact protocol.recovering recovering p

variable [DecidableEq Pid]

/-- A process that is not the committer changes its place without entering or
leaving its bracket. -/
theorem Protocol.setStatus (active : new.active = (s.status p).active)
    (wasNot : s.status p ≠ .committer) (isNot : new ≠ .committer)
    (booted : s.phase.recovering = false) : (s.setStatus p new).Protocol := by
  have committer : ∀ q, (s.setStatus p new).status q = .committer ↔ s.status q = .committer := by
    intro q
    by_cases same : q = p
    · subst same
      simp [State.setStatus, wasNot, isNot]
    · simp [State.setStatus, same]
  constructor
  · exact protocol.count.update active
  · simp only [committer]
    exact protocol.committer
  · simp only [committer]
    exact protocol.single
  · exact protocol.quiet
  · exact protocol.phase
  · intro recovering
    exact absurd booted (by simpa [State.setStatus] using recovering)

/-- A process enters or leaves its bracket. -/
theorem Protocol.bracket {count : Nat}
    (counted : ActiveCount (Function.update s.status p new) count) (free : s.committing = false)
    (idle : s.phase = .idle) (isNot : new ≠ .committer) :
    ({ s with outstanding := count }.setStatus p new).Protocol := by
  have nobody : ∀ q, s.status q ≠ .committer := by
    intro q committer
    have committing := protocol.committer.mpr ⟨q, committer⟩
    simp [free] at committing
  have stillNobody : ∀ q, Function.update s.status p new q ≠ .committer := by
    intro q
    by_cases same : q = p
    · subst same
      simpa using isNot
    · simpa [same] using nobody q
  constructor
  · exact counted
  · simp [State.setStatus, free, stillNobody]
  · intro q r first
    exact absurd first (stillNobody q)
  · simp [State.setStatus, free]
  · simp [State.setStatus, idle]
  · simp [State.setStatus, idle, Phase.recovering]

/-- Every step keeps the protocol. -/
theorem Protocol.move {event : Event Pid} (move : Move area s event s') : s'.Protocol := by
  cases move with
  | beginOp p outside booted =>
    exact protocol.setStatus (by rw [outside]; rfl) (by simp [outside]) (by simp) booted
  | sleep p entering =>
    exact protocol.setStatus (by rw [entering]; rfl) (by simp [entering]) (by simp)
      (protocol.booted_of_ne_outside (p := p) (by simp [entering]))
  | enter p entering free room =>
    have booted := protocol.booted_of_ne_outside (p := p) (by simp [entering])
    have idle : s.phase = .idle := by
      by_contra busy
      rcases protocol.phase busy with committing | recovering
      · simp [free] at committing
      · simp [booted] at recovering
    exact protocol.bracket (protocol.count.enter (by rw [entering]; rfl) rfl) free idle (by simp)
  | tooBig | recycle => exact protocol.congr rfl rfl rfl fun busy => ⟨busy, rfl⟩
  | logWrite p blockno data inside =>
    exact protocol.setStatus (by rw [inside]; rfl) (by simp [inside]) (by simp)
      (protocol.booted_of_ne_outside (p := p) (by simp [inside]))
  | record p blockno data checked room =>
    have same : Protocol { s with
        lh := if blockno ∈ s.lh then s.lh else s.lh ++ [blockno]
        cache := Function.update s.cache blockno (some ⟨data, true⟩) } :=
      protocol.congr rfl rfl rfl fun busy => ⟨busy, rfl⟩
    exact same.setStatus (by simp [checked, Status.active]) (by simp [checked]) (by simp)
      (protocol.booted_of_ne_outside (p := p) (by simp [checked]))
  | endPanic p inside committing =>
    obtain ⟨free, -⟩ := protocol.idle (p := p) (by rw [inside]; rfl)
    simp [free] at committing
  | endCommit p inside free last =>
    have counted : ActiveCount (Function.update s.status p .committer) (s.outstanding - 1) :=
      protocol.count.leave (by rw [inside]; rfl) rfl
    have nobody : ∀ q, s.status q ≠ .committer := by
      intro q committer
      have committing := protocol.committer.mpr ⟨q, committer⟩
      simp [free] at committing
    have only : ∀ q, Function.update s.status p .committer q = .committer ↔ q = p := by
      intro q
      by_cases same : q = p
      · simp [same]
      · simp [same, nobody]
    constructor
    · exact counted
    · simp [State.setStatus, only]
    · intro q r first second
      rw [(only q).mp first, (only r).mp second]
    · exact fun _ => last
    · exact fun _ => .inl rfl
    · simp only [State.setStatus]
      split <;> simp [Phase.recovering]
  | endOp p inside free others =>
    obtain ⟨-, idle⟩ := protocol.idle (p := p) (by rw [inside]; rfl)
    have counted : ActiveCount (Function.update s.status p .outside) (s.outstanding - 1) :=
      protocol.count.leave (by rw [inside]; rfl) rfl
    exact (protocol.bracket counted free idle (by simp)).wakeup
  | writeLog tail blockno phase entry =>
    refine protocol.congr ?_ ?_ ?_ fun _ => ⟨by simp [phase], by simp [phase, Phase.recovering]⟩ <;>
      simp [writeLogBlock, bwrite]
  | commit tail phase entry =>
    refine protocol.congr ?_ ?_ ?_ fun _ => ⟨by simp [phase], by simp [phase, Phase.recovering]⟩ <;>
      simp [writeHeadBlock, bwrite]
  | install recovering tail blockno phase entry =>
    refine protocol.congr ?_ ?_ ?_ fun _ => ⟨by simp [phase], by simp [phase, Phase.recovering]⟩ <;>
      simp [installBlock, bwrite]
  | erase recovering tail phase entry =>
    refine protocol.congr ?_ ?_ ?_ fun busy => absurd rfl busy <;>
      simp [writeHeadBlock, bwrite]
  | finish p committer idle =>
    have nobody : ∀ q, Function.update s.status p .outside q ≠ .committer := by
      intro q
      by_cases same : q = p
      · simp [same]
      · simp only [Function.update_of_ne same]
        exact fun other => same (protocol.single q p other committer)
    have done : Protocol ({ s with committing := false }.setStatus p .outside) := by
      constructor
      · exact protocol.count.update (by rw [committer]; rfl)
      · simp [State.setStatus, nobody]
      · exact fun q r first => absurd first (nobody q)
      · simp [State.setStatus]
      · simp [State.setStatus, idle]
      · simp [State.setStatus, idle, Phase.recovering]
    exact done.wakeup
  | load blockno => exact protocol.congr (by simp) (by simp) (by simp) (by simp)
  | crash => exact boot_protocol s.disk
  | readHead lh phase found =>
    refine protocol.congr ?_ ?_ ?_ fun _ => ⟨by simp [phase], by simp [phase, Phase.recovering]⟩ <;>
      simp

end State

end Xv6.Log
