import Xv6.Ide.Service

/-!
# The interrupt driven driver refines the synchronous one

The invariant of the queue and the disk is kept by every step of every process and of
the disk.  Hence in every interleaving requests are served in the order in which they
came, nobody sleeps on a buffer that is ready, and what the calls return is what the
synchronous driver gives when it executes the requests in the order of service.
-/

namespace Xv6.Ide

open Sync Linked Relation Function
open Buffer (Buf Index nbuf drive)

variable {Thread : Type} {d d' : State Thread} {b : Index} {t : Thread}
variable {disksize : UInt32} {image : Disk} {q rest : List Index} {latch : Block}

/-! ## Moves under the lock -/

/-- `b` is appended to the queue. -/
theorem Queued.append (queued : Queued [] q d) (called : d.stage b = .called t)
    (appended : d.append b = some d') :
    d' = { d with qnext := d'.qnext, idequeue := d'.idequeue } ∧
      Chain d'.qnext d'.idequeue (q ++ [b]) := by
  have fresh : b ∉ q := by
    intro member
    obtain ⟨t', waiting⟩ := (queued.mem b).mp member
    rw [called] at waiting
    cases waiting
  have chain : Chain (update d.qnext b none) d.idequeue q :=
    queued.chain.update_of_notMem fresh
  unfold State.append at appended
  cases head : d.idequeue with
  | none =>
    rw [head] at appended chain
    cases appended
    have empty : q = [] := chain.eq_nil_iff.mpr rfl
    subst empty
    exact ⟨rfl, rfl, update_self ..⟩
  | some first =>
    rw [head] at appended chain
    simp only [Option.map_eq_some_iff] at appended
    obtain ⟨last, found, rfl⟩ := appended
    obtain ⟨front, z, rfl⟩ : ∃ front z, q = front ++ [z] := by
      rcases List.eq_nil_or_concat q with rfl | ⟨front, z, same⟩
      · cases chain
      · exact ⟨front, z, by rw [same, List.concat_eq_append]⟩
    have bound := chain.length_le_card
    rw [List.length_append, List.length_singleton, Fintype.card_fin] at bound
    have last_eq := lastNode_eq_some chain bound
    obtain rfl := Option.some.inj (last_eq.symm.trans found)
    refine ⟨rfl, ?_⟩
    rw [List.append_assoc]
    have alone : Chain (update d.qnext b none) (some b) [b] :=
      ⟨rfl, update_self ..⟩
    apply chain.append alone
    · intro same
      rw [List.mem_singleton] at same
      exact fresh (List.mem_append_right front (by rw [same]; exact List.mem_singleton_self b))

theorem Steady.append (steady : Steady disksize image [] q false d) (called : d.stage b = .called t)
    (accepted : Accepted (d.buf b)) (appended : d.append b = some d') :
    (Point.startTest b).Assertion disksize image
      ({ d' with arrived := d'.arrived ++ [d'.request b] }.setStage b (.queued t)) := by
  obtain ⟨same, chain⟩ := steady.toQueued.append called appended
  obtain ⟨pending, arrived, waiting⟩ := steady.pending
  have here : update d.stage b (.queued t) b = .queued t := update_self ..
  have done {b' : Index} {t' : Thread} (done : update d.stage b (.queued t) b' = .done t') :
      d.stage b' = .done t' := by
    by_cases same : b' = b
    · subst same
      cases here.symm.trans done
    · rwa [update_of_ne same] at done
  rw [same]
  refine ⟨q, ⟨steady.quiet, ⟨pending ++ [d.request b], ?_, fun r member => ?_⟩,
    fun finished => steady.complete (done finished), steady.drive,
    fun ok finished => steady.answered ok (done finished), fun r member => ?_⟩,
    ⟨chain, fun b' => ?_, (fun _ member => by cases member), fun b' member => ?_⟩, ?_⟩
  · change d.arrived ++ [d.request b] = _
    rw [arrived, List.append_assoc]
    rfl
  · change ∃ t', update d.stage b (.queued t) r.1 = .queued t'
    rcases List.mem_append.mp member with old | new
    · obtain ⟨t', stage⟩ := waiting r old
      have other : r.1 ≠ b := by
        intro same
        rw [same, called] at stage
        cases stage
      exact ⟨t', by rw [update_of_ne other, stage]⟩
    · cases List.mem_singleton.mp new
      exact ⟨t, here⟩
  · rcases List.mem_append.mp member with old | new
    · exact steady.accepted r old
    · cases List.mem_singleton.mp new
      exact accepted
  · change b' ∈ q ++ [b] ↔ ∃ t', update d.stage b (.queued t) b' = .queued t'
    by_cases same : b' = b
    · subst same
      simp
    · rw [update_of_ne same, List.mem_append, List.mem_singleton]
      simpa [same] using steady.mem b'
  · rcases List.mem_append.mp member with old | new
    · exact steady.incomplete b' old
    · cases List.mem_singleton.mp new
      exact accepted.2
  · have disk := steady.disk
    cases q with
    | nil =>
      refine ⟨disk.ready, disk.line, ?_⟩
      change d.arrived ++ [d.request b] = d.served ++ [d.request b]
      rw [disk.pending]
      simp
    | cons first rest =>
      rcases disk with executing | finished
      · refine .inl ⟨executing.busy, executing.line, executing.current, executing.range, ?_⟩
        change d.arrived ++ [d.request b] = d.served ++ (first :: (rest ++ [b])).map d.request
        rw [executing.pending]
        simp
      · refine .inr ⟨finished.ready, finished.line, finished.last, ?_⟩
        change d.arrived ++ [d.request b] = d.served ++ (rest ++ [b]).map d.request
        rw [finished.pending]
        simp

/-- `idestart` on the first buffer of the queue. -/
theorem Steady.start (steady : Steady disksize image [] (b :: rest) true d)
    (range : (d.buf b).blockno < fssize) :
    Inv disksize image
      { d with controller := .busy (command (d.buf b)), current := some (d.request b) } :=
  ⟨b :: rest, steady.toCore.touch fun _ => steady.disk.line,
    ⟨steady.chain, steady.mem, steady.off, steady.incomplete⟩,
    .inl ⟨rfl, steady.disk.line, rfl, range, steady.disk.pending⟩⟩

/-- `ideintr` takes the first buffer off the queue. -/
theorem Inv.head (inv : Inv disksize image d) (line : d.line = .taken t) :
    ∃ b, d.idequeue = some b ∧ (Point.intrRead b).Assertion disksize image
      { d with line := .low, idequeue := d.qnext b } := by
  obtain ⟨_, steady⟩ := inv
  obtain ⟨-, b, rest, rfl, ⟨latch, ready, answered⟩, -, -, pending⟩ :=
    steady.finished (by simp [line])
  have nodup := List.nodup_cons.mp steady.chain.nodup
  refine ⟨b, steady.chain.1, rest, latch, ⟨steady.toCore.touch fun _ => rfl,
    ⟨steady.chain.2, steady.mem, ?_, ?_⟩, ⟨latch, ready⟩, rfl, pending⟩, ready, answered⟩
  · intro b' member
    cases List.mem_singleton.mp member
    exact nodup.1
  · exact fun b' member => steady.incomplete b' (List.mem_cons_of_mem b member)

section

variable (steady : Steady disksize image [b] rest true d)
include steady

/-- The data of a buffer that is off the queue may be changed. -/
theorem Steady.setBuf (x : Buf) : Steady disksize image [b] rest true (d.setBuf b x) := by
  obtain ⟨t, waiting⟩ := (steady.mem b).mp (List.mem_cons_self ..)
  have done {b' : Index} {t' : Thread} (done : d.stage b' = .done t') :
      (d.setBuf b x).buf b' = d.buf b' := by
    apply update_of_ne
    rintro rfl
    cases waiting.symm.trans done
  have kept (b' : Index) (member : b' ∈ rest) : (d.setBuf b x).buf b' = d.buf b' := by
    apply update_of_ne
    rintro rfl
    exact steady.off b' (List.mem_singleton_self b') member
  refine ⟨⟨steady.quiet, steady.pending, fun finished => ?_, steady.drive, fun ok finished => ?_,
    steady.accepted⟩, ⟨steady.chain, steady.mem, steady.off, fun b' member => ?_⟩,
    steady.disk.ready, steady.disk.line, ?_⟩
  · rw [done finished]
    exact steady.complete finished
  · rw [done finished]
    exact steady.answered ok finished
  · rw [kept b' member]
    exact steady.incomplete b' member
  · rw [State.map_request kept]
    exact steady.disk.pending

/-- `ideintr` marks the buffer as complete. -/
theorem Steady.done (completed : Complete (d.buf b))
    (answered : Answered disksize image b (d.buf b) d) (t : Thread) :
    (Point.intrWake b).Assertion disksize image (d.setStage b (.done t)) := by
  have off : b ∉ rest := steady.off b (List.mem_singleton_self b)
  have elsewhere {b' : Index} (other : b' ≠ b) : (d.setStage b (.done t)).stage b' = d.stage b' :=
    update_of_ne other _ _
  have here : (d.setStage b (.done t)).stage b = .done t := update_self ..
  refine ⟨rest, ⟨steady.quiet, ⟨rest.map d.request, steady.disk.pending, ?_⟩, ?_, steady.drive, ?_,
    steady.accepted⟩, ⟨steady.chain, ?_, (fun _ member => by cases member), steady.incomplete⟩,
    steady.disk.ready, steady.disk.line, steady.disk.pending⟩
  · intro r member
    obtain ⟨b', inside, rfl⟩ := List.mem_map.mp member
    have other : b' ≠ b := by
      rintro rfl
      exact off inside
    change ∃ t', (d.setStage b (.done t)).stage b' = .queued t'
    rw [elsewhere other]
    exact (steady.mem b').mp (List.mem_cons_of_mem b inside)
  · intro b' t' done
    by_cases same : b' = b
    · subst same
      exact completed
    · rw [elsewhere same] at done
      exact steady.complete done
  · intro disk answers b' t' ok done
    by_cases same : b' = b
    · subst same
      exact lastAnswer_of_getLast? (answered disk answers ok)
    · rw [elsewhere same] at done
      exact steady.answered ok done
  · intro b'
    by_cases same : b' = b
    · subst same
      rw [here]
      simpa using off
    · rw [elsewhere same, ← steady.mem b']
      simp [same]

end

variable {next point other : Point} {t' : Thread}

theorem Move.assertion (move : Move t d point d' next) (inside : point.outside = false)
    (fact : point.Fact t d) (known : point.Assertion disksize image d) :
    next.Assertion disksize image d' := by
  cases move with
  | enters | enterPanic | enter | leave => cases inside
  | append appended =>
    obtain ⟨q, steady⟩ := known
    exact steady.append fact.1 fact.2 appended
  | @first b first =>
    obtain ⟨q, steady⟩ := known
    cases q with
    | nil => exact steady
    | cons other rest =>
      -- The chain has no repetitions, so the last buffer is not the first of several.
      cases first.symm.trans steady.chain.1
      have nodup := steady.chain.nodup
      simp at nodup
  | @notFirst b notFirst =>
    obtain ⟨q, steady⟩ := known
    cases q with
    | nil => exact (notFirst steady.chain.1).elim
    | cons other rest => exact ⟨_, steady⟩
  | startPanic starts =>
    cases starts with
    | first => exact ⟨known.toCore, known.disk.ready⟩
    | next =>
      obtain ⟨rest, steady⟩ := known
      exact ⟨steady.toCore, steady.disk.ready⟩
  | start starts range ready =>
    cases starts with
    | first => exact Steady.start known range
    | next =>
      obtain ⟨rest, steady⟩ := known
      exact steady.start range
  | complete => exact known
  | wait incomplete =>
    refine ⟨known, t, fact.resolve_right fun done => ?_⟩
    obtain ⟨q, steady⟩ := known
    exact incomplete (steady.complete done)
  | spurious empty =>
    obtain ⟨b, head, -⟩ := Inv.head known fact
    cases empty.symm.trans head
  | head first =>
    obtain ⟨b, head, assertion⟩ := Inv.head known fact
    cases first.symm.trans head
    exact assertion
  | @written b dirty =>
    obtain ⟨rest, latch, steady, -, answered⟩ := known
    refine ⟨rest, steady, ?_⟩
    have same : finish latch (d.buf b) = { d.buf b with valid := true, dirty := false } := by
      simp [finish, dirty]
    rwa [same] at answered
  | @insl b latch clean ready =>
    obtain ⟨rest, latch', steady, ready', answered⟩ := known
    cases ready.symm.trans ready'
    refine ⟨rest, steady.setBuf _, ?_⟩
    have here : (d.setBuf b { d.buf b with data := latch }).buf b =
        { d.buf b with data := latch } := update_self ..
    have same : finish latch (d.buf b) =
        { (d.setBuf b { d.buf b with data := latch }).buf b with
          valid := true, dirty := false } := by
      rw [here]
      simp [finish, clean]
    rwa [same] at answered
  | @flags b stage owner =>
    obtain ⟨rest, steady, answered⟩ := known
    obtain ⟨t', waiting⟩ := (steady.mem b).mp (List.mem_cons_self ..)
    obtain rfl := owner t' waiting
    have here : (d.setBuf b { d.buf b with valid := true, dirty := false }).buf b =
        { d.buf b with valid := true, dirty := false } := update_self ..
    refine (steady.setBuf _).done ?_ ?_ t'
    · rw [here]
      exact ⟨rfl, rfl⟩
    · rw [here]
      exact answered
  | next head =>
    obtain ⟨q, steady⟩ := known
    cases q with
    | nil => cases head.symm.trans (chain_nil_iff.mp steady.chain)
    | cons first rest =>
      cases head.symm.trans steady.chain.1
      exact ⟨rest, steady⟩
  | last empty =>
    obtain ⟨q, steady⟩ := known
    obtain rfl : q = [] := steady.chain.eq_nil_iff.mpr empty
    exact ⟨[], steady.toCore, steady.toQueued, steady.disk⟩

/-! ## Moves without the lock -/

theorem Move.outside (move : Move t d point d' next) (outside : point.outside = true)
    (fact : point.Fact t d) (other : Point) (known : other.Assertion disksize image d) :
    other.Assertion disksize image d' := by
  cases move with
  | enters enters =>
    cases enters with
    | @call b x unused busy =>
      have change : Private b d ((d.setBuf b x).setStage b (.called t)) := by
        refine ⟨fun b' other => update_of_ne other _ _,
          fun b' other => update_of_ne other _ _, fun t' => ?_, fun t' => ?_, rfl⟩
        · rw [unused]
          simp
        · change update d.stage b (.called t) b ≠ _ ∧
            update d.stage b (.called t) b ≠ _
          rw [update_self]
          simp
      exact change.assertion known
    | interrupt raised => exact known.take raised t
  | enterPanic | enter => exact known
  | @leave b =>
    have done : d.stage b = .done t := fact
    have change : Private b d (d.setStage b .unused) := by
      refine ⟨fun _ _ => rfl, fun b' other => update_of_ne other _ _, fun t' => ?_,
        fun t' => ?_, rfl⟩
      · rw [done]
        simp
      · change update d.stage b .unused b ≠ _ ∧ update d.stage b .unused b ≠ _
        rw [update_self]
        simp
    exact change.assertion known
  | startPanic starts | start starts => cases starts <;> cases outside
  | _ => cases outside

/-! ## What the processes know -/

theorem Move.fact (move : Move t d point d' next) (fact : point.Fact t d)
    (known : point.outside = false → point.Assertion disksize image d) : next.Fact t d' := by
  cases move with
  | enters enters =>
    cases enters with
    | call => exact update_self ..
    | interrupt => rfl
  | enter busy incomplete => exact ⟨fact, busy, incomplete⟩
  | append => exact .inl (update_self ..)
  | first | notFirst | wait => exact fact
  | start starts =>
    cases starts with
    | first => exact fact
    | next => trivial
  | complete completed =>
    refine fact.resolve_left fun waiting => ?_
    obtain ⟨q, steady⟩ := known rfl
    exact steady.incomplete _ ((steady.mem _).mpr ⟨t, waiting⟩) completed
  | enterPanic | startPanic | leave | spurious | head | written | insl | flags | next
  | last => trivial

/-- A change of the stage and the contents of a buffer that another process owns. -/
theorem Point.Fact.elsewhere (fact : other.Fact t' d) (line : d'.line = d.line)
    (buf : ∀ b' ≠ b, d'.buf b' = d.buf b') (stage : ∀ b' ≠ b, d'.stage b' = d.stage b')
    (owner : d.stage b ≠ .called t') (queued : d.stage b = .queued t' → d'.stage b = .done t')
    (done : d.stage b ≠ .done t') : other.Fact t' d' := by
  have keeps {b' : Index} {value : Stage Thread} (is : d.stage b' = value)
      (not : d.stage b ≠ value) : d'.stage b' = value ∧ d'.buf b' = d.buf b' := by
    have different : b' ≠ b := by
      rintro rfl
      exact not is
    exact ⟨(stage b' different).trans is, buf b' different⟩
  have called {b' : Index} (is : d.stage b' = .called t') := keeps is owner
  have finished {b' : Index} (is : d.stage b' = .done t') := keeps is done
  have waits {b' : Index} (is : d.stage b' = .queued t' ∨ d.stage b' = .done t') :
      d'.stage b' = .queued t' ∨ d'.stage b' = .done t' := by
    rcases is with is | is
    · by_cases same : b' = b
      · subst same
        exact .inr (queued is)
      · exact .inl ((stage b' same).trans is)
    · exact .inr (finished is).1
  cases other with
  | enter b' => exact (called fact).1
  | lock b' | append b' =>
    obtain ⟨is, incomplete⟩ := fact
    refine ⟨(called is).1, ?_⟩
    rw [(called is).2]
    exact incomplete
  | startTest | start | test | sleep => exact waits fact
  | unlock | returned => exact (finished fact).1
  | intrLock | intrHead => exact line.trans fact
  | _ => trivial

/-- The moves of one process keep what another one knows. -/
theorem Move.keeps (move : Move t d point d' next) (fact : point.Fact t d)
    (known : point.outside = false → point.Assertion disksize image d) (different : t' ≠ t)
    (theirs : other.Fact t' d) : other.Fact t' d' := by
  have buf {b : Index} {x : Buf} (b' : Index) (away : b' ≠ b) : (d.setBuf b x).buf b' = d.buf b' :=
    update_of_ne away _ _
  have taken (line : d.line = .taken t) : other.Fact t' { d with line := .low } := by
    cases other with
    | intrLock | intrHead =>
      have wrong := line.symm.trans theirs
      cases wrong
      exact (different rfl).elim
    | _ => exact theirs
  cases move with
  | enters enters =>
    cases enters with
    | @call b x unused busy =>
      refine theirs.elsewhere (b := b) ?_ ?_ ?_ ?_ ?_ ?_
      · rfl
      · exact buf
      · exact fun b' away => update_of_ne away _ _
      · simp [unused]
      · simp [unused]
      · simp [unused]
    | interrupt raised =>
      cases other with
      | intrLock | intrHead =>
        have wrong := raised.symm.trans theirs
        cases wrong
      | _ => exact theirs
  | @append b d₁ appended =>
    have called : d.stage b = .called t := fact.1
    obtain ⟨q, steady⟩ := known rfl
    obtain ⟨same, -⟩ := steady.toQueued.append called appended
    rw [same]
    refine theirs.elsewhere (b := b) ?_ ?_ ?_ ?_ ?_ ?_
    · rfl
    · exact fun _ _ => rfl
    · exact fun b' away => update_of_ne away _ _
    · simp [called, Ne.symm different]
    · simp [called]
    · simp [called]
  | start =>
    cases other <;> exact theirs
  | @leave b =>
    have done : d.stage b = .done t := fact
    refine theirs.elsewhere (b := b) ?_ ?_ ?_ ?_ ?_ ?_
    · rfl
    · exact fun _ _ => rfl
    · exact fun b' away => update_of_ne away _ _
    · simp [done]
    · simp [done]
    · simp [done, Ne.symm different]
  | spurious => exact taken fact
  | head =>
    have kept := taken fact
    cases other <;> exact kept
  | @insl b latch =>
    obtain ⟨rest, -, steady, -⟩ := known rfl
    obtain ⟨owner, waiting⟩ := (steady.mem b).mp (List.mem_cons_self ..)
    cases other with
    | lock b' | append b' =>
      obtain ⟨is, incomplete⟩ := theirs
      refine ⟨is, ?_⟩
      rw [buf]
      · exact incomplete
      · rintro rfl
        rw [waiting] at is
        cases is
    | _ => exact theirs
  | @flags b stage owner =>
    obtain ⟨rest, steady, -⟩ := known rfl
    obtain ⟨t'', waiting⟩ := (steady.mem b).mp (List.mem_cons_self ..)
    obtain rfl := owner t'' waiting
    refine theirs.elsewhere (b := b) ?_ ?_ ?_ ?_ ?_ ?_
    · rfl
    · exact buf
    · exact fun b' away => update_of_ne away _ _
    · simp [waiting]
    · intro same
      rw [waiting] at same
      cases same
      exact update_self ..
    · simp [waiting]
  | enterPanic | enter | first | notFirst | startPanic | complete | wait | written | next
  | last => exact theirs

/-! ## The lock protects the driver -/

theorem keeps : (client Thread).Keeps (Inv disksize image)
    (fun point d => point.Assertion disksize image d) (fun t point d => point.Fact t d)
    (fun _ _ _ => True) where
  carries t point := by
    cases point with
    | sleep => exact fun _ => ⟨And.left, id⟩
    | lock | unlock | intrLock | intrWake | intrUnlock => exact fun _ => id
    | _ => trivial
  compute outcome inside _ fact known := (move_of_outcome outcome).assertion inside fact known
  outside outcome outside fact :=
    have all := (move_of_outcome outcome).outside outside fact
    ⟨all .intrUnlock, all⟩
  follow {t point _ _} follows fact := by
    change (op t point).next? = _ at follows
    cases point <;> cases follows <;> exact fact
  establish outcome known fact := (move_of_outcome outcome).fact fact known
  keep outcome known fact different theirs :=
    (move_of_outcome outcome).keeps fact known different theirs

/-! ## Wakeups -/

/-- The buffer has left the queue, or never was on it. -/
def State.Released (b : Index) (d : State Thread) : Prop :=
  ∀ t, d.stage b ≠ .queued t

/-- What is known at each point. -/
def Known (disksize : UInt32) (image : Disk) (t : Thread) (point : Point) (d : State Thread) :
    Prop :=
  point.Fact t d ∧ (point.outside = false → point.Assertion disksize image d)

/-- A buffer is released by `ideintr` only, which wakes its process next. -/
theorem Move.released (move : Move t d point d' next) (fact : point.Fact t d)
    (known : point.outside = false → point.Assertion disksize image d) (before : ¬ d.Released b)
    (after : d'.Released b) : point = .intrFlags b ∧ next = .intrWake b := by
  obtain ⟨owner, waiting⟩ : ∃ owner, d.stage b = .queued owner := by
    by_contra none
    exact before fun owner waiting => none ⟨owner, waiting⟩
  have changed {b' : Index} {stage : Stage Thread}
      (same : ∀ t, update d.stage b' stage b ≠ .queued t) : b' = b := by
    by_contra other
    apply same owner
    rw [update_of_ne (Ne.symm other), waiting]
  cases move with
  | enters enters =>
    cases enters with
    | call unused =>
      obtain rfl := changed after
      rw [waiting] at unused
      cases unused
    | interrupt => exact (before after).elim
  | append appended =>
    obtain ⟨q, steady⟩ := known rfl
    obtain ⟨same, -⟩ := steady.toQueued.append fact.1 appended
    rw [same] at after
    obtain rfl := changed after
    exact (after t (update_self ..)).elim
  | leave =>
    obtain rfl := changed after
    have done := waiting.symm.trans fact
    cases done
  | flags =>
    obtain rfl := changed after
    exact ⟨rfl, rfl⟩
  | enterPanic | enter | first | notFirst | startPanic | start | complete | wait | spurious | head
  | written | insl | next | last => exact (before after).elim

theorem guards (b : Index) : (client Thread).program.Guards idelock b (State.Released b)
    fun ℓ => Known disksize image ℓ.proc ℓ.point := by
  refine Client.guards (fun {t _ point next _ d} _ sleeps known => ?_)
    fun outcome known before holds => ?_
  · change op t point = _ at sleeps
    cases point <;> cases sleeps
    obtain ⟨-, owner, waiting⟩ := known.2 rfl
    exact fun released => released owner waiting
  · have move := move_of_outcome outcome
    obtain ⟨rfl, rfl⟩ := move.released known.1 known.2 before holds
    exact ⟨rfl, _, rfl⟩

/-! ## All interleavings -/

section

variable {Cpu : Type} [DecidableEq Cpu] {n : Nat}
variable {buf : Index → Buf} {havedisk1 : Bool} {first : Block} {drives : UInt32 → Disk}
variable {s s' : Kernel Cpu n}

omit [DecidableEq Cpu] in
theorem external_serve (c : Command) (latch : Block) :
    External s { s with data := s.data.serve c latch } where
  ctl := rfl
  chan := rfl
  cur := rfl
  sched := rfl
  holder := rfl
  state _ := .inl rfl

theorem Inv.core (inv : Inv disksize image d) : Core disksize image d := by
  obtain ⟨q, steady⟩ := inv
  exact steady.toCore

theorem Point.Assertion.core (known : point.Assertion disksize image d) :
    Core disksize image d := by
  cases point with
  | sleep => exact known.1.core
  | start => exact known.toCore
  | panic => exact known.1
  | intrRead =>
    obtain ⟨_, _, steady, -⟩ := known
    exact steady.toCore
  | intrFlags =>
    obtain ⟨_, steady, -⟩ := known
    exact steady.toCore
  | _ =>
    obtain ⟨_, steady⟩ := known
    exact steady.toCore

/-- The driver starts with an empty queue and a resting disk. -/
theorem Inv.fresh :
    Inv disksize (drives 1) (State.fresh buf havedisk1 first drives : State Thread) := by
  refine ⟨[], ⟨?_, ⟨[], rfl, ?_⟩, ?_, ?_, ?_, ?_⟩, ⟨rfl, ?_, ?_, ?_⟩, ⟨first, rfl⟩, rfl, rfl⟩
  · exact fun _ => rfl
  · exact fun r member => by cases member
  · exact fun done => by cases done
  · intro disk answers ok
    cases ok
    rfl
  · exact fun _ done => by cases done
  · exact fun r member => by cases member
  · exact fun b => iff_of_false List.not_mem_nil fun ⟨_, wrong⟩ => by cases wrong
  · exact fun b member => by cases member
  · exact fun b member => by cases member

/-- In every run the lock is exclusive and protects the driver. -/
theorem monitored_of_run (disksize : UInt32)
    (run : ReflTransGen Step (start buf havedisk1 first drives) s) :
    Exclusive (client (Fin n)).program s ∧ Monitored (client (Fin n)).program ()
      (Inv disksize (drives 1))
      (fun ℓ d => ℓ.point.Assertion disksize (drives 1) d)
      (fun t ℓ d => ℓ.proc = t ∧ ℓ.point.Fact t d) s := by
  induction run with
  | refl =>
    exact ⟨Exclusive.boot _ fun _ => rfl, Monitored.boot Inv.fresh fun t => ⟨rfl, trivial⟩⟩
  | tail _ step ih =>
    obtain ⟨exclusive, monitored⟩ := ih
    cases step with
    | code step =>
      exact ⟨exclusive.step step, monitored.step keeps.protects exclusive (fun _ => trivial) step⟩
    | disk latch busy =>
      have core : Core disksize (drives 1) _ :=
        monitored.always exclusive Inv.core fun known => known.core
      refine ⟨exclusive.external (external_serve _ latch),
        monitored.external (external_serve _ latch)
          (fun inv => (show Point.intrUnlock.Assertion _ _ _ from inv).serve busy latch)
          (fun ℓ known => known.serve busy latch) fun t ℓ fact => ?_⟩
      refine ⟨fact.1, ?_⟩
      have facts := fact.2
      generalize ℓ.point = point at facts ⊢
      cases point with
      | intrLock | intrHead =>
        have low := (core.quiet busy).symm.trans facts
        cases low
      | enter | lock | append | startTest | start | test | sleep | unlock | returned =>
        simpa only [Point.Fact, State.serve_stage, State.serve_buf] using facts
      | _ => trivial

/-- The points of the running processes are known. -/
theorem known_of_run {p : Fin n} {ℓ : At (Fin n) Point}
    (run : ReflTransGen Step (start buf havedisk1 first drives) s) (point : s.ctl p = .run ℓ) :
    Known disksize (drives 1) ℓ.proc ℓ.point s.data := by
  obtain ⟨exclusive, monitored⟩ := monitored_of_run disksize run
  obtain ⟨same, fact⟩ := point ▸ monitored.facts p
  obtain rfl : ℓ.proc = p := same
  exact ⟨fact, fun inside =>
    monitored.assertion_of_run exclusive point (Client.mem_held.mpr inside)⟩

/-- In every run every buffer that is released is announced. -/
theorem heard_of_run (run : ReflTransGen Step (start buf havedisk1 first drives) s) (b : Index) :
    Heard (client (Fin n)).program idelock b (State.Released b) s := by
  induction run with
  | refl => exact Heard.boot _ _ _
  | tail earlier step ih =>
    have later := earlier.tail step
    have exclusive := (monitored_of_run 0 earlier).1
    cases step with
    | code step =>
      have known {s : Kernel Cpu n} (run : ReflTransGen Step (start buf havedisk1 first drives) s)
          {p ℓ} (point : s.ctl p = .run ℓ) : Known 0 (drives 1) ℓ.proc ℓ.point s.data :=
        known_of_run run point
      exact ih.step (guards b) List.mem_finRange exclusive (known earlier) (known later) step
    | disk latch busy =>
      refine ih.external (external_serve _ latch) fun released t => ?_
      rw [← State.serve_stage _ _ latch]
      exact released t

/-- A processor takes the interrupt only at the beginning of `ideintr`. -/
theorem Move.taken (move : Move t d point d' next) (line : d'.line = .taken t') :
    t' = t ∧ next = .intrLock ∨ d.line = .taken t' ∧ point.handling = false := by
  cases move with
  | enters enters =>
    cases enters with
    | call => exact .inr ⟨line, rfl⟩
    | interrupt =>
      cases line
      exact .inl ⟨rfl, rfl⟩
  | @append b d₁ appended =>
    refine .inr ⟨?_, rfl⟩
    unfold State.append at appended
    split at appended
    · cases appended
      exact line
    · obtain ⟨last, -, rfl⟩ := Option.map_eq_some_iff.mp appended
      exact line
  | spurious | head => cases line
  | startPanic starts | start starts => cases starts <;> exact .inr ⟨line, rfl⟩
  | _ => exact .inr ⟨line, rfl⟩

/-- The process that has taken the interrupt is in `ideintr`, before it has looked at the queue. -/
theorem handling_of_run {t : Fin n} (run : ReflTransGen Step (start buf havedisk1 first drives) s)
    (taken : s.data.line = .taken t) : (s.ctl t).loc.point.handling = true := by
  induction run with
  | refl => cases taken
  | @tail s s' earlier step ih =>
    cases step with
    | disk latch busy => cases (State.serve_line ..).symm.trans taken
    | code step =>
      have split : Passive (fun ℓ : At (Fin n) Point => ℓ.point.handling) s s' ∨
          ∃ p ℓ next, Computes (client (Fin n)).program p s s' ℓ next := by
        apply step.passive_or_computes
        rintro ⟨q, point⟩ ⟨q', next⟩ follows
        have follows : (op q point).next? = some next := (Op.of_next? follows).2
        cases point <;> cases follows <;> rfl
      rcases split with passive | ⟨p, ℓ, next, computation⟩
      · rw [passive.data] at taken
        exact (passive.track t).trans (ih taken)
      · obtain ⟨outcomes, code, outcome⟩ := computation.outcome
        have move := move_of_outcome (Op.of_compute code outcome).2
        have here : ℓ.proc = p := by
          have fact := ((monitored_of_run 0 earlier).2.facts p).1
          rwa [computation.point] at fact
        rw [computation.ctl]
        by_cases same : t = p
        · subst same
          rw [update_self]
          rcases move.taken taken with ⟨-, entered⟩ | ⟨before, elsewhere⟩
          · change next.point.handling = true
            rw [entered]
            rfl
          · have handling := ih before
            rw [computation.point] at handling
            cases elsewhere.symm.trans handling
        · rw [update_of_ne same]
          exact ih (move.taken taken |>.resolve_left fun own => same (own.1.trans here)).1

/-- The disk executes the command of `b`, or it has executed it and the interrupt is raised or is
being handled by a process that has not yet looked at the queue. -/
def Works (s : Kernel Cpu n) (b : Index) : Prop :=
  s.data.controller = .busy (command (s.data.buf b)) ∧ s.data.line = .low ∨
    (∃ latch, s.data.controller = .ready latch) ∧ s.data.served.getLast? = some (s.data.request b) ∧
      (s.data.line = .raised ∨
        ∃ t, s.data.line = .taken t ∧ (s.ctl t).loc.point.handling = true)

/-- The disk executes nothing, and no interrupt is pending. -/
def State.Rests (d : State Thread) : Prop :=
  (∃ latch, d.controller = .ready latch) ∧ d.line = .low

/-- What the driver promises, when the disk had the contents `image` in the beginning. -/
structure Serves (disksize : UInt32) (image : Disk) (s : Kernel Cpu n) : Prop where
  /-- A buffer is on the queue once, and the disk works on the first one. -/
  queue : s.holder idelock = none → ∃ q, Chain s.data.qnext s.data.idequeue q ∧ q.Nodup ∧
    (q = [] → s.data.Rests) ∧ ∀ b rest, q = b :: rest → Works s b
  /-- Requests are served in the order in which they came. -/
  order : s.data.served <+: s.data.arrived
  /-- Nobody sleeps on a buffer that is ready. -/
  awake : s.holder idelock = none → ∀ t b, Complete (s.data.buf b) →
    ¬ (s.state t = .sleeping ∧ s.chan t = some b)
  /-- The disk and what the calls return are what the synchronous driver gives. -/
  serial : (∀ r ∈ s.data.served, r.2.dev = 1 ∧ r.2.blockno < disksize) →
    ∃ answers, serial disksize image s.data.served = .ok (s.data.drives 1, answers) ∧
      ∀ t b, (s.ctl t).loc = ⟨t, .returned b⟩ → lastAnswer answers b = some (s.data.buf b)

/-- The interrupt driven driver refines the synchronous one in every interleaving. -/
theorem serves_of_run (disksize : UInt32)
    (run : ReflTransGen Step (start buf havedisk1 first drives) s) :
    Serves disksize (drives 1) s := by
  obtain ⟨exclusive, monitored⟩ := monitored_of_run disksize run
  have core : Core disksize (drives 1) s.data :=
    monitored.always exclusive Inv.core fun known => known.core
  obtain ⟨rest, arrived, -⟩ := core.pending
  refine ⟨fun free => ?_, ⟨rest, arrived.symm⟩, fun free t b completed => ?_, fun inDisk => ?_⟩
  · obtain ⟨q, steady⟩ := monitored.free free
    refine ⟨q, steady.chain, steady.chain.nodup, ?_, ?_⟩
    · rintro rfl
      exact ⟨steady.disk.ready, steady.disk.line⟩
    · rintro b rest rfl
      rcases steady.disk with executing | finished
      · exact .inl ⟨executing.busy, executing.line⟩
      · obtain ⟨latch, ready, -⟩ := finished.ready
        refine .inr ⟨⟨latch, ready⟩, finished.last, ?_⟩
        cases line : s.data.line with
        | low => exact (finished.line line).elim
        | raised => exact .inl rfl
        | taken t => exact .inr ⟨t, rfl, handling_of_run run line⟩
  · obtain ⟨q, steady⟩ := monitored.free free
    refine (heard_of_run run b).not_sleeping exclusive free ?_ t
    intro owner waiting
    exact steady.incomplete b ((steady.mem b).mpr ⟨owner, waiting⟩) completed
  · have accepted : ∀ r ∈ s.data.served, Accepted r.2 ∧ r.2.dev = 1 ∧ r.2.blockno < disksize := by
      intro r member
      refine ⟨core.accepted r ?_, inDisk r member⟩
      rw [arrived]
      exact List.mem_append_left rest member
    obtain ⟨⟨disk, answers⟩, ok⟩ : ∃ result,
        Ide.serial disksize (drives 1) s.data.served = .ok result :=
      exists_serial accepted
    have same : s.data.drives 1 = disk := core.drive ok
    refine ⟨answers, by rw [same]; exact ok, fun t b returned => ?_⟩
    have fact := monitored.facts t
    rw [returned] at fact
    exact core.answered ok fact.2

/-- A stretch of a run. -/
theorem turns_run {k : Nat} (c : Cpu) (p : Fin n) (taken : s.turns (client (Fin n)).program
      (List.finRange n) (client (Fin n)).outcome (fun _ => true) c p k = some s') :
    ReflTransGen Step s s' :=
  (reaches_of_turns Client.offers taken).lift id fun _ _ step => .code step.1

end

/-- A run in which a process writes a sector, up to the point where the disk has done so, and
the rest of that run up to the return of `iderw`. -/
theorem exists_written : ∃ s s' : Kernel (Fin 2) 2,
    ReflTransGen Step (start (fun _ => ⟨1, 5, true, false, false, fun _ => 0⟩) true (fun _ => 0)
      fun _ _ _ => 0) s ∧ ReflTransGen Step s s' ∧
    (s.holder idelock = none ∧ s.data.idequeue ≠ none ∧ s.data.controller = .ready fun _ => 0) ∧
    (s'.ctl 0).loc.point = .returned ⟨3, by decide⟩ ∧ s'.data.served.length = 1 := by
  refine ⟨_, _, turns_run (k := 4) 0 0 rfl
    |>.tail (.entered (c := 0) (p := 0) rfl rfl (.call (b := ⟨3, by decide⟩)
      (x := ⟨1, 5, true, true, true, fun _ => 7⟩) rfl rfl))
    |>.trans (turns_run (k := 12) 0 0 rfl)
    |>.tail (.disk (fun _ => 0) rfl), turns_run (k := 4) 1 1 rfl
    |>.tail (.entered (c := 1) (p := 1) rfl rfl (.interrupt rfl))
    |>.trans (turns_run (k := 11) 1 1 rfl)
    |>.trans (turns_run (k := 8) 0 0 rfl), ⟨rfl, ?_, rfl⟩, rfl, rfl⟩
  exact Option.some_ne_none _

/-- The disk rests although the queue is not empty: its interrupt has not been handled. -/
theorem finished_not_executing :
    ∃ s : Kernel (Fin 2) 2,
      ReflTransGen Step (start (fun _ => ⟨1, 5, true, false, false, fun _ => 0⟩) true (fun _ => 0)
        fun _ _ _ => 0) s ∧ s.holder idelock = none ∧ s.data.idequeue ≠ none ∧
      ∀ command, s.data.controller ≠ .busy command := by
  obtain ⟨s, -, run, -, ⟨free, queue, ready⟩, -⟩ := exists_written
  refine ⟨s, run, free, queue, fun command busy => ?_⟩
  cases ready.symm.trans busy

/-- The driver serves the process whose call has returned. -/
theorem written_sector_serves :
    ∃ s : Kernel (Fin 2) 2,
      (s.ctl 0).loc.point = .returned ⟨3, by decide⟩ ∧ s.data.served.length = 1 ∧
        Serves fssize (fun _ _ => 0) s := by
  obtain ⟨_, s, written, returns, -, returned, served⟩ := exists_written
  exact ⟨s, returned, served, serves_of_run fssize (written.trans returns)⟩

end Xv6.Ide
