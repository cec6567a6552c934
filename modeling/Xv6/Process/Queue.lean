import Xv6.Process.Table

/-!
# The linked lists as queues

`Rep t l` relates the pointer structure of a process table to four sequences of
slots: following `next` from each head visits that sequence and stops at null,
and no slot is on two of them.  Under it each list function of the source is an
operation on sequences: push and pop on the free list, append and removal on a
ready list, concatenation for the priority reset.  None of them touches another
field of a slot.
-/

namespace Xv6.Process

open Linked Function

/-- The contents of the free list and of the three ready lists. -/
structure Lists where
  free : List Slot
  ready : Fin 3 → List Slot

namespace Lists

/-- The slot is on no list. -/
def Off (l : Lists) (p : Slot) : Prop :=
  p ∉ l.free ∧ ∀ i, p ∉ l.ready i

/-- Append a slot to ready list `i`. -/
def enqueue (l : Lists) (i : Fin 3) (p : Slot) : Lists :=
  { l with ready := update l.ready i (l.ready i ++ [p]) }

/-- Remove a slot from ready list `i`. -/
def remove (l : Lists) (i : Fin 3) (p : Slot) : Lists :=
  { l with ready := update l.ready i ((l.ready i).erase p) }

/-- Move ready list `i` to the end of ready list 1. -/
def splice (l : Lists) (i : Fin 3) : Lists :=
  { l with ready := update (update l.ready 1 (l.ready 1 ++ l.ready i)) i [] }

/-- The lists after a priority reset. -/
def reset (l : Lists) : Lists :=
  (l.splice 0).splice 2

@[simp]
theorem reset_ready_zero (l : Lists) : l.reset.ready 0 = [] := by
  simp [reset, splice]

@[simp]
theorem reset_ready_one (l : Lists) : l.reset.ready 1 = l.ready 1 ++ l.ready 0 ++ l.ready 2 := by
  simp [reset, splice]

@[simp]
theorem reset_ready_two (l : Lists) : l.reset.ready 2 = [] := by
  simp [reset, splice]

/-- A reset keeps the set of queued slots and leaves them all on list 1. -/
theorem mem_reset_ready_iff (l : Lists) (p : Slot) (i : Fin 3) :
    p ∈ l.reset.ready i ↔ i = 1 ∧ ∃ j, p ∈ l.ready j := by
  fin_cases i
  · simp
  · have split : (∃ j, p ∈ l.ready j) ↔ p ∈ l.ready 0 ∨ p ∈ l.ready 1 ∨ p ∈ l.ready 2 := by
      simp [Fin.exists_fin_succ]
    simp only [Fin.mk_one, reset_ready_one, List.mem_append, true_and, split]
    tauto
  · simp

/-- The ready lists only grew at their ends. -/
def Grows (l l' : Lists) : Prop :=
  l'.free = l.free ∧ ∀ i, l.ready i <+: l'.ready i

theorem Grows.refl (l : Lists) : l.Grows l :=
  ⟨rfl, fun i => List.prefix_refl (l.ready i)⟩

theorem Grows.trans {l l' l'' : Lists} (first : l.Grows l') (second : l'.Grows l'') : l.Grows l'' :=
  ⟨second.1.trans first.1, fun i => (first.2 i).trans (second.2 i)⟩

theorem grows_enqueue (l : Lists) (i : Fin 3) (p : Slot) : l.Grows (l.enqueue i p) := by
  refine ⟨rfl, fun j => ?_⟩
  by_cases same : j = i
  · subst same
    simp [enqueue]
  · simp [enqueue, same]

/-- The lists at the choice of the next process: after a reset when the
countdown has reached zero. -/
def tick (l : Lists) (timeToReset : Nat) : Lists :=
  if timeToReset = 0 then l.reset else l

/-- The first non-empty ready list and its head. -/
def select (l : Lists) : Option (Fin 3 × Slot) :=
  match l.ready 0, l.ready 1, l.ready 2 with
  | p :: _, _, _ => some (0, p)
  | [], p :: _, _ => some (1, p)
  | [], [], p :: _ => some (2, p)
  | [], [], [] => none

/-- The selected slot heads its list, and every list before that is empty. -/
theorem select_eq_some_iff {l : Lists} {i : Fin 3} {p : Slot} :
    l.select = some (i, p) ↔ (l.ready i).head? = some p ∧ ∀ j < i, l.ready j = [] := by
  unfold select
  cases zero : l.ready 0 <;> cases one : l.ready 1 <;> cases two : l.ready 2 <;>
    fin_cases i <;> simp [zero, one, two, Fin.forall_fin_succ, Fin.lt_def]

theorem select_eq_none_iff {l : Lists} : l.select = none ↔ ∀ i, l.ready i = [] := by
  unfold select
  cases zero : l.ready 0 <;> cases one : l.ready 1 <;> cases two : l.ready 2 <;>
    simp [zero, one, two, Fin.forall_fin_succ]

end Lists

namespace PTable

/-- Each list head starts a null-terminated chain, and the chains are disjoint. -/
structure Rep (t : PTable) (l : Lists) : Prop where
  free : Chain t.next t.pFreeList l.free
  ready : ∀ i, Chain t.next (t.pReadyList i) (l.ready i)
  free_ready : ∀ p ∈ l.free, ∀ i, p ∉ l.ready i
  ready_ready : ∀ p i j, p ∈ l.ready i → p ∈ l.ready j → i = j

variable {t t' : PTable} {l l' : Lists} {p : Slot} {i : Fin 3}

/-! ## Field updates -/

@[simp]
theorem modify_proc_self (t : PTable) (p : Slot) (f : Proc → Proc) :
    (t.modify p f).proc p = f (t.proc p) := by
  simp [modify]

variable {q : Slot} {nodes : List Slot}

theorem modify_proc_of_ne (t : PTable) (f : Proc → Proc) (different : q ≠ p) :
    (t.modify p f).proc q = t.proc q := by
  simp [modify, different]

theorem modify_proc (t : PTable) (p q : Slot) (f : Proc → Proc) :
    (t.modify p f).proc q = if q = p then f (t.proc p) else t.proc q := by
  by_cases equal : q = p
  · subst equal
    simp
  · simp [modify_proc_of_ne, equal]

/-- The lists only depend on the pointers, not on the other fields. -/
theorem Rep.congr (rep : t.Rep l) (next : t'.next = t.next) (ready : t'.pReadyList = t.pReadyList)
    (free : t'.pFreeList = t.pFreeList) : t'.Rep l where
  free := by rw [next, free]; exact rep.free
  ready i := by rw [next, ready]; exact rep.ready i
  free_ready := rep.free_ready
  ready_ready := rep.ready_ready

theorem Rep.modify (rep : t.Rep l) (p : Slot) (f : Proc → Proc) : (t.modify p f).Rep l :=
  rep.congr rfl rfl rfl

/-- The represented sequences are determined by the table. -/
theorem Rep.unique (first : t.Rep l) (second : t.Rep l') : l = l' := by
  obtain ⟨free, ready⟩ := l
  obtain ⟨free', ready'⟩ := l'
  have freeEq : free = free' := first.free.unique second.free
  have readyEq : ready = ready' := funext fun i => (first.ready i).unique (second.ready i)
  rw [freeEq, readyEq]

/-- A list holds at most `nproc` slots. -/
theorem length_le_nproc {next : Slot → Option Slot} {head : Option Slot}
    (chain : Chain next head nodes) : nodes.length ≤ nproc := by
  simpa using chain.length_le_card

@[simp]
theorem readyIndex_eq_some_iff {priority : Int} :
    readyIndex priority = some i ↔ priority = (i : Nat) := by
  unfold readyIndex
  split
  · fin_cases i <;> simp
  · fin_cases i <;> simp
  · fin_cases i <;> simp
  · fin_cases i <;> simp_all

/-! ## The free list -/

theorem addFreeList_some (t : PTable) (p : Slot) :
    t.addFreeList (some p) =
      (0, { t with pFreeList := some p, next := update t.next p t.pFreeList }) := by
  unfold addFreeList
  cases head : t.pFreeList <;> rfl

variable (rep : t.Rep l)
include rep

/-- `AddFreeList` pushes a slot that is on no list. -/
theorem Rep.addFreeList (off : l.Off p) :
    (t.addFreeList (some p)).2.Rep { l with free := p :: l.free } := by
  rw [addFreeList_some]
  refine ⟨⟨rfl, ?_⟩, ?_, ?_, rep.ready_ready⟩
  · change Chain (update t.next p t.pFreeList)
      (update t.next p t.pFreeList p) l.free
    rw [update_self]
    exact rep.free.update_of_notMem off.1
  · intro i
    exact (rep.ready i).update_of_notMem (off.2 i)
  · intro q member
    rcases List.mem_cons.mp member with rfl | member
    · exact off.2
    · exact rep.free_ready q member

theorem removeFreeList_nil (empty : l.free = []) : t.removeFreeList = (none, t) := by
  have null : t.pFreeList = none := rep.free.eq_nil_iff.mp empty
  simp [removeFreeList, null]

/-- `RemoveFreeList` pops the first slot. -/
theorem removeFreeList_cons {rest : List Slot} (first : l.free = p :: rest) :
    ∃ t', t.removeFreeList = (some p, t') ∧ t'.Rep { l with free := rest } ∧
      t'.proc = t.proc ∧ t'.timeToReset = t.timeToReset := by
  have chain := rep.free
  rw [first] at chain
  refine ⟨{ t with pFreeList := t.next p }, ?_, ⟨chain.2, rep.ready, ?_, rep.ready_ready⟩, rfl, rfl⟩
  · simp [removeFreeList, chain.1]
  · intro q member
    exact rep.free_ready q (by rw [first]; exact List.mem_cons_of_mem p member)

/-! ## The ready lists -/

/-- `AddReadyList` appends a slot that is on no list. -/
theorem addReadyList_eq (off : l.Off p) (runnable : (t.proc p).state = .runnable)
    (index : readyIndex (t.proc p).priority = some i) :
    ∃ t', t.addReadyList p = some (0, t') ∧ t'.Rep (l.enqueue i p) ∧
      t'.proc = t.proc ∧ t'.timeToReset = t.timeToReset := by
  have mem_enqueue : ∀ q j, q ∈ (l.enqueue i p).ready j → q ∈ l.ready j ∨ q = p ∧ j = i := by
    intro q j member
    by_cases same : j = i
    · subst same
      simpa [Lists.enqueue] using member
    · simp only [Lists.enqueue, update_of_ne same] at member
      exact .inl member
  have free_ready : ∀ q ∈ l.free, ∀ j, q ∉ (l.enqueue i p).ready j := by
    intro q freeMem j readyMem
    rcases mem_enqueue q j readyMem with readyMem | ⟨rfl, -⟩
    · exact rep.free_ready q freeMem j readyMem
    · exact off.1 freeMem
  have ready_ready : ∀ q j k, q ∈ (l.enqueue i p).ready j → q ∈ (l.enqueue i p).ready k →
      j = k := by
    intro q j k first second
    rcases mem_enqueue q j first with first | ⟨firstEq, firstIndex⟩ <;>
      rcases mem_enqueue q k second with second | ⟨secondEq, secondIndex⟩
    · exact rep.ready_ready q j k first second
    · exact absurd first (secondEq ▸ off.2 j)
    · exact absurd second (firstEq ▸ off.2 k)
    · rw [firstIndex, secondIndex]
  have chain := rep.ready i
  cases nodes : l.ready i using List.reverseRecOn with
  | nil =>
    have null : t.pReadyList i = none := chain.eq_nil_iff.mp nodes
    refine ⟨{ t with
        pReadyList := update t.pReadyList i (some p)
        next := update t.next p none }, ?_,
      ⟨rep.free.update_of_notMem off.1, ?_, free_ready, ready_ready⟩, rfl, rfl⟩
    · simp [addReadyList, runnable, index, null]
    · intro j
      by_cases same : j = i
      · subst same
        simp [Lists.enqueue, nodes]
      · simp only [Lists.enqueue, update_of_ne same]
        exact (rep.ready j).update_of_notMem (off.2 j)
  | append_singleton front z _ =>
    rw [nodes] at chain
    obtain ⟨first, head⟩ : ∃ first, t.pReadyList i = some first := by
      cases head : t.pReadyList i with
      | none => simpa using chain.eq_nil_iff.mpr head
      | some first => exact ⟨first, rfl⟩
    have walk : lastNode t.next nproc first = some z := by
      have bound := length_le_nproc chain
      rw [List.length_append, List.length_singleton] at bound
      rw [head] at chain
      exact lastNode_eq_some chain bound
    have offChain : p ∉ front ++ [z] := nodes ▸ off.2 i
    have notLast : z ≠ p := by
      rintro rfl
      simp at offChain
    refine ⟨{ t with
        next := update (update t.next p none) z (some p) }, ?_,
      ⟨?_, ?_, free_ready, ready_ready⟩, rfl, rfl⟩
    · simp [addReadyList, runnable, index, head, walk]
    · have lastNotFree : z ∉ l.free := fun freeMem =>
        rep.free_ready z freeMem i (by simp [nodes])
      exact (rep.free.update_of_notMem off.1).update_of_notMem lastNotFree
    · intro j
      by_cases same : j = i
      · subst same
        have single : Chain (update t.next p none) (some p) [p] := by simp
        have kept : Chain (update t.next p none) _ _ := chain.update_of_notMem offChain
        have joined := kept.append single (by simpa using notLast)
        simpa [Lists.enqueue, nodes] using joined
      · simp only [Lists.enqueue, update_of_ne same]
        have lastElsewhere : z ∉ l.ready j := fun readyMem =>
          same (rep.ready_ready z j i readyMem (by simp [nodes]))
        exact ((rep.ready j).update_of_notMem (off.2 j)).update_of_notMem lastElsewhere

/-- A removed slot is on no list any more; the others are where they were. -/
theorem Rep.mem_remove_ready_iff (queued : p ∈ l.ready i) {j : Fin 3} :
    q ∈ (l.remove i p).ready j ↔ q ∈ l.ready j ∧ q ≠ p := by
  by_cases same : j = i
  · subst same
    simp only [Lists.remove, update_self, (rep.ready j).nodup.mem_erase_iff]
    exact and_comm
  · simp only [Lists.remove, update_of_ne same, iff_self_and]
    rintro member rfl
    exact same (rep.ready_ready q j i member queued)

/-- Shortening one ready list keeps the lists disjoint. -/
theorem Rep.of_remove (queued : p ∈ l.ready i) (free : Chain t'.next t'.pFreeList l.free)
    (ready : ∀ j, Chain t'.next (t'.pReadyList j) ((l.remove i p).ready j)) :
    t'.Rep (l.remove i p) := by
  refine ⟨free, ready, fun q freeMem j readyMem => ?_, fun q j k first second => ?_⟩
  · exact rep.free_ready q freeMem j ((rep.mem_remove_ready_iff queued).mp readyMem).1
  · exact rep.ready_ready q j k ((rep.mem_remove_ready_iff queued).mp first).1
      ((rep.mem_remove_ready_iff queued).mp second).1

omit rep in
/-- `RemoveReadyList` unlinks a slot from the chain of its priority, wherever on that
chain it stands, and writes to nothing else. -/
theorem removeReadyList_chain (chain : Chain t.next (t.pReadyList i) nodes)
    (index : readyIndex (t.proc p).priority = some i) (queued : p ∈ nodes) :
    ∃ t', t.removeReadyList p = some (0, t') ∧
      Chain t'.next (t'.pReadyList i) (nodes.erase p) ∧
      (∀ j ≠ i, t'.pReadyList j = t.pReadyList j) ∧ (∀ q ∉ nodes, t'.next q = t.next q) ∧
      t'.pFreeList = t.pFreeList ∧ t'.proc = t.proc ∧ t'.timeToReset = t.timeToReset := by
  obtain ⟨before, after, rfl⟩ := List.append_of_mem queued
  have distinct := chain.nodup
  have here : (before ++ p :: after).erase p = before ++ after := by
    have notBefore : p ∉ before := fun member => by
      have := List.disjoint_of_nodup_append distinct member
      simp at this
    simp [List.erase_append_right _ notBefore]
  rw [here]
  cases before with
  | nil =>
    -- the slot heads its list: the emptying branch and the head branch agree
    have head : t.pReadyList i = some p := chain.1
    have rest : Chain t.next (t.next p) after := chain.2
    refine ⟨{ t with pReadyList := update t.pReadyList i (t.next p) }, ?_, ?_,
      fun j other => update_of_ne other .., fun _ _ => rfl, rfl, rfl, rfl⟩
    · cases successor : t.next p with
      | none | some => simp [removeReadyList, index, head, successor]
    · simpa using rest
  | cons first front =>
    have head : t.pReadyList i = some first := chain.1
    have notFirst : first ≠ p := by
      rintro rfl
      simp at distinct
    have onward : t.next first ≠ none := by
      intro null
      have empty := chain.2.eq_nil_iff.mpr null
      simp at empty
    obtain ⟨init, prev, split⟩ : ∃ init prev, first :: front = init ++ [prev] :=
      ⟨_, _, (List.dropLast_append_getLast (List.cons_ne_nil first front)).symm⟩
    have search : predecessor t.next p nproc first first = some prev := by
      have bound := length_le_nproc chain
      have start : Chain t.next (some first) ((first :: front) ++ p :: after) := by
        rw [← head]
        exact chain
      refine predecessor_eq_some start ?_ ?_
      · simp [split]
      · simp at bound ⊢
        omega
    have whole : Chain t.next (t.pReadyList i) (init ++ prev :: p :: after) := by
      simpa [split] using chain
    refine ⟨{ t with next := update t.next prev (t.next p) }, ?_, ?_,
      fun _ _ => rfl, fun q off => update_of_ne ?_ .., rfl, rfl, rfl⟩
    · simp [removeReadyList, index, head, onward, notFirst, search]
    · rw [split, List.append_assoc]
      exact whole.unlink
    · rintro rfl
      rw [split] at off
      simp at off

/-- On lists that do not meet, `RemoveReadyList` is the removal of the slot. -/
theorem removeReadyList_eq (index : readyIndex (t.proc p).priority = some i)
    (queued : p ∈ l.ready i) :
    ∃ t', t.removeReadyList p = some (0, t') ∧ t'.Rep (l.remove i p) ∧
      t'.proc = t.proc ∧ t'.timeToReset = t.timeToReset := by
  obtain ⟨t', removed, here, heads, elsewhere, free, proc, time⟩ :=
    removeReadyList_chain (rep.ready i) index queued
  refine ⟨t', removed, rep.of_remove queued ?_ fun j => ?_, proc, time⟩
  · rw [free]
    exact rep.free.congr fun q member => elsewhere q (rep.free_ready q member i)
  · by_cases same : j = i
    · subst same
      simpa [Lists.remove] using here
    · simp only [Lists.remove, update_of_ne same]
      rw [heads j same]
      refine (rep.ready j).congr fun q member => elsewhere q fun other => ?_
      exact same (rep.ready_ready q j i member other)

/-- Moving ready list `i` behind ready list 1. -/
theorem spliceReady_eq (notOne : i ≠ 1) : ∃ t', t.spliceReady i = some t' ∧ t'.Rep (l.splice i) ∧
      t'.proc = t.proc ∧ t'.timeToReset = t.timeToReset ∧ t'.pFreeList = t.pFreeList ∧
      ∀ q, q ∉ l.ready 1 → t'.next q = t.next q := by
  have at_i : (l.splice i).ready i = [] := by simp [Lists.splice]
  have at_one : (l.splice i).ready 1 = l.ready 1 ++ l.ready i := by
    simp [Lists.splice, update_of_ne notOne.symm]
  have elsewhere : ∀ {j : Fin 3}, j ≠ i → j ≠ 1 → (l.splice i).ready j = l.ready j :=
    fun fromI fromOne => by simp [Lists.splice, fromI, fromOne]
  have origin : ∀ q j, q ∈ (l.splice i).ready j → q ∈ l.ready j ∨ j = 1 ∧ q ∈ l.ready i := by
    intro q j member
    by_cases fromI : j = i
    · subst fromI
      simp [at_i] at member
    · by_cases fromOne : j = 1
      · subst fromOne
        rw [at_one, List.mem_append] at member
        exact member.imp_right fun moved => ⟨rfl, moved⟩
      · rw [elsewhere fromI fromOne] at member
        exact .inl member
  have free_ready : ∀ q ∈ l.free, ∀ j, q ∉ (l.splice i).ready j := by
    intro q freeMem j readyMem
    rcases origin q j readyMem with old | ⟨-, moved⟩
    · exact rep.free_ready q freeMem j old
    · exact rep.free_ready q freeMem i moved
  have ready_ready : ∀ q j k, q ∈ (l.splice i).ready j → q ∈ (l.splice i).ready k → j = k := by
    intro q j k first second
    have notHere : ∀ {j : Fin 3}, q ∈ (l.splice i).ready j → j ≠ i := by
      rintro j member rfl
      simp [at_i] at member
    rcases origin q j first with firstOld | ⟨rfl, firstMoved⟩ <;>
      rcases origin q k second with secondOld | ⟨rfl, secondMoved⟩
    · exact rep.ready_ready q j k firstOld secondOld
    · exact absurd (rep.ready_ready q j i firstOld secondMoved) (notHere first)
    · exact absurd (rep.ready_ready q k i secondOld firstMoved) (notHere second)
    · rfl
  have chainI := rep.ready i
  have chainOne := rep.ready 1
  cases headI : t.pReadyList i with
  | none =>
    have emptyI : l.ready i = [] := chainI.eq_nil_iff.mpr headI
    refine ⟨t, by simp [spliceReady, headI], ⟨rep.free, ?_, free_ready, ready_ready⟩, rfl, rfl,
      rfl, fun _ _ => rfl⟩
    intro j
    by_cases fromI : j = i
    · subst fromI
      rw [at_i, headI]
      rfl
    · by_cases fromOne : j = 1
      · subst fromOne
        simpa [at_one, emptyI] using chainOne
      · rw [elsewhere fromI fromOne]
        exact rep.ready j
  | some first =>
    cases headOne : t.pReadyList 1 with
    | none =>
      have emptyOne : l.ready 1 = [] := chainOne.eq_nil_iff.mpr headOne
      refine ⟨{ t with
          pReadyList :=
            update (update t.pReadyList 1 (some first)) i none }, ?_,
        ⟨rep.free, ?_, free_ready, ready_ready⟩, rfl, rfl, rfl, fun _ _ => rfl⟩
      · simp [spliceReady, headI, headOne]
      intro j
      by_cases fromI : j = i
      · subst fromI
        simp [at_i]
      · by_cases fromOne : j = 1
        · subst fromOne
          rw [headI] at chainI
          simpa [at_one, emptyOne, update_of_ne fromI] using chainI
        · rw [elsewhere fromI fromOne]
          simpa [fromI, fromOne] using rep.ready j
    | some head =>
      obtain ⟨front, z, split⟩ : ∃ front z, l.ready 1 = front ++ [z] := by
        have nonempty : l.ready 1 ≠ [] := fun empty => by
          have null := chainOne.eq_nil_iff.mp empty
          rw [headOne] at null
          contradiction
        exact ⟨_, _, (List.dropLast_append_getLast nonempty).symm⟩
      have lastHere : z ∈ l.ready 1 := by simp [split]
      have lastElsewhere : ∀ {j : Fin 3}, j ≠ 1 → z ∉ l.ready j := fun fromOne member =>
        fromOne (rep.ready_ready z _ 1 member lastHere)
      have walk : lastNode t.next nproc head = some z := by
        have bound := length_le_nproc chainOne
        rw [split, List.length_append, List.length_singleton] at bound
        rw [headOne, split] at chainOne
        exact lastNode_eq_some chainOne bound
      refine ⟨{ t with
          next := update t.next z (some first)
          pReadyList := update t.pReadyList i none }, ?_,
        ⟨?_, ?_, free_ready, ready_ready⟩, rfl, rfl, rfl, fun q off => ?_⟩
      · simp [spliceReady, headI, headOne, walk]
      · exact rep.free.update_of_notMem fun freeMem => rep.free_ready z freeMem 1 lastHere
      · intro j
        by_cases fromI : j = i
        · subst fromI
          simp [at_i]
        · by_cases fromOne : j = 1
          · subst fromOne
            rw [split] at chainOne
            rw [headI] at chainI
            have joined := chainOne.append chainI (lastElsewhere notOne)
            simpa [at_one, split, update_of_ne fromI] using joined
          · rw [elsewhere fromI fromOne]
            simpa [fromI] using (rep.ready j).update_of_notMem (lastElsewhere fromOne)
      · have notLast : q ≠ z := by
          rintro rfl
          exact off lastHere
        exact update_of_ne notLast _ _

/-- `ResetPriority` concatenates the ready lists and sets every priority. -/
theorem resetPriority_eq : ∃ t', t.resetPriority = some t' ∧ t'.Rep l.reset ∧
      t'.proc = (fun p => { t.proc p with priority := 1 }) ∧ t'.timeToReset = t.timeToReset ∧
      t'.pFreeList = t.pFreeList ∧ ∀ q, (∀ j, q ∉ l.ready j) → t'.next q = t.next q := by
  have start : PTable.Rep { t with proc := fun p => { t.proc p with priority := 1 } } l :=
    rep.congr rfl rfl rfl
  obtain ⟨middle, first, middleRep, middleProc, middleTime, middleFree, middleNext⟩ :=
    spliceReady_eq (i := 0) start (by decide)
  obtain ⟨t', second, rep', proc', time', free', next'⟩ :=
    spliceReady_eq (i := 2) middleRep (by decide)
  refine ⟨t', ?_, rep', proc'.trans middleProc, time'.trans middleTime, free'.trans middleFree,
    fun q off => ?_⟩
  · simp only [resetPriority, first, Option.bind_eq_bind, Option.bind_some, second]
  · rw [next' q (by simp [Lists.splice, off]), middleNext q (off 1)]

/-- `GetReady` returns the selected slot. -/
theorem getReady_eq : t.getReady = l.select.map Prod.snd := by
  have zero := rep.ready 0
  have one := rep.ready 1
  have two := rep.ready 2
  unfold getReady Lists.select
  cases listZero : l.ready 0 with
  | cons p rest =>
    rw [listZero] at zero
    simp [zero.1]
  | nil =>
    rw [listZero, chain_nil_iff] at zero
    cases listOne : l.ready 1 with
    | cons p rest =>
      rw [listOne] at one
      simp [zero, one.1]
    | nil =>
      rw [listOne, chain_nil_iff] at one
      cases listTwo : l.ready 2 with
      | cons p rest =>
        rw [listTwo] at two
        simp [zero, one, two.1]
      | nil =>
        rw [listTwo, chain_nil_iff] at two
        simp [zero, one, two]

theorem anyReady_iff : t.anyReady = true ↔ l.select ≠ none := by
  have null : ∀ i, l.ready i = [] ↔ t.pReadyList i = none := fun i => (rep.ready i).eq_nil_iff
  rw [Ne, Lists.select_eq_none_iff]
  simp only [null, anyReady, Fin.forall_fin_succ, Bool.or_eq_true, Option.isSome_iff_ne_none]
  simp
  tauto

end PTable

end Xv6.Process
