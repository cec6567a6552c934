import Mathlib

/-!
# Null-terminated chains through a successor field

Several singly linked lists may share one successor field `next`.  The
predicate `Chain next head nodes` says that following `next` from the pointer
`head` visits exactly `nodes` and then stops at a null pointer.  A chain is
finite by construction, hence acyclic (`Chain.nodup`), and it is determined by
its head (`Chain.unique`).

The executable traversals take a fuel argument.  On a finite node type a chain
is never longer than the type, so that amount of fuel is exact: a traversal
which runs out of it is one that never returns.
-/

namespace Linked

open Function

universe u

variable {α : Type u}

/-- Following `next` from `head` visits `nodes` and ends in a null pointer. -/
def Chain (next : α → Option α) : Option α → List α → Prop
  | head, [] => head = none
  | head, a :: rest => head = some a ∧ Chain next (next a) rest

@[simp]
theorem chain_nil_iff {next : α → Option α} {head : Option α} : Chain next head [] ↔ head = none :=
  Iff.rfl

@[simp]
theorem chain_cons_iff {next : α → Option α} {head : Option α} {a : α} {rest : List α} :
    Chain next head (a :: rest) ↔ head = some a ∧ Chain next (next a) rest :=
  Iff.rfl

namespace Chain

variable {next next' : α → Option α} {head head' : Option α} {nodes nodes' : List α} {a b : α}

section

variable (chain : Chain next head nodes)
include chain

/-- A null head represents the empty list only. -/
theorem eq_nil_iff : nodes = [] ↔ head = none := by
  cases nodes with
  | nil => simpa using chain
  | cons a rest => simp [chain.1]

omit chain in
/-- The head pointer determines the visited nodes. -/
theorem unique (first : Chain next head nodes) (second : Chain next head nodes') :
    nodes = nodes' := by
  induction nodes generalizing head nodes' with
  | nil =>
    rw [chain_nil_iff] at first
    exact ((second.eq_nil_iff).mpr first).symm
  | cons a rest ih =>
    cases nodes' with
    | nil =>
      have null : head = none := second
      rw [first.1] at null
      contradiction
    | cons b rest' =>
      have sameHead : a = b := Option.some.inj (first.1.symm.trans second.1)
      subst sameHead
      rw [ih first.2 second.2]

/-- A chain only depends on the successors of the nodes it visits. -/
theorem congr (agree : ∀ a ∈ nodes, next' a = next a) : Chain next' head nodes := by
  induction nodes generalizing head with
  | nil => exact chain
  | cons a rest ih =>
    refine ⟨chain.1, ?_⟩
    rw [agree a List.mem_cons_self]
    exact ih chain.2 fun b member => agree b (List.mem_cons_of_mem a member)

omit chain in
/-- Every suffix of a chain is the chain of its first node. -/
theorem suffix (chain : Chain next head (nodes ++ a :: nodes')) :
    Chain next (some a) (a :: nodes') := by
  induction nodes generalizing head with
  | nil => exact ⟨rfl, chain.2⟩
  | cons b rest ih => exact ih chain.2

/-- A null-terminated chain never visits a node twice. -/
theorem nodup : nodes.Nodup := by
  induction nodes generalizing head with
  | nil => exact List.nodup_nil
  | cons a rest ih =>
    refine List.nodup_cons.mpr ⟨?_, ih chain.2⟩
    intro member
    obtain ⟨before, after, rfl⟩ := List.append_of_mem member
    -- the same node would start two chains of different lengths
    have longer : Chain next (some a) (a :: (before ++ a :: after)) := ⟨rfl, chain.2⟩
    have shorter : Chain next (some a) (a :: after) := chain.2.suffix
    have lengths := congrArg List.length (longer.unique shorter)
    simp only [List.length_cons, List.length_append] at lengths
    omega

/-- A chain on a finite type has at most as many nodes as the type. -/
theorem length_le_card [Fintype α] : nodes.length ≤ Fintype.card α :=
  chain.nodup.length_le_card

/-- Writing the successor of a node off the chain does not change the chain. -/
theorem update_of_notMem [DecidableEq α] {target : Option α} (fresh : a ∉ nodes) :
    Chain (update next a target) head nodes := by
  apply chain.congr
  intro b member
  have different : b ≠ a := by
    rintro rfl
    exact fresh member
  exact update_of_ne different target next

end

/-- Redirecting the last node of a chain to another chain concatenates them. -/
theorem append [DecidableEq α] (chain : Chain next head (nodes ++ [a]))
    (tail : Chain next head' nodes') (fresh : a ∉ nodes') :
    Chain (update next a head') head (nodes ++ a :: nodes') := by
  induction nodes generalizing head with
  | nil =>
    refine ⟨chain.1, ?_⟩
    rw [update_self]
    exact tail.update_of_notMem fresh
  | cons b rest ih =>
    have distinct := chain.nodup
    simp only [List.cons_append, List.nodup_cons, List.mem_append, List.mem_singleton,
      not_or] at distinct
    refine ⟨chain.1, ?_⟩
    rw [update_of_ne distinct.1.2]
    exact ih chain.2

/-- Redirecting the predecessor of a node past it removes that node. -/
theorem unlink [DecidableEq α] (chain : Chain next head (nodes ++ a :: b :: nodes')) :
    Chain (update next a (next b)) head (nodes ++ a :: nodes') := by
  induction nodes generalizing head with
  | nil =>
    have distinct := chain.nodup
    simp only [List.nil_append, List.nodup_cons, List.mem_cons, not_or] at distinct
    refine ⟨chain.1, ?_⟩
    rw [update_self]
    exact chain.2.2.update_of_notMem distinct.1.2
  | cons c rest ih =>
    have distinct := chain.nodup
    simp only [List.cons_append, List.nodup_cons, List.mem_append, List.mem_cons,
      not_or] at distinct
    refine ⟨chain.1, ?_⟩
    rw [update_of_ne distinct.1.2.1]
    exact ih chain.2

end Chain

/-! ## Traversals -/

/-- Follow `next` to the node whose successor is null; no result when the fuel
runs out first. -/
def lastNode (next : α → Option α) : Nat → α → Option α
  | 0, _ => none
  | fuel + 1, a =>
    match next a with
    | none => some a
    | some b => lastNode next fuel b

/-- On a chain the traversal returns its last node. -/
theorem lastNode_eq_some {next : α → Option α} {nodes : List α} {a z : α} {fuel : Nat}
    (chain : Chain next (some a) (nodes ++ [z])) (enough : nodes.length < fuel) :
    lastNode next fuel a = some z := by
  induction nodes generalizing a fuel with
  | nil =>
    obtain ⟨start, stop⟩ := chain
    obtain rfl : a = z := Option.some.inj start
    obtain ⟨fuel, rfl⟩ := Nat.exists_eq_add_of_lt enough
    have stopped : next a = none := stop
    simp [lastNode, stopped]
  | cons b rest ih =>
    obtain ⟨start, onward⟩ := chain
    obtain rfl : a = b := Option.some.inj start
    have inner : Chain next (next a) (rest ++ [z]) := onward
    cases fuel with
    | zero => simp at enough
    | succ fuel =>
      cases successor : next a with
      | none => simpa using inner.eq_nil_iff.mpr successor
      | some c =>
        rw [successor] at inner
        simp only [lastNode, successor]
        exact ih inner (by simpa using enough)

/-- Search for `target` with a trailing pointer: return the node before it.
No result when the search meets a null pointer or runs out of fuel. -/
def predecessor [DecidableEq α] (next : α → Option α) (target : α) : Nat → α → α → Option α
  | 0, _, _ => none
  | fuel + 1, prev, current =>
    if current = target then some prev
    else
      match next current with
      | none => none
      | some onward => predecessor next target fuel current onward

/-- On a chain through `target` the search stops right before it. -/
theorem predecessor_eq_some [DecidableEq α] {next : α → Option α} {nodes rest : List α}
    {prev current a target : α} {fuel : Nat}
    (chain : Chain next (some current) (nodes ++ target :: rest))
    (before : (prev :: nodes).getLast (by simp) = a) (enough : nodes.length < fuel) :
    predecessor next target fuel prev current = some a := by
  induction nodes generalizing prev current fuel with
  | nil =>
    obtain rfl : current = target := Option.some.inj chain.1
    obtain ⟨fuel, rfl⟩ := Nat.exists_eq_add_of_lt enough
    simpa [predecessor] using before
  | cons b nodes ih =>
    have distinct := chain.nodup
    obtain ⟨start, onward⟩ := chain
    obtain rfl : current = b := Option.some.inj start
    have inner : Chain next (next current) (nodes ++ target :: rest) := onward
    have different : current ≠ target := by
      rintro rfl
      simp at distinct
    cases fuel with
    | zero => simp at enough
    | succ fuel =>
      cases successor : next current with
      | none => simpa using inner.eq_nil_iff.mpr successor
      | some c =>
        rw [successor] at inner
        simp only [predecessor, if_neg different, successor]
        exact ih inner (by simpa using before) (by simpa using enough)

/-- On a chain without `target` the search runs into the null pointer. -/
theorem predecessor_eq_none [DecidableEq α] {next : α → Option α} {nodes : List α}
    {prev current target : α} (chain : Chain next (some current) nodes) (absent : target ∉ nodes)
    (fuel : Nat) : predecessor next target fuel prev current = none := by
  induction nodes generalizing prev current fuel with
  | nil => cases chain
  | cons b nodes ih =>
    obtain ⟨start, onward⟩ := chain
    obtain rfl : current = b := Option.some.inj start
    rw [List.mem_cons, not_or] at absent
    cases fuel with
    | zero => rfl
    | succ fuel =>
      rw [predecessor, if_neg (Ne.symm absent.1)]
      cases successor : next current with
      | none => rfl
      | some c =>
        rw [successor] at onward
        exact ih onward absent.2 fuel

end Linked
