import Xv6.Lib.Chain

/-!
# Circular doubly linked lists

A list with a head node: `next` and `prev` of the head, written `none`, are the first
and the last node, and both directions run through the same nodes back to the head.
A node can be taken out and put in at the front, and a search in either direction
finds the first node with a given property.
-/

namespace Linked

open Function

variable {α : Type*}

/-- The links of all nodes; `none` is the head. -/
structure Links (α : Type*) where
  next : Option α → Option α
  prev : Option α → Option α

/-- Following the links from the head. -/
def Path (link : Option α → Option α) (nodes : List α) : Prop :=
  Chain (fun a => link (some a)) (link none) nodes

/-- The nodes form a ring, in this order. -/
structure Ring (links : Links α) (nodes : List α) : Prop where
  forward : Path links.next nodes
  backward : Path links.prev nodes.reverse

theorem Chain.head_eq {next : α → Option α} {head : Option α} {nodes : List α}
    (chain : Chain next head nodes) : head = nodes.head? := by
  cases nodes with
  | nil => exact chain
  | cons a rest => exact chain.1

namespace Path

variable {link : Option α → Option α} {nodes nodes' : List α} {a : α}

/-- The link of a node leads to the one after it. -/
theorem link_eq (path : Path link (nodes ++ a :: nodes')) : link (some a) = nodes'.head? := by
  have rest := Chain.suffix path
  exact rest.2.head_eq

variable [DecidableEq α]

theorem update_some (target : Option α) :
    (fun b => update link (some a) target (some b)) =
      update (fun b => link (some b)) a target := by
  funext b
  by_cases same : b = a
  · simp [same]
  · simp [same]

/-- Let the node before `a` lead past it. -/
theorem skip (path : Path link (nodes ++ a :: nodes')) :
    Path (update link nodes.getLast? (link (some a))) (nodes ++ nodes') := by
  rcases List.eq_nil_or_concat' nodes with rfl | ⟨front, b, rfl⟩
  · have rest : Chain (fun b => link (some b)) (link (some a)) nodes' := path.2
    simpa [Path] using rest
  · rw [List.getLast?_concat]
    unfold Path at path ⊢
    rw [update_some, update_of_ne (by simp)]
    simp only [List.append_assoc, List.singleton_append] at path ⊢
    exact path.unlink

/-- Let `a` come first. -/
theorem insert_first (path : Path link nodes) (fresh : a ∉ nodes) :
    Path (update (update link (some a) (link none)) none (some a))
      (a :: nodes) := by
  unfold Path at path ⊢
  refine ⟨by simp, ?_⟩
  have links : (fun b => update (update link (some a) (link none)) none
      (some a) (some b)) = update (fun b => link (some b)) a (link none) := by
    funext b
    rw [update_of_ne (by simp)]
    exact congrFun (update_some (link none)) b
  rw [links, update_self]
  exact path.update_of_notMem fresh

/-- Let `a` come last. -/
theorem insert_last (path : Path link nodes) (fresh : a ∉ nodes) :
    Path (update (update link (some a) none) nodes.getLast? (some a))
      (nodes ++ [a]) := by
  have off : Path (update link (some a) none) nodes := by
    unfold Path at path ⊢
    rw [update_some, update_of_ne (by simp)]
    exact path.update_of_notMem fresh
  have ends : Chain (fun b => update link (some a) none (some b)) (some a) [a] := by
    simp
  rcases List.eq_nil_or_concat' nodes with rfl | ⟨front, b, rfl⟩
  · simp [Path]
  · rw [List.getLast?_concat]
    have distinct : b ∉ [a] := by
      rintro member
      rw [List.mem_singleton] at member
      exact fresh (by simp [member])
    unfold Path at off ⊢
    rw [update_some, update_of_ne (by simp), List.append_assoc]
    exact off.append ends distinct

end Path

/-! ## Operations -/

namespace Links

variable [DecidableEq α]

/-- Take a node out: `b->next->prev = b->prev; b->prev->next = b->next`. -/
def unlink (links : Links α) (b : α) : Links α :=
  let links := { links with
    prev := update links.prev (links.next (some b)) (links.prev (some b)) }
  { links with
    next := update links.next (links.prev (some b)) (links.next (some b)) }

/-- Put a node in after the head: `b->next = head.next; b->prev = &head;
head.next->prev = b; head.next = b`. -/
def pushFront (links : Links α) (b : α) : Links α :=
  let links := { links with next := update links.next (some b) (links.next none) }
  let links := { links with prev := update links.prev (some b) none }
  let links := { links with prev := update links.prev (links.next none) (some b) }
  { links with next := update links.next none (some b) }

end Links

namespace Ring

variable {links : Links α} {nodes nodes' : List α} {b : α}

theorem nodup (ring : Ring links nodes) : nodes.Nodup :=
  Chain.nodup ring.forward

theorem next_eq (ring : Ring links (nodes ++ b :: nodes')) : links.next (some b) = nodes'.head? :=
  ring.forward.link_eq

theorem prev_eq (ring : Ring links (nodes ++ b :: nodes')) :
    links.prev (some b) = nodes.getLast? := by
  have path := ring.backward
  rw [List.reverse_append, List.reverse_cons, List.append_assoc, List.singleton_append] at path
  rw [path.link_eq, List.head?_reverse]

theorem empty : Ring (⟨fun _ => none, fun _ => none⟩ : Links α) [] :=
  ⟨rfl, rfl⟩

variable [DecidableEq α]

theorem unlink (ring : Ring links (nodes ++ b :: nodes')) :
    Ring (links.unlink b) (nodes ++ nodes') := by
  have next := ring.next_eq
  have prev := ring.prev_eq
  have backward := ring.backward
  rw [List.reverse_append, List.reverse_cons, List.append_assoc, List.singleton_append]
    at backward
  have others : links.next (some b) ≠ some b := by
    intro same
    have distinct := ring.nodup
    rw [next] at same
    have member := List.mem_of_mem_head? (Option.mem_def.mpr same)
    rw [List.nodup_append] at distinct
    exact (List.nodup_cons.mp distinct.2.1).1 member
  constructor
  · have path := ring.forward.skip
    rw [← prev] at path
    simpa [Links.unlink, others.symm] using path
  · have path := backward.skip
    rw [List.getLast?_reverse, ← next, ← List.reverse_append] at path
    simpa [Links.unlink] using path

theorem pushFront (ring : Ring links nodes) (fresh : b ∉ nodes) :
    Ring (links.pushFront b) (b :: nodes) := by
  have first : links.next none = nodes.head? := Chain.head_eq ring.forward
  constructor
  · simpa [Links.pushFront] using ring.forward.insert_first fresh
  · have path := ring.backward.insert_last (by simpa using fresh)
    rw [List.getLast?_reverse, ← first, ← List.reverse_cons] at path
    simpa [Links.pushFront] using path

/-- Move a node to the front. -/
theorem moveToFront (ring : Ring links nodes) (member : b ∈ nodes) :
    Ring ((links.unlink b).pushFront b) (b :: nodes.erase b) := by
  obtain ⟨front, rest, rfl⟩ := List.append_of_mem member
  have distinct := ring.nodup
  have fresh : b ∉ front := by
    intro inFront
    rw [List.nodup_append] at distinct
    exact distinct.2.2 b inFront b List.mem_cons_self rfl
  rw [List.erase_append_right _ fresh, List.erase_cons_head]
  apply ring.unlink.pushFront
  rw [List.mem_append, not_or]
  refine ⟨fresh, ?_⟩
  rw [List.nodup_append] at distinct
  exact (List.nodup_cons.mp distinct.2.1).1

end Ring

/-! ## Searches -/

/-- Follow the links from a node to the first one with the property; `none` when the
head is reached first. -/
def search (link : Option α → Option α) (found : α → Bool) : Nat → Option α → Option α
  | 0, _ => none
  | _ + 1, none => none
  | fuel + 1, some a => if found a then some a else search link found fuel (link (some a))

theorem search_eq_find {link : Option α → Option α} {found : α → Bool} {head : Option α}
    {nodes : List α} {fuel : Nat} (chain : Chain (fun a => link (some a)) head nodes)
    (enough : nodes.length < fuel) : search link found fuel head = nodes.find? found := by
  induction nodes generalizing head fuel with
  | nil =>
    rw [chain_nil_iff] at chain
    subst chain
    cases fuel <;> rfl
  | cons a rest ih =>
    obtain ⟨rfl, tail⟩ := chain
    cases fuel with
    | zero => simp at enough
    | succ fuel =>
      rw [List.length_cons] at enough
      unfold search
      cases hit : found a with
      | true => simp [hit]
      | false =>
        rw [List.find?_cons_of_neg (by simp [hit]), ih tail (by omega)]
        simp

end Linked
