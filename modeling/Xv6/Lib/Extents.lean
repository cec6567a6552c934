import Mathlib

/-!
# Extents

An extent is a stretch of addresses.  A region is `Packed` with extents that do not overlap;
extents are cut in two, joined with their neighbour, and added at the end of the region.  A
list of extents is `Separated` if it goes upwards and leaves room between any two of them;
`attach` puts an extent in front of such a list and joins it with the first one if the two
touch.
-/

namespace Extents

/-- A stretch of addresses. -/
@[ext]
structure Extent where
  start : Nat
  length : Nat
  deriving DecidableEq

namespace Extent

/-- The first address behind the extent. -/
def stop (e : Extent) : Nat :=
  e.start + e.length

/-- The two do not overlap. -/
def Apart (e f : Extent) : Prop :=
  e.stop ≤ f.start ∨ f.stop ≤ e.start

theorem Apart.symm {e f : Extent} (apart : e.Apart f) : f.Apart e :=
  Or.symm apart

instance : Std.Symm Apart :=
  ⟨fun _ _ => Apart.symm⟩

end Extent

/-! ## Packed regions -/

/-- Extents that are not empty, between `lo` and `hi`, and do not overlap. -/
structure Packed (lo hi : Nat) (es : List Extent) : Prop where
  positive : ∀ e ∈ es, 0 < e.length
  above : ∀ e ∈ es, lo ≤ e.start
  below : ∀ e ∈ es, e.stop ≤ hi
  apart : es.Pairwise Extent.Apart

/-- The sum of the lengths. -/
def total (es : List Extent) : Nat :=
  (es.map Extent.length).sum

@[simp]
theorem total_cons (e : Extent) (es : List Extent) : total (e :: es) = e.length + total es := by
  simp [total]

@[simp]
theorem total_append (es fs : List Extent) : total (es ++ fs) = total es + total fs := by
  simp [total]

theorem total_perm {es fs : List Extent} (perm : es.Perm fs) : total es = total fs :=
  (perm.map _).sum_eq

theorem packed_nil (lo hi : Nat) : Packed lo hi [] :=
  ⟨by simp, by simp, by simp, .nil⟩

theorem packed_cons {lo hi : Nat} {e : Extent} {es : List Extent} :
    Packed lo hi (e :: es) ↔
      0 < e.length ∧ lo ≤ e.start ∧ e.stop ≤ hi ∧ (∀ f ∈ es, e.Apart f) ∧ Packed lo hi es := by
  constructor
  · rintro ⟨positive, above, below, apart⟩
    rw [List.forall_mem_cons] at positive above below
    rw [List.pairwise_cons] at apart
    exact ⟨positive.1, above.1, below.1, apart.1, positive.2, above.2, below.2, apart.2⟩
  · rintro ⟨positive, above, below, apart, rest⟩
    exact ⟨List.forall_mem_cons.mpr ⟨positive, rest.positive⟩,
      List.forall_mem_cons.mpr ⟨above, rest.above⟩, List.forall_mem_cons.mpr ⟨below, rest.below⟩,
      List.pairwise_cons.mpr ⟨apart, rest.apart⟩⟩

namespace Packed

variable {lo hi hi' : Nat} {e f : Extent} {es fs : List Extent}

theorem perm (packed : Packed lo hi es) (perm : es.Perm fs) : Packed lo hi fs :=
  ⟨fun e member => packed.positive e (perm.mem_iff.mpr member),
    fun e member => packed.above e (perm.mem_iff.mpr member),
    fun e member => packed.below e (perm.mem_iff.mpr member),
    (perm.pairwise_iff Extent.Apart.symm).mp packed.apart⟩

/-- An extent that touches its neighbour is joined with it. -/
theorem join (packed : Packed lo hi (e :: f :: es)) (touch : e.stop = f.start) :
    Packed lo hi (⟨e.start, e.length + f.length⟩ :: es) := by
  rw [packed_cons, packed_cons, List.forall_mem_cons] at packed
  obtain ⟨positive, above, -, ⟨-, apart⟩, -, -, below, apart', rest⟩ := packed
  rw [packed_cons]
  unfold Extent.Apart at *
  simp only [Extent.stop] at *
  refine ⟨by omega, above, by omega, fun g member => ?_, rest⟩
  have first := apart g member
  have second := apart' g member
  have gPositive := rest.positive g member
  omega

/-- An extent is cut in two. -/
theorem cut {s m n : Nat} (packed : Packed lo hi (⟨s, m + n⟩ :: es)) (left : 0 < m)
    (right : 0 < n) : Packed lo hi (⟨s, m⟩ :: ⟨s + m, n⟩ :: es) := by
  rw [packed_cons] at packed
  obtain ⟨-, above, below, apart, rest⟩ := packed
  rw [packed_cons, packed_cons, List.forall_mem_cons]
  unfold Extent.Apart at *
  simp only [Extent.stop] at *
  refine ⟨left, above, by omega, ⟨by omega, fun f member => ?_⟩, right, by omega, by omega,
    fun f member => ?_, rest⟩
  · have before := apart f member
    omega
  · have before := apart f member
    omega

/-- The region grows, and an extent is added at its end. -/
theorem extend {s n : Nat} (packed : Packed lo hi es) (above : lo ≤ s) (behind : hi ≤ s)
    (positive : 0 < n) (below : s + n ≤ hi') : Packed lo hi' (⟨s, n⟩ :: es) := by
  rw [packed_cons]
  refine ⟨positive, above, below, fun f member => ?_, packed.positive, packed.above,
    fun f member => ?_, packed.apart⟩
  · exact .inr ((packed.below f member).trans behind)
  · have before := packed.below f member
    omega

/-- No two extents start at one address. -/
theorem nodup_start (packed : Packed lo hi es) : (es.map Extent.start).Nodup := by
  rw [List.Nodup, List.pairwise_map]
  apply packed.apart.imp_of_mem
  intro e f eMember fMember apart same
  have ePositive := packed.positive e eMember
  have fPositive := packed.positive f fMember
  simp only [Extent.Apart, Extent.stop] at apart
  omega

end Packed

/-! ## Separated lists -/

/-- The extents go upwards, and no two of them touch. -/
def Separated (es : List Extent) : Prop :=
  es.Pairwise fun e f => e.stop < f.start

theorem Separated.untouched {es : List Extent} (separated : Separated es)
    (positive : ∀ e ∈ es, 0 < e.length) : ∀ e ∈ es, ∀ f ∈ es, e.stop ≠ f.start := by
  induction es with
  | nil => simp
  | cons d es ih =>
    rw [List.forall_mem_cons] at positive
    have first := (List.pairwise_cons.mp separated).1
    have later := ih (List.pairwise_cons.mp separated).2 positive.2
    intro e eMember f fMember
    rw [List.mem_cons] at eMember fMember
    rcases eMember with rfl | eMember
    · rcases fMember with rfl | fMember
      · simp only [Extent.stop]
        omega
      · exact (first f fMember).ne
    · rcases fMember with rfl | fMember
      · have upwards := first e eMember
        simp only [Extent.stop] at upwards ⊢
        omega
      · exact later e eMember f fMember

/-- Put `e` in front, joined with the first extent if the two touch. -/
def Extent.attach (e : Extent) : List Extent → List Extent
  | [] => [e]
  | f :: es => if e.stop = f.start then ⟨e.start, e.length + f.length⟩ :: es else e :: f :: es

theorem Separated.attach {e : Extent} {es : List Extent} (separated : Separated es)
    (before : ∀ f ∈ es, e.stop ≤ f.start) : Separated (e.attach es) := by
  cases es with
  | nil => exact List.pairwise_singleton _ _
  | cons f es =>
    have apart := List.pairwise_cons.mp separated
    rw [List.forall_mem_cons] at before
    by_cases touch : e.stop = f.start
    · rw [Extent.attach, if_pos touch]
      refine List.pairwise_cons.mpr ⟨fun g member => ?_, apart.2⟩
      have later := apart.1 g member
      simp only [Extent.stop] at touch later ⊢
      omega
    · rw [Extent.attach, if_neg touch]
      have first : e.stop < f.start := by omega
      refine List.pairwise_cons.mpr ⟨List.forall_mem_cons.mpr ⟨first, fun g member => ?_⟩,
        separated⟩
      have later := apart.1 g member
      simp only [Extent.stop] at first later ⊢
      omega

theorem Packed.attach {lo hi : Nat} {e : Extent} {es fs : List Extent}
    (packed : Packed lo hi (e :: (es ++ fs))) : Packed lo hi (e.attach es ++ fs) := by
  cases es with
  | nil => exact packed
  | cons f es =>
    by_cases touch : e.stop = f.start
    · rw [Extent.attach, if_pos touch]
      exact packed.join touch
    · rw [Extent.attach, if_neg touch]
      exact packed

theorem total_attach (e : Extent) (es : List Extent) :
    total (e.attach es) = e.length + total es := by
  cases es with
  | nil => rfl
  | cons f es =>
    rw [Extent.attach]
    split <;> simp [Nat.add_assoc]

/-- The extent is in the first one of the list. -/
theorem attach_eq_cons (e : Extent) (es : List Extent) :
    ∃ f fs, e.attach es = f :: fs ∧ f.start = e.start ∧ e.length ≤ f.length := by
  cases es with
  | nil => exact ⟨e, [], rfl, rfl, Nat.le_refl _⟩
  | cons f es =>
    by_cases touch : e.stop = f.start
    · exact ⟨_, es, if_pos touch, rfl, Nat.le_add_right _ _⟩
    · exact ⟨e, f :: es, if_neg touch, rfl, Nat.le_refl _⟩

/-- Nothing starts where no extent did. -/
theorem start_of_mem_attach {e g : Extent} {es : List Extent} (member : g ∈ e.attach es) :
    ∃ f ∈ e :: es, g.start = f.start := by
  cases es with
  | nil => exact ⟨g, member, rfl⟩
  | cons f es =>
    by_cases touch : e.stop = f.start
    · rw [Extent.attach, if_pos touch] at member
      rcases List.mem_cons.mp member with rfl | later
      · exact ⟨e, by simp, rfl⟩
      · exact ⟨g, by simp [later], rfl⟩
    · rw [Extent.attach, if_neg touch] at member
      exact ⟨g, member, rfl⟩

/-- Where the extents end is not changed. -/
theorem stop_of_mem_attach {e g : Extent} {es : List Extent} (member : g ∈ e.attach es) :
    ∃ f ∈ e :: es, g.stop = f.stop := by
  cases es with
  | nil => exact ⟨g, member, rfl⟩
  | cons f es =>
    by_cases touch : e.stop = f.start
    · rw [Extent.attach, if_pos touch] at member
      rcases List.mem_cons.mp member with rfl | later
      · refine ⟨f, by simp, ?_⟩
        simp only [Extent.stop] at touch ⊢
        omega
      · exact ⟨g, by simp [later], rfl⟩
    · rw [Extent.attach, if_neg touch] at member
      exact ⟨g, member, rfl⟩

/-- The extents that were there are in the ones of the list. -/
theorem exists_mem_attach (e : Extent) {f : Extent} {es : List Extent} (member : f ∈ es) :
    ∃ g ∈ e.attach es, f.length ≤ g.length := by
  cases es with
  | nil => cases member
  | cons g es =>
    by_cases touch : e.stop = g.start
    · rw [Extent.attach, if_pos touch]
      rcases List.mem_cons.mp member with rfl | later
      · exact ⟨_, List.mem_cons_self, Nat.le_add_left _ _⟩
      · exact ⟨f, List.mem_cons_of_mem _ later, Nat.le_refl _⟩
    · rw [Extent.attach, if_neg touch]
      exact ⟨f, List.mem_cons_of_mem _ member, Nat.le_refl _⟩

end Extents
