import Mathlib

/-!
# The matcher of `grep`

`match`, `matchhere` and `matchstar` of `grep.c`, for the characters before the NUL of the pattern
and of the text.  A pattern is read as a list of items; the matcher decides whether a part of the
text is in their language.
-/

namespace Xv6.Grep

/-- `'*'` -/
def star : UInt8 := 42

/-- `'.'` -/
def dot : UInt8 := 46

/-- `'$'` -/
def dollar : UInt8 := 36

/-- `'^'` -/
def caret : UInt8 := 94

mutual

/-- `matchhere` -/
def matchhere (re text : List UInt8) : Bool :=
  match re with
  | [] => true
  | c :: re =>
    if re.head? = some star then
      matchstar c re.tail text
    else if c = dollar ∧ re = [] then
      text.isEmpty
    else
      match text with
      | [] => false
      | t :: text => if c = dot ∨ c = t then matchhere re text else false
termination_by (re.length, text.length)
decreasing_by
  · simp only [List.length_tail, List.length_cons]
    cases re with
    | nil => simp at *
    | cons => simp [Prod.lex_def]
  · simp [Prod.lex_def]

/-- `matchstar` -/
def matchstar (c : UInt8) (re text : List UInt8) : Bool :=
  if matchhere re text then
    true
  else
    match text with
    | [] => false
    | t :: text => if t = c ∨ c = dot then matchstar c re text else false
termination_by (re.length + 1, text.length)
decreasing_by
  · simp [Prod.lex_def]
  · simp [Prod.lex_def]

end

/-- The loop of `match`. -/
def matchLoop (re : List UInt8) : List UInt8 → Bool
  | [] => matchhere re []
  | t :: text => if matchhere re (t :: text) then true else matchLoop re text

/-- `match` -/
def matchText (re text : List UInt8) : Bool :=
  if re.head? = some caret then matchhere re.tail text else matchLoop re text

/-! ## The meaning of a pattern -/

/-- A part of a pattern. -/
inductive Item
  /-- One character. -/
  | one (x : UInt8)
  /-- Any number of characters. -/
  | many (x : UInt8)
  /-- The end of the text. -/
  | final

/-- The items of a pattern, without a `^` at its start. -/
def items : List UInt8 → List Item
  | [] => []
  | [c] => if c = dollar then [.final] else [.one c]
  | c :: d :: re => if d = star then .many c :: items re else .one c :: items (d :: re)

/-- The character of the pattern stands for the one in the text. -/
def Stands (x t : UInt8) : Prop :=
  x = dot ∨ x = t

/-- The text `w` is in the language of the items, if `rest` follows it. -/
def Denotes : List Item → List UInt8 → List UInt8 → Prop
  | [], w, _ => w = []
  | .one x :: items, w, rest => ∃ t w', w = t :: w' ∧ Stands x t ∧ Denotes items w' rest
  | .many x :: items, w, rest =>
    ∃ u w', w = u ++ w' ∧ (∀ t ∈ u, Stands x t) ∧ Denotes items w' rest
  | .final :: items, w, rest => w = [] ∧ rest = [] ∧ Denotes items w rest

/-- The text starts with a part in the language of the items. -/
def Starts (items : List Item) (text : List UInt8) : Prop :=
  ∃ w rest, text = w ++ rest ∧ Denotes items w rest

variable {c x : UInt8} {re text : List UInt8} {is : List Item}

theorem starts_nil : Starts [] text :=
  ⟨[], text, rfl, rfl⟩

theorem starts_one_iff :
    Starts (.one x :: is) text ↔ ∃ t text', text = t :: text' ∧ Stands x t ∧ Starts is text' := by
  constructor
  · rintro ⟨_, rest, rfl, t, w, rfl, stands, denotes⟩
    exact ⟨t, w ++ rest, rfl, stands, w, rest, rfl, denotes⟩
  · rintro ⟨t, _, rfl, stands, w, rest, rfl, denotes⟩
    exact ⟨t :: w, rest, rfl, t, w, rfl, stands, denotes⟩

theorem starts_many_iff :
    Starts (.many x :: is) text ↔
      ∃ u v, text = u ++ v ∧ (∀ t ∈ u, Stands x t) ∧ Starts is v := by
  constructor
  · rintro ⟨_, rest, rfl, u, w, rfl, stand, denotes⟩
    exact ⟨u, w ++ rest, List.append_assoc u w rest, stand, w, rest, rfl, denotes⟩
  · rintro ⟨u, _, rfl, stand, w, rest, rfl, denotes⟩
    exact ⟨u ++ w, rest, (List.append_assoc u w rest).symm, u, w, rfl, stand, denotes⟩

theorem starts_final_iff : Starts [.final] text ↔ text = [] := by
  constructor
  · rintro ⟨_, _, rfl, rfl, rfl, -⟩
    rfl
  · rintro rfl
    exact ⟨[], [], rfl, rfl, rfl, rfl⟩

/-! ## The matcher -/

/-- A star takes as many characters as are needed. -/
theorem matchstar_iff :
    matchstar c re text = true ↔
      ∃ u v, text = u ++ v ∧ (∀ t ∈ u, Stands c t) ∧ matchhere re v = true := by
  induction text with
  | nil =>
    rw [matchstar]
    constructor
    · intro found
      exact ⟨[], [], rfl, by simp, by simpa using found⟩
    · rintro ⟨u, v, isText, -, found⟩
      obtain ⟨rfl, rfl⟩ := List.append_eq_nil_iff.mp isText.symm
      simp [found]
  | cons t text ih =>
    rw [matchstar]
    by_cases here : matchhere re (t :: text) = true
    · rw [if_pos here]
      exact iff_of_true rfl ⟨[], t :: text, rfl, by simp, here⟩
    · rw [if_neg here]
      constructor
      · intro found
        split at found
        · rename_i stands
          obtain ⟨u, v, rfl, stand, found⟩ := ih.mp found
          refine ⟨t :: u, v, rfl, List.forall_mem_cons.mpr ⟨?_, stand⟩, found⟩
          exact stands.symm.imp id Eq.symm
        · cases found
      · rintro ⟨_ | ⟨t', u⟩, v, isText, stand, found⟩
        · exact absurd (isText ▸ found) here
        · obtain ⟨rfl, rfl⟩ := List.cons_eq_cons.mp isText
          obtain ⟨stands, stand⟩ := List.forall_mem_cons.mp stand
          rw [if_pos (stands.symm.imp Eq.symm id)]
          exact ih.mpr ⟨u, v, rfl, stand, found⟩

/-- A character that is neither starred nor a `$` at the end. -/
theorem matchhere_one_iff (plain : re.head? ≠ some star) (inner : ¬ (c = dollar ∧ re = [])) :
    matchhere (c :: re) text = true ↔
      ∃ t text', text = t :: text' ∧ Stands c t ∧ matchhere re text' = true := by
  rw [matchhere.eq_def]
  simp only [if_neg plain, if_neg inner]
  cases text with
  | nil => simp
  | cons t text => simp [Stands]

/-- `matchhere` decides whether the text starts with a part in the language. -/
theorem matchhere_iff : matchhere re text = true ↔ Starts (items re) text := by
  induction re using items.induct generalizing text with
  | case1 => exact iff_of_true (by rw [matchhere]) starts_nil
  | case2 =>
    rw [matchhere.eq_def, items, if_pos rfl, starts_final_iff]
    simp
  | case3 c notDollar =>
    rw [items, if_neg notDollar, matchhere_one_iff (by simp) (by simp [notDollar]),
      starts_one_iff]
    simp [matchhere, starts_nil]
  | case4 c re ih =>
    rw [matchhere.eq_def, items, if_pos rfl, starts_many_iff]
    simp only [List.head?_cons, if_true, List.tail_cons]
    rw [matchstar_iff]
    simp only [ih]
  | case5 c d re notStar ih =>
    rw [items, if_neg notStar, matchhere_one_iff (by simpa using notStar) (by simp),
      starts_one_iff]
    simp only [ih]

theorem matchLoop_iff :
    matchLoop re text = true ↔ ∃ pre suf, text = pre ++ suf ∧ Starts (items re) suf := by
  induction text with
  | nil =>
    rw [matchLoop, matchhere_iff]
    constructor
    · exact fun starts => ⟨[], [], rfl, starts⟩
    · rintro ⟨pre, suf, isText, starts⟩
      obtain ⟨-, rfl⟩ := List.append_eq_nil_iff.mp isText.symm
      exact starts
  | cons t text ih =>
    rw [matchLoop]
    constructor
    · intro found
      split at found
      · rename_i here
        exact ⟨[], t :: text, rfl, matchhere_iff.mp here⟩
      · obtain ⟨pre, suf, rfl, starts⟩ := ih.mp found
        exact ⟨t :: pre, suf, rfl, starts⟩
    · rintro ⟨_ | ⟨t', pre⟩, suf, isText, starts⟩
      · rw [if_pos (matchhere_iff.mpr (isText ▸ starts))]
      · obtain ⟨-, rfl⟩ := List.cons_eq_cons.mp isText
        split
        · rfl
        · exact ih.mpr ⟨pre, suf, rfl, starts⟩

/-- The matcher decides the language of its pattern: a part of the text is in it, or a part at
the start of the text if the pattern starts with `^`. -/
theorem matchText_iff (re text : List UInt8) :
    matchText re text = true ↔
      if re.head? = some caret then
        ∃ w rest, text = w ++ rest ∧ Denotes (items re.tail) w rest
      else ∃ pre w rest, text = pre ++ (w ++ rest) ∧ Denotes (items re) w rest := by
  unfold matchText
  split
  · exact matchhere_iff
  · rw [matchLoop_iff]
    constructor
    · rintro ⟨pre, _, rfl, w, rest, rfl, denotes⟩
      exact ⟨pre, w, rest, rfl, denotes⟩
    · rintro ⟨pre, w, rest, rfl, denotes⟩
      exact ⟨pre, w ++ rest, rfl, w, rest, rfl, denotes⟩

end Xv6.Grep
