import Xv6.Grep.Match

/-!
# The lines of `grep`

`grep` keeps the beginning of a line in its buffer until the rest arrives, but only behind a
line that is complete.  If a chunk of the input ends no line, it is thrown away with what was
kept of the line before it.
-/

namespace Xv6.Grep

/-- `'\n'` -/
def newline : UInt8 := 10

/-- `q = strchr(p, '\n')`: the characters from `p` to `q` and those behind `q`. -/
def strchr : List UInt8 → Option (List UInt8 × List UInt8)
  | [] => none
  | c :: s =>
    if c = 0 then none
    else if c = newline then some ([], s)
    else (strchr s).map fun (line, rest) => (c :: line, rest)

theorem strchr_lt {s line rest : List UInt8} (found : strchr s = some (line, rest)) :
    rest.length < s.length := by
  induction s generalizing line with
  | nil => cases found
  | cons c s ih =>
    rw [strchr] at found
    split at found
    · cases found
    · split at found
      · cases found
        exact Nat.lt_succ_self _
      · obtain ⟨⟨line', rest'⟩, found', isPair⟩ := Option.map_eq_some_iff.mp found
        cases isPair
        exact (ih found').trans (Nat.lt_succ_self _)

/-- The inner loop of `grep`: what is written, and the characters from `p` on. -/
def scan (pattern s : List UInt8) : List UInt8 × List UInt8 :=
  match _found : strchr s with
  | none => ([], s)
  | some (line, rest) =>
    let later := scan pattern rest
    ((if matchText pattern line then line ++ [newline] else []) ++ later.1, later.2)
termination_by s.length
decreasing_by exact strchr_lt _found

/-- One round of `grep`, for the characters in the buffer: what is written and what is kept. -/
def round (pattern buf : List UInt8) : List UInt8 × List UInt8 :=
  let p := (scan pattern buf).2
  ((scan pattern buf).1, if p.length = buf.length then [] else p)

/-- The loop of `grep`, for the chunks that `read` returns. -/
def grepLoop (pattern : List UInt8) : List UInt8 → List (List UInt8) → List UInt8
  | _, [] => []
  | kept, chunk :: chunks =>
    (round pattern (kept ++ chunk)).1 ++ grepLoop pattern (round pattern (kept ++ chunk)).2 chunks

/-- `grep` -/
def grep (pattern : List UInt8) (chunks : List (List UInt8)) : List UInt8 :=
  grepLoop pattern [] chunks

/-- `read` returns something, and no more than fits into the buffer. -/
def Reads (pattern : List UInt8) : List UInt8 → List (List UInt8) → Prop
  | _, [] => True
  | kept, chunk :: chunks => chunk ≠ [] ∧ chunk.length ≤ 1024 - kept.length - 1 ∧
      Reads pattern (round pattern (kept ++ chunk)).2 chunks

/-- Lines, each with its newline. -/
def terminated (lines : List (List UInt8)) : List UInt8 :=
  lines.flatMap (· ++ [newline])

/-- `grep` writes the lines of the input that match, complete and in order. -/
def WritesLines (chunks : List (List UInt8)) : Prop :=
  ∀ pattern lines last, (∀ line ∈ lines, newline ∉ line) → newline ∉ last →
    chunks.flatten = terminated lines ++ last →
    grep pattern chunks = terminated (lines.filter (matchText pattern))

variable {pattern s t line kept : List UInt8} {chunks : List (List UInt8)}

/-! ## Texts and their lines -/

/-- A text has no newline, or it is a line with another text behind it. -/
theorem lines_induction {motive : List UInt8 → Prop} (last : ∀ s, newline ∉ s → motive s)
    (line : ∀ line s, newline ∉ line → motive s → motive (line ++ newline :: s)) (s : List UInt8) :
    motive s := by
  induction size : s.length using Nat.strongRecOn generalizing s with
  | _ n ih =>
    by_cases member : newline ∈ s
    · obtain ⟨before, after, rfl, free⟩ := List.eq_append_cons_of_mem member
      refine line before after free (ih _ ?_ after rfl)
      rw [← size, List.length_append, List.length_cons]
      omega
    · exact last s member

theorem strchr_none (free : newline ∉ s) : strchr s = none := by
  induction s with
  | nil => rfl
  | cons c s ih =>
    obtain ⟨other, free⟩ := not_or.mp (mt List.mem_cons.mpr free)
    rw [strchr, ih free, if_neg (Ne.symm other)]
    split <;> rfl

theorem strchr_line (free : newline ∉ line) (noNul : 0 ∉ line) :
    strchr (line ++ newline :: s) = some (line, s) := by
  induction line with
  | nil => rfl
  | cons c line ih =>
    obtain ⟨other, free⟩ := not_or.mp (mt List.mem_cons.mpr free)
    obtain ⟨nonzero, noNul⟩ := not_or.mp (mt List.mem_cons.mpr noNul)
    rw [List.cons_append, strchr, if_neg (Ne.symm nonzero), if_neg (Ne.symm other),
      ih free noNul]
    rfl

/-! ## The inner loop -/

theorem scan_none (free : newline ∉ s) : scan pattern s = ([], s) := by
  rw [scan]
  split
  · rfl
  · rename_i found
    cases (strchr_none free).symm.trans found

theorem scan_line (free : newline ∉ line) (noNul : 0 ∉ line) :
    scan pattern (line ++ newline :: s) =
      ((if matchText pattern line then line ++ [newline] else []) ++ (scan pattern s).1,
        (scan pattern s).2) := by
  rw [scan]
  split
  · rename_i found
    cases (strchr_line free noNul).symm.trans found
  · rename_i found
    cases (strchr_line free noNul).symm.trans found
    rfl

/-- The text that is left after a part of the input is looked at together with the rest. -/
theorem scan_append (noNul : 0 ∉ s) :
    scan pattern (s ++ t) = ((scan pattern s).1 ++ (scan pattern ((scan pattern s).2 ++ t)).1,
      (scan pattern ((scan pattern s).2 ++ t)).2) := by
  induction s using lines_induction with
  | last s free => rw [scan_none free, List.nil_append]
  | line line s free ih =>
    simp only [List.mem_append, List.mem_cons, not_or] at noNul
    rw [List.append_assoc, List.cons_append, scan_line free noNul.1, scan_line free noNul.1,
      ih noNul.2.2]
    simp only [List.append_assoc]

theorem scan_rest (pattern : List UInt8) (noNul : 0 ∉ s) :
    newline ∉ (scan pattern s).2 ∧ (scan pattern s).2 <:+ s ∧
      ((scan pattern s).2.length = s.length ↔ newline ∉ s) := by
  induction s using lines_induction with
  | last s free =>
    rw [scan_none free]
    exact ⟨free, List.suffix_refl s, iff_of_true rfl free⟩
  | line line s free ih =>
    simp only [List.mem_append, List.mem_cons, not_or] at noNul
    obtain ⟨rest, suffix, -⟩ := ih noNul.2.2
    rw [scan_line free noNul.1]
    have shorter := suffix.length_le
    refine ⟨rest, suffix.trans ⟨line ++ [newline], by simp⟩, iff_of_false ?_ (by simp)⟩
    simp only [List.length_append, List.length_cons]
    omega

/-- The lines that match are written. -/
theorem scan_lines {lines : List (List UInt8)} (free : ∀ line ∈ lines, newline ∉ line)
    (noNul : 0 ∉ terminated lines) (freeLast : newline ∉ s) :
    scan pattern (terminated lines ++ s) =
      (terminated (lines.filter (matchText pattern)), s) := by
  induction lines with
  | nil => exact scan_none freeLast
  | cons line lines ih =>
    obtain ⟨freeLine, free⟩ := List.forall_mem_cons.mp free
    have isText : terminated (line :: lines) = line ++ newline :: terminated lines := by
      simp [terminated]
    rw [isText] at noNul ⊢
    simp only [List.mem_append, List.mem_cons, not_or] at noNul
    rw [List.append_assoc, List.cons_append, scan_line freeLine noNul.1,
      ih free noNul.2.2]
    by_cases hit : matchText pattern line = true <;> simp [hit, terminated]

theorem exists_lines (s : List UInt8) : ∃ lines last, (∀ line ∈ lines, newline ∉ line) ∧
    newline ∉ last ∧ s = terminated lines ++ last := by
  induction s using lines_induction with
  | last s free => exact ⟨[], s, by simp, free, rfl⟩
  | line line s free ih =>
    obtain ⟨lines, last, frees, freeLast, rfl⟩ := ih
    refine ⟨line :: lines, last, List.forall_mem_cons.mpr ⟨free, frees⟩, freeLast, ?_⟩
    simp [terminated]

/-- The property in terms of the inner loop. -/
theorem writesLines_iff (noNul : 0 ∉ chunks.flatten) :
    WritesLines chunks ↔ ∀ pattern, grep pattern chunks = (scan pattern chunks.flatten).1 := by
  constructor
  · intro writes pattern
    obtain ⟨lines, last, free, freeLast, isText⟩ := exists_lines chunks.flatten
    rw [writes pattern lines last free freeLast isText, isText, scan_lines free _ freeLast]
    rw [isText] at noNul
    exact fun member => noNul (List.mem_append_left _ member)
  · intro equal pattern lines last free freeLast isText
    rw [equal, isText, scan_lines free _ freeLast]
    rw [isText] at noNul
    exact fun member => noNul (List.mem_append_left _ member)

/-! ## The chunks -/

/-- No line is completed after a chunk that completes none. -/
def Unbroken (chunks : List (List UInt8)) : Prop :=
  chunks.Pairwise fun chunk later => newline ∉ chunk → newline ∉ later

theorem round_of_mem (noNul : 0 ∉ s) (member : newline ∈ s) : round pattern s = scan pattern s := by
  unfold round
  simp only [(scan_rest pattern noNul).2.2, member, not_true_eq_false, if_false]

theorem round_of_notMem (free : newline ∉ s) : round pattern s = ([], []) := by
  unfold round
  simp only [scan_none free, if_true]

/-- Without a newline nothing is written. -/
theorem grepLoop_none (free : newline ∉ kept ++ chunks.flatten) :
    grepLoop pattern kept chunks = [] := by
  induction chunks generalizing kept with
  | nil => rfl
  | cons chunk chunks ih =>
    rw [List.flatten_cons, ← List.append_assoc] at free
    obtain ⟨first, rest⟩ := not_or.mp (mt List.mem_append.mpr free)
    rw [grepLoop, round_of_notMem first]
    exact ih rest

theorem grepLoop_of_unbroken (unbroken : Unbroken chunks) (free : newline ∉ kept)
    (noNul : 0 ∉ kept ++ chunks.flatten) :
    grepLoop pattern kept chunks = (scan pattern (kept ++ chunks.flatten)).1 := by
  induction chunks generalizing kept with
  | nil =>
    rw [List.flatten_nil, List.append_nil, scan_none free]
    rfl
  | cons chunk chunks ih =>
    obtain ⟨later, unbroken⟩ := List.pairwise_cons.mp unbroken
    by_cases member : newline ∈ chunk
    · rw [List.flatten_cons, ← List.append_assoc] at noNul ⊢
      obtain ⟨first, rest⟩ := not_or.mp (mt List.mem_append.mpr noNul)
      obtain ⟨free', suffix, -⟩ := scan_rest pattern first
      rw [grepLoop, round_of_mem first (List.mem_append_right _ member), scan_append first,
        ih unbroken free']
      exact mt List.mem_append.mp (not_or.mpr ⟨fun nul => first (suffix.subset nul), rest⟩)
    · have none : newline ∉ kept ++ (chunk :: chunks).flatten := by
        simp only [List.mem_append, List.flatten_cons, List.mem_flatten, not_or,
          not_exists, not_and]
        exact ⟨free, member, fun chunk' here => later chunk' here member⟩
      rw [grepLoop_none none, scan_none none]

/-! ## What is lost -/

theorem matchText_nil (text : List UInt8) : matchText [] text = true := by
  cases text <;> simp [matchText, matchLoop, matchhere]

/-- Characters in front of a newline belong to the line that it ends. -/
theorem length_scan_append (free : newline ∉ s) (noNul : 0 ∉ s ++ t) (member : newline ∈ t) :
    (scan [] (s ++ t)).1.length = s.length + (scan [] t).1.length := by
  obtain ⟨line, rest, rfl, freeLine⟩ := List.eq_append_cons_of_mem member
  simp only [List.mem_append, List.mem_cons, not_or] at noNul
  rw [← List.append_assoc, scan_line freeLine noNul.2.1, scan_line _ _]
  · simp only [if_pos (matchText_nil _), List.length_append]
    omega
  · simp [free, freeLine]
  · simp [noNul]

/-- With the empty pattern some characters are missing if a chunk is thrown away. -/
theorem unbroken_or_lost (nonempty : ∀ chunk ∈ chunks, chunk ≠ []) (free : newline ∉ kept)
    (noNul : 0 ∉ kept ++ chunks.flatten) :
    (grepLoop [] kept chunks).length ≤ (scan [] (kept ++ chunks.flatten)).1.length ∧
      (Unbroken chunks ∨
        (grepLoop [] kept chunks).length < (scan [] (kept ++ chunks.flatten)).1.length) := by
  induction chunks generalizing kept with
  | nil => exact ⟨Nat.zero_le _, .inl .nil⟩
  | cons chunk chunks ih =>
    obtain ⟨some, nonempty⟩ := List.forall_mem_cons.mp nonempty
    rw [List.flatten_cons, ← List.append_assoc] at noNul ⊢
    obtain ⟨first, rest⟩ := not_or.mp (mt List.mem_append.mpr noNul)
    by_cases member : newline ∈ chunk
    · obtain ⟨free', suffix, -⟩ := scan_rest [] first
      have later := ih nonempty free'
        (mt List.mem_append.mp (not_or.mpr ⟨fun nul => first (suffix.subset nul), rest⟩))
      rw [grepLoop, round_of_mem first (List.mem_append_right _ member), scan_append first]
      simp only [List.length_append]
      refine ⟨Nat.add_le_add_left later.1 _, later.2.imp (fun unbroken => ?_) fun less => by omega⟩
      exact List.pairwise_cons.mpr ⟨fun _ _ none => absurd member none, unbroken⟩
    · have none : newline ∉ kept ++ chunk := by simp [free, member]
      have later := (ih nonempty List.not_mem_nil rest).1
      rw [grepLoop, round_of_notMem none]
      simp only [List.nil_append] at later ⊢
      by_cases more : newline ∈ chunks.flatten
      · have all := length_scan_append none noNul more
        have pos := List.length_pos_of_ne_nil some
        rw [List.length_append] at all
        exact ⟨by omega, .inr (by omega)⟩
      · have never : ∀ later ∈ chunks, newline ∉ later := fun later here inside =>
          more (List.mem_flatten.mpr ⟨later, here, inside⟩)
        rw [scan_none more] at later
        refine ⟨later.trans (Nat.zero_le _), .inl (List.pairwise_cons.mpr ⟨?_, ?_⟩)⟩
        · exact fun later here _ => never later here
        · exact List.pairwise_of_forall_mem_list fun _ _ later here _ => never later here

theorem Reads.nonempty (reads : Reads pattern kept chunks) : ∀ chunk ∈ chunks, chunk ≠ [] := by
  induction chunks generalizing kept with
  | nil => simp
  | cons chunk chunks ih =>
    exact List.forall_mem_cons.mpr ⟨reads.1, ih reads.2.2⟩

/-- `grep` writes the lines that match, complete and in order, just when no line is completed
after a chunk that completes none. -/
theorem grep_writesLines_iff (reads : ∀ pattern, Reads pattern [] chunks)
    (noNul : 0 ∉ chunks.flatten) : WritesLines chunks ↔ Unbroken chunks := by
  rw [writesLines_iff noNul]
  constructor
  · intro equal
    have lost := (unbroken_or_lost (reads []).nonempty List.not_mem_nil noNul).2
    rw [List.nil_append, ← equal []] at lost
    exact lost.resolve_right (Nat.lt_irrefl _)
  · intro unbroken pattern
    exact grepLoop_of_unbroken unbroken List.not_mem_nil noNul

/-- The second line starts in the first chunk and ends in the second one. -/
theorem grep_writesLines_two : WritesLines [[97, 10, 98], [99, 10]] := by
  have kept (pattern : List UInt8) : (round pattern [97, 10, 98]).2 = [98] := by
    rw [round, show [97, 10, 98] = [97] ++ newline :: [98] from rfl,
      scan_line (by decide) (by decide), scan_none (by decide)]
    rfl
  refine (grep_writesLines_iff (fun _ => by simp [Reads, kept]) (by decide)).mpr ?_
  exact List.pairwise_pair.mpr fun broken => absurd (by decide) broken

/-- The line `ab` is written if it comes in one chunk, and not if it comes in two. -/
theorem grep_loses_line : (∀ pattern, Reads pattern [] [[97], [98, 10]]) ∧
    grep [97] [[97, 98, 10]] = [97, 98, 10] ∧ grep [97] [[97], [98, 10]] = [] ∧
      ¬ WritesLines [[97], [98, 10]] := by
  have first (pattern : List UInt8) : round pattern [97] = ([], []) :=
    round_of_notMem (by decide)
  have hit : matchText [97] [97, 98] = true := by
    simp [matchText, matchLoop, matchhere, caret, star, dollar]
  have miss : matchText [97] [98] = false := by
    simp [matchText, matchLoop, matchhere, caret, star, dollar, dot]
  have whole : scan [97] [97, 98, 10] = ([97, 98, 10], []) := by
    rw [show [97, 98, 10] = [97, 98] ++ newline :: [] from rfl,
      scan_line (by decide) (by decide), if_pos hit, scan_none List.not_mem_nil]
    rfl
  have half : scan [97] [98, 10] = ([], []) := by
    rw [show [98, 10] = [98] ++ newline :: [] from rfl, scan_line (by decide) (by decide), miss,
      scan_none List.not_mem_nil]
    rfl
  have written : grep [97] [[97, 98, 10]] = [97, 98, 10] := by
    simp [grep, grepLoop, round, whole]
  have last : round [97] [98, 10] = ([], []) := by simp [round, half]
  have lost : grep [97] [[97], [98, 10]] = [] := by simp [grep, grepLoop, first, last]
  refine ⟨fun pattern => by simp [Reads, first], written, lost, fun writes => ?_⟩
  have complete := writes [97] [[97, 98]] [] (by decide) (by decide) rfl
  rw [lost] at complete
  simp [terminated, hit] at complete

end Xv6.Grep
