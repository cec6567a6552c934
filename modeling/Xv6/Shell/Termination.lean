import Xv6.Shell.Completeness

/-!
# The strings of the command tree

`nulterminate` stores a NUL behind every word of the line, on top of the character that
follows the word.  In the buffer that it leaves every pointer of the tree is the string of
its word.
-/

namespace Xv6.Shell

open Stateful

variable {line s : List UInt8} {ends : List (List UInt8)} {fuel : Nat} {cmd : Cmd Span}

/-- The line from a pointer on, after NULs have been stored at `ends`. -/
def stored (ends : List (List UInt8)) : List UInt8 → List UInt8
  | [] => []
  | c :: s => (if ends.contains (c :: s) then 0 else c) :: stored ends s

/-- The buffer of a line after `nulterminate`, with the NUL at its end, from a pointer on. -/
def bufferAt (line : List UInt8) (cmd : Cmd Span) (pointer : List UInt8) : List UInt8 :=
  (stored (nulterminate cmd) line ++ [0]).drop (line.length - pointer.length)

/-- There is room in `argv` for the null pointer behind the arguments. -/
def Cmd.Few {α : Type} : Cmd α → Prop
  | .exec argv => argv.length < maxargs
  | .redir cmd _ _ _ => cmd.Few
  | .pipe left right => left.Few ∧ right.Few
  | .list left right => left.Few ∧ right.Few
  | .back cmd => cmd.Few

/-- What `nulterminate` is to leave of a line. -/
structure Cmd.Terminated (line : List UInt8) (cmd : Cmd Span) : Prop where
  inside : cmd.Inside line
  few : cmd.words.Few
  /-- Read as a C string, every pointer gives its word. -/
  strings : cmd.All fun span => CString.text (bufferAt line cmd span.start) = span.word
  /-- No NUL is in the middle of a word. -/
  kept : cmd.All fun span => (bufferAt line cmd span.start).take span.word.length =
    (line.drop (line.length - span.start.length)).take span.word.length

/-! ## Trees -/

namespace Cmd

variable {α β : Type} {t : Cmd α} {p q r : α → Prop}

theorem All.imp₂ (first : t.All p) (second : t.All q) (imp : ∀ a, p a → q a → r a) : t.All r := by
  induction t with
  | exec argv => exact fun a member => imp a (first a member) (second a member)
  | redir cmd file mode fd ih => exact ⟨ih first.1 second.1, imp file first.2 second.2⟩
  | pipe left right ih ih' | list left right ih ih' =>
    exact ⟨ih first.1 second.1, ih' first.2 second.2⟩
  | back cmd ih => exact ih first second

theorem all_of_map_eq {f g : α → β} (same : t.map f = t.map g) : t.All fun a => f a = g a := by
  induction t with
  | exec argv => exact List.map_inj_left.mp (exec.inj same)
  | redir cmd file mode fd ih =>
    obtain ⟨inner, isFile, -⟩ := redir.inj same
    exact ⟨ih inner, isFile⟩
  | pipe left right ih ih' => exact ⟨ih (pipe.inj same).1, ih' (pipe.inj same).2⟩
  | list left right ih ih' => exact ⟨ih (list.inj same).1, ih' (list.inj same).2⟩
  | back cmd ih => exact ih (back.inj same)

theorem few_redirect (rs : List (Redir α)) : (t.redirect rs).Few ↔ t.Few := by
  induction rs generalizing t with
  | nil => exact .rfl
  | cons r rs ih => exact ih

theorem few_iterate_back (n : Nat) : (back^[n] t).Few ↔ t.Few := by
  induction n generalizing t with
  | zero => exact .rfl
  | succ n ih => exact ih

end Cmd

theorem Derives.few {α : Type} {k : Nonterminal} {ts : List (Token α)} {t : Cmd α}
    (derives : Derives k ts t) : t.Few := by
  induction derives with
  | block _ _ ih => exact (Cmd.few_redirect _).mpr ih
  | simple _ _ short => exact (Cmd.few_redirect _).mpr (Nat.lt_of_le_pred (by decide) short)
  | single _ ih => exact ih
  | pipe _ _ ih ih' => exact ⟨ih, ih'⟩
  | last n _ ih => exact (Cmd.few_iterate_back n).mpr ih
  | list n _ _ ih ih' => exact ⟨(Cmd.few_iterate_back n).mpr ih, ih'⟩

/-! ## The buffer -/

/-- The string at a pointer is read from the buffer. -/
theorem text_stored (noNul : 0 ∉ s) : CString.text (stored ends s ++ [0]) = stringAt ends s := by
  induction s with
  | nil => rfl
  | cons c s ih =>
    rw [List.mem_cons, not_or] at noNul
    rw [stored, stringAt, List.cons_append, CString.text_cons, ih noNul.2]
    by_cases isEnd : c :: s ∈ ends
    · simp [isEnd]
    · simp [isEnd, Ne.symm noNul.1]

theorem bufferAt_eq {pointer : List UInt8} (inside : pointer <:+ line) :
    bufferAt line cmd pointer = stored (nulterminate cmd) pointer ++ [0] := by
  obtain ⟨before, rfl⟩ := inside
  rw [bufferAt, List.length_append, Nat.add_sub_cancel]
  induction before with
  | nil => rfl
  | cons c before ih => exact ih

theorem Cmd.Inside.terminated (inside : cmd.Inside line) (noNul : 0 ∉ line) (few : cmd.words.Few) :
    cmd.Terminated line := by
  have strings : cmd.All fun span => CString.text (bufferAt line cmd span.start) = span.word := by
    refine inside.imp₂ (Cmd.all_of_map_eq cmd.strings_eq) fun span within isWord => ?_
    rw [bufferAt_eq within, text_stored fun member => noNul (within.mem member)]
    exact isWord
  refine ⟨inside, few, strings, inside.imp₂ strings fun span within isWord => ?_⟩
  have word : span.word <+: bufferAt line cmd span.start := by
    rw [← isWord]
    exact List.takeWhile_prefix _
  rw [← List.prefix_iff_eq_take.mp word, ← List.suffix_iff_eq_drop.mp within, Span.start]
  simp

theorem parsewhole_inside :
    Wp (parsewhole fuel) (fun _ => True) (fun tree _ => ∃ cmd rest,
      (parseline fuel).run s = .ok (cmd, rest) ∧ tree = cmd.words ∧ cmd.Inside s) s := by
  unfold parsewhole
  apply (Wp.self.and ((parse_keeps fuel).1 s List.suffix_rfl)).bind (fun _ _ => trivial)
  rintro cmd rest ⟨parsed, -, inside⟩
  apply (peek_spec (by simp) rest).bind (fun _ _ => trivial)
  rintro _ s₂ -
  simp only [wp_bind, wp_get]
  split_ifs
  · trivial
  · exact ⟨cmd, rest, parsed, cmd.strings_eq, inside⟩

/-- In-place termination preserves every lexeme.  If `parsecmd` accepts a line, the strings of
the tree that `parseline` has built are its words after `nulterminate`. -/
theorem nulterminate_preserves {tree : Cmd (List UInt8)} (accepted : parsecmd fuel s = .ok tree) :
    ∃ cmd rest, (parseline fuel).run (CString.text s) = .ok (cmd, rest) ∧ tree = cmd.words ∧
      cmd.Terminated (CString.text s) := by
  have noNul : 0 ∉ CString.text s := fun member => CString.ne_zero_of_mem_text member rfl
  have asRun : parsecmd fuel s = ((parsewhole fuel).run (CString.text s)).map Prod.fst := rfl
  cases outcome : (parsewhole fuel).run (CString.text s) with
  | error reason =>
    rw [asRun, outcome] at accepted
    cases accepted
  | ok result =>
    rw [asRun, outcome] at accepted
    obtain rfl : result.1 = tree := Except.ok.inj accepted
    obtain ⟨cmd, rest, parsed, isTree, inside⟩ := parsewhole_inside.ok outcome
    have few := ((parsewhole_sound (CString.text s)).ok outcome).few
    rw [isTree] at few
    exact ⟨cmd, rest, parsed, isTree, inside.terminated noNul few⟩

/-- Words that are separated by symbols only. -/
theorem nulterminate_preserves_symbols : ∃ cmd : Cmd Span,
    parsecmd 24 (ascii "a>b|c".toList) = .ok cmd.words ∧ cmd.Terminated (ascii "a>b|c".toList) := by
  have accepted : parsecmd 24 (ascii "a>b|c".toList) =
      .ok (.pipe (.redir (.exec [ascii ['a']]) (ascii ['b']) (oWronly ||| oCreate) 1)
        (.exec [ascii ['c']])) := rfl
  obtain ⟨cmd, -, -, isTree, terminated⟩ := nulterminate_preserves accepted
  exact ⟨cmd, isTree ▸ accepted, terminated⟩

end Xv6.Shell
