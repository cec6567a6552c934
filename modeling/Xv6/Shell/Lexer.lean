import Xv6.Lib.Wp

/-!
# Tokens of the shell

`gettoken` and `peek` in `sh.c`.  A pointer into the line is given by the text from there
to the end of the line, so that the cursor `*ps` is what is left of the line, and it
reaches `es` when nothing is left.  `tokens` is what repeated calls of `gettoken` return.
-/

namespace Xv6.Shell

open Stateful

/-! ## Characters -/

def ascii (text : List Char) : List UInt8 :=
  text.map Char.toUInt8

/-- `whitespace` -/
def whitespace : List UInt8 :=
  ascii [' ', '\t', '\r', '\n', '\x0b']

/-- `symbols` -/
def symbols : List UInt8 :=
  ascii ['<', '|', '>', '&', ';', '(', ')']

/-- A character that a word may have. -/
def isLetter (c : UInt8) : Bool :=
  !whitespace.contains c && !symbols.contains c

/-- The character, if it is a symbol. -/
def symbolOf (c : UInt8) : Option UInt8 :=
  if c ∈ symbols then some c else none

/-- `while(s < es && strchr(whitespace, *s)) s++;` -/
def skip (s : List UInt8) : List UInt8 :=
  s.dropWhile whitespace.contains

theorem skip_suffix (s : List UInt8) : skip s <:+ s :=
  List.dropWhile_suffix _

/-- The text that is left does not start with whitespace. -/
def Trimmed (s : List UInt8) : Prop :=
  ∀ c ∈ s.head?, c ∉ whitespace

theorem trimmed_skip (s : List UInt8) : Trimmed (skip s) := by
  intro c first
  have not := List.head?_dropWhile_not whitespace.contains s
  rw [Option.mem_def] at first
  rw [skip] at first
  rw [first] at not
  simpa using not

variable {s : List UInt8}

theorem skip_of_trimmed (trimmed : Trimmed s) : skip s = s := by
  cases s with
  | nil => rfl
  | cons c s => exact List.dropWhile_cons_of_neg (by simpa using trimmed c rfl)

@[simp]
theorem skip_skip (s : List UInt8) : skip (skip s) = skip s :=
  skip_of_trimmed (trimmed_skip s)

/-! ## Tokens -/

/-- A word in the line, from `q` to `eq`. -/
structure Span where
  word : List UInt8
  /-- `eq` -/
  stop : List UInt8
  letters : ∀ c ∈ word, isLetter c = true
  bounded : ∀ c ∈ stop.head?, isLetter c = false

/-- `q` -/
def Span.start (span : Span) : List UInt8 :=
  span.word ++ span.stop

/-- `while(s < es && !strchr(whitespace, *s) && !strchr(symbols, *s)) s++;` -/
def Span.of (s : List UInt8) : Span where
  word := s.takeWhile isLetter
  stop := s.dropWhile isLetter
  letters _ member := List.mem_takeWhile_imp member
  bounded c first := by
    have not := List.head?_dropWhile_not isLetter s
    rw [Option.mem_def.mp first] at not
    exact not

/-- What `gettoken` returns, except for 0 at the end of the line. -/
inductive Token (α : Type)
  | word (w : α)
  | bar
  | lparen
  | rparen
  | semi
  | amp
  | less
  | greater
  | append
  deriving DecidableEq

namespace Token

variable {α β : Type}

def map (f : α → β) : Token α → Token β
  | word w => word (f w)
  | bar => bar
  | lparen => lparen
  | rparen => rparen
  | semi => semi
  | amp => amp
  | less => less
  | greater => greater
  | append => append

/-- The character that `peek` sees, for a token that is not a word. -/
def symbol? : Token α → Option UInt8
  | word _ => none
  | bar => some '|'.toUInt8
  | lparen => some '('.toUInt8
  | rparen => some ')'.toUInt8
  | semi => some ';'.toUInt8
  | amp => some '&'.toUInt8
  | less => some '<'.toUInt8
  | greater | append => some '>'.toUInt8

variable {t token : Token α} {c : UInt8}

theorem symbol?_mem (symbol : token.symbol? = some c) : c ∈ symbols := by
  cases token <;> cases symbol <;> decide

/-- Only the two redirections of the output begin with the same character. -/
theorem eq_of_symbol? (same : t.symbol? = some c) (symbol : token.symbol? = some c)
    (single : c ≠ '>'.toUInt8) : t = token := by
  cases token <;> cases symbol <;> cases t <;>
    first
      | rfl
      | exact absurd rfl single
      | exact absurd (Option.some.inj same) (by decide)
      | cases same

@[simp]
theorem symbol?_map (f : α → β) (token : Token α) : (token.map f).symbol? = token.symbol? := by
  cases token <;> rfl

end Token

/-- The `switch` of `gettoken`: the token at `s` and the text after it. -/
def scan : List UInt8 → Option (Token Span) × List UInt8
  | [] => (none, [])
  | c :: s =>
    if c = 0 then (none, c :: s)
    else if c = '|'.toUInt8 then (some .bar, s)
    else if c = '('.toUInt8 then (some .lparen, s)
    else if c = ')'.toUInt8 then (some .rparen, s)
    else if c = ';'.toUInt8 then (some .semi, s)
    else if c = '&'.toUInt8 then (some .amp, s)
    else if c = '<'.toUInt8 then (some .less, s)
    else if c = '>'.toUInt8 then
      if s.head? = some '>'.toUInt8 then (some .append, s.tail) else (some .greater, s)
    else (some (.word (.of (c :: s))), (c :: s).dropWhile isLetter)

/-- The token at a character. -/
theorem scan_cons {c : UInt8} (trimmed : c ∉ whitespace) (notEnd : c ≠ 0) :
    ∃ token rest, scan (c :: s) = (some token, rest) ∧ rest <:+ s ∧
      token.symbol? = symbolOf c := by
  dsimp only [scan]
  rw [if_neg notEnd]
  split_ifs with bar lparen rparen semi amp less greater twice
  · exact ⟨_, _, rfl, List.suffix_rfl, by subst bar; rfl⟩
  · exact ⟨_, _, rfl, List.suffix_rfl, by subst lparen; rfl⟩
  · exact ⟨_, _, rfl, List.suffix_rfl, by subst rparen; rfl⟩
  · exact ⟨_, _, rfl, List.suffix_rfl, by subst semi; rfl⟩
  · exact ⟨_, _, rfl, List.suffix_rfl, by subst amp; rfl⟩
  · exact ⟨_, _, rfl, List.suffix_rfl, by subst less; rfl⟩
  · exact ⟨_, _, rfl, List.tail_suffix s, by subst greater; rfl⟩
  · exact ⟨_, _, rfl, List.suffix_rfl, by subst greater; rfl⟩
  · have plain : c ∉ symbols := by
      simp [symbols, ascii, bar, lparen, rparen, semi, amp, less, greater]
    have letter : isLetter c = true := by
      simp [isLetter, trimmed, plain]
    refine ⟨_, _, rfl, ?_, by rw [symbolOf, if_neg plain]; rfl⟩
    rw [List.dropWhile_cons_of_pos letter]
    exact List.dropWhile_suffix _

theorem scan_length_lt {rest : List UInt8} {token : Token Span} (trimmed : Trimmed s)
    (found : scan s = (some token, rest)) : rest.length < s.length := by
  cases s with
  | nil => cases found
  | cons c s =>
    have notEnd : c ≠ 0 := by
      rintro rfl
      cases found
    obtain ⟨token', rest', same, after, -⟩ := scan_cons (s := s) (trimmed c rfl) notEnd
    rw [found] at same
    cases same
    exact Nat.lt_succ_of_le after.length_le

theorem scan_suffix (trimmed : Trimmed s) : (scan s).2 <:+ s := by
  cases s with
  | nil => exact List.suffix_rfl
  | cons c s =>
    by_cases isEnd : c = 0
    · subst isEnd
      exact List.suffix_rfl
    · obtain ⟨token, rest, found, after, -⟩ := scan_cons (s := s) (trimmed c rfl) isEnd
      rw [found]
      exact after.trans (List.suffix_cons c s)

/-- The tokens of a line. -/
def tokens (s : List UInt8) : List (Token (List UInt8)) :=
  match _found : scan (skip s) with
  | (none, _) => []
  | (some token, rest) => token.map Span.word :: tokens rest
termination_by s.length
decreasing_by
  exact lt_of_lt_of_le (scan_length_lt (trimmed_skip s) _found) (skip_suffix s).length_le

theorem tokens_of_none {rest : List UInt8} (found : scan (skip s) = (none, rest)) :
    tokens s = [] := by
  rw [tokens]
  split
  · rfl
  · rename_i same
    rw [found] at same
    cases same

theorem tokens_of_some {rest : List UInt8} {token : Token Span}
    (found : scan (skip s) = (some token, rest)) :
    tokens s = token.map Span.word :: tokens rest := by
  rw [tokens]
  split
  · rename_i same
    rw [found] at same
    cases same
  · rename_i same
    rw [found] at same
    cases same
    rfl

@[simp]
theorem tokens_skip (s : List UInt8) : tokens (skip s) = tokens s := by
  cases found : scan (skip s) with
  | mk token rest =>
    cases token with
    | none => rw [tokens_of_none found, tokens_of_none (by rw [skip_skip, found])]
    | some token => rw [tokens_of_some found, tokens_of_some (by rw [skip_skip, found])]

/-- A line without NUL has no tokens if it is blank. -/
theorem skip_eq_nil_of_tokens (noNul : 0 ∉ s) (none : tokens s = []) : skip s = [] := by
  cases rest : skip s with
  | nil => rfl
  | cons c t =>
    have trimmed := trimmed_skip s
    rw [rest] at trimmed
    have member : c ∈ s := (skip_suffix s).subset (by simp [rest])
    have notEnd : c ≠ 0 := by
      rintro rfl
      exact noNul member
    obtain ⟨token, rest', found, -, -⟩ := scan_cons (s := t) (trimmed c rfl) notEnd
    rw [← rest] at found
    rw [tokens_of_some found] at none
    cases none

/-- The character that `peek` sees. -/
def first {α : Type} (ts : List (Token α)) : Option UInt8 :=
  ts.head?.bind Token.symbol?

/-! ## The functions -/

/-- Why the parser stops. -/
inductive Stop
  /-- `"syntax"`, after the leftovers have been printed -/
  | leftovers
  /-- `"missing file for redirection"` -/
  | missingFile
  /-- `"parseblock"` -/
  | parseblock
  /-- `"syntax - missing )"` -/
  | missingParen
  /-- `"syntax"` -/
  | notWord
  /-- `"too many args"` -/
  | tooManyArgs
  /-- The bound on the number of rounds and calls has been reached. -/
  | fuel

/-- Code that moves the cursor. -/
abbrev Parser (α : Type) := Prog Stop (List UInt8) α

/-- `gettoken` -/
def gettoken : Parser (Option (Token Span)) := do
  modify skip
  let s ← get
  modify fun _ => skip (scan s).2
  return (scan s).1

/-- `peek` -/
def peek (toks : List UInt8) : Parser Bool := do
  modify skip
  let s ← get
  return s.head?.any fun c => c ≠ 0 && toks.contains c

/-- From a pointer into `line` the cursor stays in `line`, and the result is `good`. -/
def Keeps {α : Type} (line : List UInt8) (good : α → Prop) (parse : Parser α) : Prop :=
  ∀ s, s <:+ line → Wp parse (fun _ => True) (fun value s' => s' <:+ line ∧ good value) s

namespace Keeps

variable {α β : Type} {line : List UInt8} {good : α → Prop} {good' : β → Prop}

theorem pure {value : α} (holds : good value) : Keeps line good (Pure.pure value) :=
  fun _ inside => ⟨inside, holds⟩

theorem throw (reason : Stop) : Keeps line good (MonadExcept.throw reason : Parser α) :=
  fun _ _ => trivial

theorem throw_bind (reason : Stop) (next : α → Parser β) :
    Keeps line good' (MonadExcept.throw reason >>= next) :=
  fun _ _ => trivial

theorem bind {parse : Parser α} {next : α → Parser β} (first : Keeps line good parse)
    (rest : ∀ value, good value → Keeps line good' (next value)) :
    Keeps line good' (parse >>= next) :=
  fun s inside => (first s inside).seq fun value s' found => rest value found.2 s' found.1

end Keeps

/-- The pointers of the word are in the line. -/
def Span.Inside (line : List UInt8) (span : Span) : Prop :=
  span.start <:+ line

theorem start_of_scan {span : Span} (found : (scan s).1 = some (.word span)) : span.start = s := by
  cases s with
  | nil => cases found
  | cons c s =>
    dsimp only [scan] at found
    split_ifs at found <;> cases found
    exact List.takeWhile_append_dropWhile

theorem gettoken_keeps {line : List UInt8} :
    Keeps line (fun token => ∀ span, token = some (.word span) → span.Inside line) gettoken := by
  intro s inside
  unfold gettoken
  simp only [wp_bind, wp_modify, wp_get, wp_pure]
  have trimmed := (skip_suffix s).trans inside
  refine ⟨(skip_suffix _).trans ((scan_suffix (trimmed_skip s)).trans trimmed), ?_⟩
  intro span found
  rw [Span.Inside, start_of_scan found]
  exact trimmed

theorem peek_keeps {line : List UInt8} (toks : List UInt8) :
    Keeps line (fun _ => True) (peek toks) := by
  intro s inside
  unfold peek
  simp only [wp_bind, wp_modify, wp_get, wp_pure]
  exact ⟨(skip_suffix s).trans inside, trivial⟩

theorem gettoken_spec (s : List UInt8) :
    Wp gettoken (fun _ => False) (fun token s' =>
      token = none ∧ tokens s = [] ∧ tokens s' = [] ∨
        ∃ t, token = some t ∧ tokens s = t.map Span.word :: tokens s') s := by
  unfold gettoken
  simp only [wp_bind, wp_modify, wp_get, wp_pure, tokens_skip]
  cases found : scan (skip s) with
  | mk token rest =>
    cases token with
    | some token => exact .inr ⟨token, rfl, tokens_of_some found⟩
    | none =>
      refine .inl ⟨rfl, tokens_of_none found, ?_⟩
      have stays : rest = skip s := by
        cases s' : skip s with
        | nil =>
          rw [s'] at found
          cases found
          rfl
        | cons c t =>
          have trimmed := trimmed_skip s
          rw [s'] at trimmed found
          by_cases isEnd : c = 0
          · subst isEnd
            cases found
            rfl
          · obtain ⟨_, _, same, -, -⟩ := scan_cons (s := t) (trimmed c rfl) isEnd
            rw [same] at found
            cases found
      rw [stays, tokens_skip, tokens_of_none found]

theorem peek_spec {toks : List UInt8} (some : ∀ c ∈ toks, c ∈ symbols) (s : List UInt8) :
    Wp (peek toks) (fun _ => False) (fun found s' => s' = skip s ∧ tokens s' = tokens s ∧
      found = (first (tokens s)).any toks.contains) s := by
  unfold peek
  simp only [wp_bind, wp_modify, wp_get, wp_pure]
  refine ⟨trivial, tokens_skip s, ?_⟩
  cases s' : skip s with
  | nil =>
    rw [tokens_of_none (s := s) (by rw [s']; rfl)]
    rfl
  | cons c t =>
    have trimmed := trimmed_skip s
    rw [s'] at trimmed
    by_cases isEnd : c = 0
    · subst isEnd
      rw [tokens_of_none (s := s) (by rw [s']; rfl)]
      rfl
    · obtain ⟨token, rest, found, -, symbol⟩ := scan_cons (s := t) (trimmed c rfl) isEnd
      rw [← s'] at found
      rw [tokens_of_some found]
      simp only [first, List.head?_cons, Option.bind_some, Token.symbol?_map, symbol]
      by_cases isSymbol : c ∈ symbols
      · simp [symbolOf, isEnd, isSymbol]
      · have not : c ∉ toks := fun member => isSymbol (some c member)
        simp [symbolOf, isSymbol, not]

end Xv6.Shell
