import Xv6.Shell.Parser

/-!
# What the parser accepts

Each function of the parser consumes tokens that its nonterminal derives, and returns the
tree of the derivation.  With enough rounds it does not run out of them.
-/

namespace Xv6.Shell

open Stateful

variable {line s s' : List UInt8} {fuel : Nat}

/-! ## The pointers -/

/-- All strings of the tree are good. -/
def Cmd.All {α : Type} (good : α → Prop) : Cmd α → Prop
  | .exec argv => ∀ arg ∈ argv, good arg
  | .redir cmd file _ _ => cmd.All good ∧ good file
  | .pipe left right => left.All good ∧ right.All good
  | .list left right => left.All good ∧ right.All good
  | .back cmd => cmd.All good

/-- The pointers of the tree are in the line. -/
abbrev Cmd.Inside (line : List UInt8) (cmd : Cmd Span) : Prop :=
  cmd.All (Span.Inside line)

variable {cmd : Cmd Span} {argc : Nat}

theorem Cmd.Inside.pushArg {arg : Span} (inside : cmd.Inside line) (argInside : arg.Inside line) :
    (cmd.pushArg arg).Inside line := by
  induction cmd with
  | exec argv =>
    rw [Cmd.pushArg, Cmd.Inside, Cmd.All, List.forall_mem_append, List.forall_mem_singleton]
    exact ⟨inside, argInside⟩
  | redir cmd file mode fd ih => exact ⟨ih inside.1, inside.2⟩
  | pipe left right | list left right | back cmd => exact inside

theorem parseredirs_keeps (inside : cmd.Inside line) :
    Keeps line (Cmd.Inside line) (parseredirs fuel cmd) := by
  induction fuel generalizing cmd with
  | zero => exact .throw _
  | succ fuel ih =>
    rw [parseredirs]
    refine (peek_keeps _).bind fun found _ => ?_
    split
    · refine gettoken_keeps.bind fun tok _ => gettoken_keeps.bind fun file within => ?_
      split
      · rename_i file
        split
        · rename_i r isRedir
          have sameFile : r.file = file := by
            obtain ⟨token, -, isRedir⟩ := Option.bind_eq_some_iff.mp isRedir
            cases token <;> cases isRedir <;> rfl
          exact ih ⟨inside, sameFile ▸ within file rfl⟩
        · exact ih inside
      · exact .throw _
    · exact .pure inside

theorem parseargs_keeps {ret : Cmd Span} (inside : ret.Inside line) :
    Keeps line (Cmd.Inside line) (parseargs fuel argc ret) := by
  induction fuel generalizing argc ret with
  | zero => exact .throw _
  | succ fuel ih =>
    rw [parseargs]
    refine (peek_keeps _).bind fun found _ => ?_
    split
    · exact .pure inside
    · refine gettoken_keeps.bind fun tok within => ?_
      split
      · exact .pure inside
      · rename_i arg
        split
        · exact .throw_bind _ _
        · exact (parseredirs_keeps (inside.pushArg (within arg rfl))).bind fun _ => ih
      · exact .throw _

theorem parsebacks_keeps (inside : cmd.Inside line) :
    Keeps line (Cmd.Inside line) (parsebacks fuel cmd) := by
  induction fuel generalizing cmd with
  | zero => exact .throw _
  | succ fuel ih =>
    rw [parsebacks]
    refine (peek_keeps _).bind fun found _ => ?_
    split
    · exact gettoken_keeps.bind fun _ _ => ih inside
    · exact .pure inside

/-- The functions that call each other. -/
theorem parse_keeps (fuel : Nat) : Keeps line (Cmd.Inside line) (parseline fuel) ∧
    Keeps line (Cmd.Inside line) (parsepipe fuel) ∧
    Keeps line (Cmd.Inside line) (parseblock fuel) ∧
    Keeps line (Cmd.Inside line) (parseexec fuel) := by
  induction fuel with
  | zero => exact ⟨.throw _, .throw _, .throw _, .throw _⟩
  | succ fuel ih =>
    obtain ⟨line, pipe, block, exec⟩ := ih
    refine ⟨?_, ?_, ?_, ?_⟩
    · rw [parseline]
      refine pipe.bind fun cmd inside => (parsebacks_keeps inside).bind fun cmd inside =>
        (peek_keeps _).bind fun found _ => ?_
      split
      · exact gettoken_keeps.bind fun _ _ => line.bind fun _ inside' => .pure ⟨inside, inside'⟩
      · exact .pure inside
    · rw [parsepipe]
      refine exec.bind fun cmd inside => (peek_keeps _).bind fun found _ => ?_
      split
      · exact gettoken_keeps.bind fun _ _ => pipe.bind fun _ inside' => .pure ⟨inside, inside'⟩
      · exact .pure inside
    · rw [parseblock]
      refine (peek_keeps _).bind fun found _ => ?_
      split
      · exact .throw_bind _ _
      · refine gettoken_keeps.bind fun _ _ => line.bind fun cmd inside =>
          (peek_keeps _).bind fun found _ => ?_
        split
        · exact .throw_bind _ _
        · exact gettoken_keeps.bind fun _ _ => parseredirs_keeps inside
    · rw [parseexec]
      refine (peek_keeps _).bind fun found _ => ?_
      split
      · exact block
      · refine (parseredirs_keeps ?_).bind fun _ => parseargs_keeps
        simp [Cmd.All]

/-! ## Loops -/

/-- The words that the pointers of a tree enclose. -/
abbrev Cmd.words (cmd : Cmd Span) : Cmd (List UInt8) :=
  cmd.map Span.word

abbrev Redir.words (r : Redir Span) : Redir (List UInt8) :=
  r.map Span.word

theorem Token.redir?_map {α β : Type} (f : α → β) (file : α) (token : Token α) :
    (token.map f).redir? (f file) = (token.redir? file).map (Redir.map f) := by
  cases token <;> rfl

/-- The next token is a redirection. -/
def AtRedir {α : Type} (ts : List (Token α)) : Prop :=
  (first ts).any (ascii ['<', '>']).contains = true

theorem AtRedir.redir? {α : Type} {token : Token α} {ts : List (Token α)}
    (here : AtRedir (token :: ts)) (file : α) : ∃ r, token.redir? file = some r := by
  cases token with
  | less | greater | append => exact ⟨_, rfl⟩
  | _ => cases here

/-- A bound on the rounds that is too small is also below a larger bound. -/
theorem weaken_fuel {short long : Prop} (imp : short → long) (reason : Stop)
    (out : reason = .fuel → short) : reason = .fuel → long :=
  fun isFuel => imp (out isFuel)

/-- `peek` for the only token with a character. -/
theorem peek_token {c : Char} (token : Token (List UInt8)) (symbol : token.symbol? = some c.toUInt8)
    (single : c.toUInt8 ≠ '>'.toUInt8) (s : List UInt8) :
    Wp (peek (ascii [c])) (fun _ => False) (fun found s' => tokens s' = tokens s ∧
      (found = true ↔ ∃ ts, tokens s = token :: ts)) s := by
  apply (peek_spec (by simpa [ascii] using Token.symbol?_mem symbol) s).imp
  rintro found s' ⟨-, same, rfl⟩
  refine ⟨same, ?_⟩
  cases tokens s with
  | nil => simp [first]
  | cons t ts =>
    have seen : (first (t :: ts)).any (ascii [c]).contains = true ↔
        t.symbol? = some c.toUInt8 := by
      simp only [first, List.head?_cons, Option.bind_some, ascii, List.map_cons, List.map_nil]
      cases t.symbol? <;> simp
    rw [seen]
    constructor
    · exact fun here => ⟨ts, by rw [Token.eq_of_symbol? here symbol single]⟩
    · rintro ⟨ts', same⟩
      cases same
      exact symbol

theorem gettoken_of_eq {token : Token (List UInt8)} {ts : List (Token (List UInt8))}
    (here : tokens s = token :: ts) :
    Wp gettoken (fun _ => False) (fun t s' => tokens s' = ts ∧
      ∃ t', t = some t' ∧ t'.map Span.word = token) s := by
  apply (gettoken_spec s).imp
  rintro _ s' (⟨rfl, none, -⟩ | ⟨t, rfl, isToken⟩)
  · rw [here] at none
    cases none
  · rw [here] at isToken
    cases isToken
    exact ⟨rfl, t, rfl, rfl⟩

theorem parseredirs_sound (cmd : Cmd Span) :
    Wp (parseredirs fuel cmd) (fun reason => reason = .fuel → fuel ≤ (tokens s).length)
      (fun cmd' s' => ∃ ts rs, tokens s = ts ++ tokens s' ∧ Redirs ts (rs.map Redir.words) ∧
        cmd' = cmd.redirect rs) s := by
  induction fuel generalizing cmd s with
  | zero => exact fun _ => Nat.zero_le _
  | succ fuel ih =>
    rw [parseredirs]
    apply (peek_spec (by simp [ascii, symbols]) s).always
    rintro found s₁ ⟨-, same₁, isFound⟩
    by_cases here : found = true
    · rw [if_pos here]
      apply (gettoken_spec s₁).always
      rw [same₁]
      rintro _ s₂ (⟨rfl, none, -⟩ | ⟨op, rfl, isOp⟩)
      · rw [isFound, none] at here
        cases here
      · have atRedir : AtRedir (op.map Span.word :: tokens s₂) := by
          rw [← isOp]
          exact isFound.symm.trans here
        apply (gettoken_spec s₂).always
        rintro _ s₃ (⟨rfl, -, -⟩ | ⟨t, rfl, isWord⟩)
        · exact fun wrong => by cases wrong
        · cases t with
          | word file =>
            obtain ⟨r, isRedir⟩ : ∃ r, op.redir? file = some r := by
              obtain ⟨r, isRedir⟩ := atRedir.redir? file.word
              rw [Token.redir?_map, Option.map_eq_some_iff] at isRedir
              obtain ⟨r, isRedir, -⟩ := isRedir
              exact ⟨r, isRedir⟩
            have mapped : (op.map Span.word).redir? file.word = some r.words := by
              rw [Token.redir?_map, isRedir]
              rfl
            simp only [Option.bind_some, isRedir]
            rw [isOp, isWord]
            apply (ih _).mono
            · intro reason out isFuel
              have bound := out isFuel
              simp only [List.length_cons]
              omega
            · rintro cmd' s' ⟨ts, rs, split, derived, rfl⟩
              refine ⟨_, r :: rs, ?_, .cons mapped derived, rfl⟩
              rw [split]
              rfl
          | _ => exact fun wrong => by cases wrong
    · rw [if_neg here]
      exact ⟨[], [], same₁.symm, .nil, rfl⟩

/-- The `execcmd` is inside of the redirections. -/
theorem Cmd.pushArg_redirect (cmd : Cmd Span) (rs : List (Redir Span)) (arg : Span) :
    (cmd.redirect rs).pushArg arg = (cmd.pushArg arg).redirect rs := by
  induction rs generalizing cmd with
  | nil => rfl
  | cons r rs ih =>
    rw [Cmd.redirect_cons, ih]
    rfl

theorem parseargs_sound (argv : List Span) (rs₀ : List (Redir Span)) (few : argc ≤ maxargs - 1) :
    Wp (parseargs fuel argc ((Cmd.exec argv).redirect rs₀))
      (fun reason => reason = .fuel → fuel ≤ (tokens s).length)
      (fun ret s' => ∃ ts ws rs, tokens s = ts ++ tokens s' ∧
        Args ts (ws.map Span.word) (rs.map Redir.words) ∧ argc + ws.length ≤ maxargs - 1 ∧
        ret = (Cmd.exec (argv ++ ws)).redirect (rs₀ ++ rs)) s := by
  induction fuel generalizing argc argv rs₀ s with
  | zero => exact fun _ => Nat.zero_le _
  | succ fuel ih =>
    rw [parseargs]
    apply (peek_spec (by simp [ascii, symbols]) s).always
    rintro found s₁ ⟨-, same₁, -⟩
    have done {s' : List UInt8} (same : tokens s' = tokens s) : ∃ ts ws rs,
        tokens s = ts ++ tokens s' ∧ Args ts (ws.map Span.word) (rs.map Redir.words) ∧
        argc + ws.length ≤ maxargs - 1 ∧
        (Cmd.exec argv).redirect rs₀ = (Cmd.exec (argv ++ ws)).redirect (rs₀ ++ rs) :=
      ⟨[], [], [], same.symm, .nil, few, by simp⟩
    by_cases here : found = true
    · rw [if_pos here]
      exact done same₁
    · rw [if_neg here]
      apply (gettoken_spec s₁).always
      rw [same₁]
      rintro _ s₂ (⟨rfl, none, none'⟩ | ⟨t, rfl, isWord⟩)
      · exact done (none'.trans none.symm)
      · cases t with
        | word arg =>
          by_cases tooMany : argc + 1 ≥ maxargs
          · simp only [if_pos tooMany]
            exact fun wrong => by cases wrong
          · simp only [if_neg tooMany, Cmd.pushArg_redirect, Cmd.pushArg]
            rw [isWord]
            apply (parseredirs_sound _).bind
            · intro reason out isFuel
              have bound := out isFuel
              rw [List.length_cons]
              omega
            · rintro _ s₃ ⟨ts, rs, split, redirs, rfl⟩
              rw [← Cmd.redirect_append]
              have fewer : argc + 1 ≤ maxargs - 1 := by
                unfold maxargs at tooMany ⊢
                omega
              apply (ih _ _ fewer).mono
              · intro reason out isFuel
                have bound := out isFuel
                rw [split, List.length_cons, List.length_append]
                omega
              · rintro ret s' ⟨us, ws, rs', split', args, count, rfl⟩
                refine ⟨.word arg.word :: (ts ++ us), arg :: ws, rs ++ rs', ?_, ?_, ?_, ?_⟩
                · rw [split, split']
                  simp [Token.map]
                · rw [List.map_append]
                  exact .cons redirs args
                · rw [List.length_cons]
                  omega
                · simp [List.append_assoc]
        | _ => exact fun wrong => by cases wrong

theorem parsebacks_sound (cmd : Cmd Span) :
    Wp (parsebacks fuel cmd) (fun reason => reason = .fuel → fuel ≤ (tokens s).length)
      (fun cmd' s' => ∃ n, tokens s = List.replicate n .amp ++ tokens s' ∧
        cmd' = Cmd.back^[n] cmd) s := by
  induction fuel generalizing cmd s with
  | zero => exact fun _ => Nat.zero_le _
  | succ fuel ih =>
    rw [parsebacks]
    apply (peek_token .amp rfl (by decide) s).always
    rintro found s₁ ⟨same₁, isFound⟩
    by_cases here : found = true
    · rw [if_pos here]
      obtain ⟨ts, isAmp⟩ := isFound.mp here
      apply (gettoken_of_eq (same₁.trans isAmp)).always
      rintro _ s₂ ⟨rfl, -⟩
      apply (ih _).mono
      · intro reason out isFuel
        have bound := out isFuel
        rw [isAmp, List.length_cons]
        omega
      · rintro cmd' s' ⟨n, split, rfl⟩
        refine ⟨n + 1, ?_, rfl⟩
        rw [isAmp, split, List.replicate_succ, List.cons_append]
    · rw [if_neg here]
      exact ⟨0, same₁.symm, rfl⟩

/-! ## The grammar -/

/-- The function parses a nonterminal.  Four rounds for each token that is left, and some
more, are enough. -/
def Parses (k : Nonterminal) (parse : Parser (Cmd Span)) (fuel more : Nat) : Prop :=
  ∀ s, Wp parse (fun reason => reason = .fuel → fuel < 4 * (tokens s).length + more)
    (fun cmd s' => ∃ ts, tokens s = ts ++ tokens s' ∧ Derives k ts cmd.words) s

/-- The functions that call each other. -/
structure AllParse (fuel : Nat) : Prop where
  line : Parses .line (parseline fuel) fuel 4
  pipe : Parses .pipe (parsepipe fuel) fuel 3
  exec : Parses .exec (parseexec fuel) fuel 2
  block : Parses .exec (parseblock fuel) fuel 1

section

variable (all : AllParse fuel)
include all

theorem AllParse.next_line : Parses .line (parseline (fuel + 1)) (fuel + 1) 4 := by
  intro s
  rw [parseline]
  apply (all.pipe s).bind (weaken_fuel (by omega))
  rintro cmd s₁ ⟨ts, split₁, derived⟩
  have length₁ := (congrArg List.length split₁).trans List.length_append
  apply (parsebacks_sound cmd).bind (weaken_fuel (by omega))
  rintro _ s₂ ⟨n, split₂, rfl⟩
  have length₂ := (congrArg List.length split₂).trans List.length_append
  apply (peek_token .semi rfl (by decide) s₂).always
  rintro found s₃ ⟨same₃, isFound⟩
  by_cases here : found = true
  · rw [if_pos here]
    obtain ⟨us, isSemi⟩ := isFound.mp here
    have length₃ := (congrArg List.length isSemi).trans List.length_cons
    apply (gettoken_of_eq (same₃.trans isSemi)).always
    rintro _ s₄ ⟨rfl, -⟩
    apply (all.line s₄).bind (weaken_fuel (by omega))
    rintro right s' ⟨us, split₄, derived'⟩
    refine ⟨ts ++ (List.replicate n .amp ++ .semi :: us), ?_, ?_⟩
    · rw [split₁, split₂, isSemi, split₄]
      simp
    · have whole := Derives.list n derived derived'
      rw [← Cmd.map_back_iterate] at whole
      exact whole
  · rw [if_neg here]
    refine ⟨ts ++ List.replicate n .amp, ?_, ?_⟩
    · rw [split₁, split₂, same₃, List.append_assoc]
    · have whole := Derives.last n derived
      rw [← Cmd.map_back_iterate] at whole
      exact whole

theorem AllParse.next_pipe : Parses .pipe (parsepipe (fuel + 1)) (fuel + 1) 3 := by
  intro s
  rw [parsepipe]
  apply (all.exec s).bind (weaken_fuel (by omega))
  rintro cmd s₁ ⟨ts, split₁, derived⟩
  have length₁ := (congrArg List.length split₁).trans List.length_append
  apply (peek_token .bar rfl (by decide) s₁).always
  rintro found s₂ ⟨same₂, isFound⟩
  by_cases here : found = true
  · rw [if_pos here]
    obtain ⟨us, isBar⟩ := isFound.mp here
    have length₂ := (congrArg List.length isBar).trans List.length_cons
    apply (gettoken_of_eq (same₂.trans isBar)).always
    rintro _ s₃ ⟨rfl, -⟩
    apply (all.pipe s₃).bind (weaken_fuel (by omega))
    rintro right s' ⟨us, split₃, derived'⟩
    refine ⟨ts ++ .bar :: us, ?_, derived.pipe derived'⟩
    rw [split₁, isBar, split₃]
    simp
  · rw [if_neg here]
    exact ⟨ts, by rw [split₁, same₂], derived.single⟩

theorem AllParse.next_block : Parses .exec (parseblock (fuel + 1)) (fuel + 1) 1 := by
  intro s
  rw [parseblock]
  apply (peek_token .lparen rfl (by decide) s).always
  rintro found s₁ ⟨same₁, isFound⟩
  cases found with
  | false => exact fun wrong => by cases wrong
  | true =>
    obtain ⟨us, isOpen⟩ := isFound.mp rfl
    have length₁ := (congrArg List.length isOpen).trans List.length_cons
    apply (gettoken_of_eq (same₁.trans isOpen)).always
    rintro _ s₂ ⟨rfl, -⟩
    apply (all.line s₂).bind (weaken_fuel (by omega))
    rintro cmd s₃ ⟨ts, split₃, derived⟩
    have length₃ := (congrArg List.length split₃).trans List.length_append
    apply (peek_token .rparen rfl (by decide) s₃).always
    rintro found s₄ ⟨same₄, isFound⟩
    cases found with
    | false => exact fun wrong => by cases wrong
    | true =>
      obtain ⟨us, isClose⟩ := isFound.mp rfl
      have length₄ := (congrArg List.length isClose).trans List.length_cons
      apply (gettoken_of_eq (same₄.trans isClose)).always
      rintro _ s₅ ⟨rfl, -⟩
      apply (parseredirs_sound cmd).mono (weaken_fuel (by omega))
      rintro _ s' ⟨us, rs, split₅, redirs, rfl⟩
      refine ⟨.lparen :: (ts ++ .rparen :: us), ?_, ?_⟩
      · rw [isOpen, split₃, isClose, split₅]
        simp
      · rw [Cmd.words, Cmd.map_redirect]
        exact derived.block redirs

theorem AllParse.next_exec : Parses .exec (parseexec (fuel + 1)) (fuel + 1) 2 := by
  intro s
  rw [parseexec]
  apply (peek_token .lparen rfl (by decide) s).always
  rintro found s₁ ⟨same₁, -⟩
  rw [← same₁]
  by_cases here : found = true
  · rw [if_pos here]
    apply (all.block s₁).mono (weaken_fuel (by omega)) fun _ _ => id
  · rw [if_neg here]
    apply (parseredirs_sound (.exec [])).bind (weaken_fuel (by omega))
    rintro _ s₂ ⟨ts, rs, split₂, redirs, rfl⟩
    have length₂ := (congrArg List.length split₂).trans List.length_append
    apply (parseargs_sound [] rs (Nat.zero_le _)).mono (weaken_fuel (by omega))
    rintro _ s' ⟨us, ws, rs', split, args, few, rfl⟩
    refine ⟨ts ++ us, by rw [split₂, split, List.append_assoc], ?_⟩
    rw [List.nil_append, Cmd.words, Cmd.map_redirect, List.map_append]
    exact .simple redirs args (by rw [List.length_map]; omega)

end

theorem allParse (fuel : Nat) : AllParse fuel := by
  induction fuel with
  | zero =>
    constructor
    · exact fun s _ => Nat.zero_lt_succ _
    · exact fun s _ => Nat.zero_lt_succ _
    · exact fun s _ => Nat.zero_lt_succ _
    · exact fun s _ => Nat.zero_lt_succ _
  | succ fuel ih =>
    exact ⟨ih.next_line, ih.next_pipe,
      ih.next_exec, ih.next_block⟩

end Xv6.Shell
