import Xv6.Shell.Soundness

/-!
# The parser accepts its grammar

What a nonterminal derives is parsed, up to a token that may follow it, and the tree is
the one of the derivation.  With this `parsecmd` returns a tree exactly for the lines of
the grammar.
-/

namespace Xv6.Shell

open Stateful

variable {s s' : List UInt8} {fuel : Nat}
variable {ts us rest : List (Token (List UInt8))}

/-- The tokens that may follow a nonterminal. -/
def Nonterminal.follow : Nonterminal → List (Token (List UInt8))
  | .line => [.rparen]
  | .pipe => [.rparen, .amp, .semi]
  | .exec => [.rparen, .amp, .semi, .bar]

/-- The nonterminal may end here. -/
def Follows (k : Nonterminal) (ts : List (Token (List UInt8))) : Prop :=
  ∀ t ∈ ts.head?, t ∈ k.follow

variable {k : Nonterminal} {ends : List (List UInt8)}

theorem Follows.cons {t : Token (List UInt8)} (member : t ∈ k.follow) : Follows k (t :: ts) := by
  rintro t' here
  cases here
  exact member

theorem Follows.pipe (follows : Follows .line ts) : Follows .pipe ts :=
  fun t here => List.mem_of_mem_take (i := 1) (follows t here)

theorem Follows.exec (follows : Follows .pipe ts) : Follows .exec ts :=
  fun t here => List.mem_of_mem_take (i := 3) (follows t here)

theorem Follows.not_redir (follows : Follows .exec ts) : ¬ AtRedir ts := by
  cases ts with
  | nil => simp [AtRedir, first]
  | cons t ts =>
    have member := follows t rfl
    simp only [Nonterminal.follow, List.mem_cons, List.not_mem_nil, or_false] at member
    rcases member with rfl | rfl | rfl | rfl <;> exact Bool.false_ne_true

/-! ## Loops -/

theorem parseredirs_complete {rs : List (Redir (List UInt8))} (redirs : Redirs ts rs)
    (cmd : Cmd Span) (here : tokens s = ts ++ rest) (stops : ¬ AtRedir rest)
    (enough : ts.length < fuel) :
    Wp (parseredirs fuel cmd) (fun _ => False) (fun cmd' s' => tokens s' = rest ∧
      ∃ rs', cmd' = cmd.redirect rs' ∧ rs'.map Redir.words = rs) s := by
  induction redirs generalizing fuel s cmd with
  | nil =>
    obtain ⟨fuel, rfl⟩ := Nat.exists_eq_add_of_lt enough
    rw [parseredirs]
    apply (peek_spec (by simp [ascii, symbols]) s).seq
    rintro found s₁ ⟨-, same₁, rfl⟩
    rw [here, List.nil_append] at same₁ ⊢
    unfold AtRedir at stops
    rw [if_neg stops]
    exact ⟨same₁, [], rfl, rfl⟩
  | @cons op file r ts rs isRedir redirs ih =>
    cases fuel with
    | zero => exact absurd enough (Nat.not_lt_zero _)
    | succ fuel =>
      have atRedir : (first (tokens s)).any (ascii ['<', '>']).contains = true := by
        rw [here]
        cases op with
        | less | greater | append => rfl
        | _ => cases isRedir
      rw [parseredirs]
      apply (peek_spec (by simp [ascii, symbols]) s).seq
      rintro found s₁ ⟨-, same₁, rfl⟩
      rw [if_pos atRedir]
      apply (gettoken_of_eq (same₁.trans here)).seq
      rintro _ s₂ ⟨here₂, op, rfl, rfl⟩
      apply (gettoken_of_eq here₂).seq
      rintro _ s₃ ⟨here₃, w, rfl, isWord⟩
      cases w with
      | word file =>
        cases isWord
        rw [Token.redir?_map, Option.map_eq_some_iff] at isRedir
        obtain ⟨r, isRedir, rfl⟩ := isRedir
        simp only [Option.bind_some, isRedir]
        simp only [List.length_cons] at enough
        apply (ih _ here₃ (by omega)).imp
        rintro _ s' ⟨rest', rs', rfl, rfl⟩
        exact ⟨rest', r :: rs', rfl, rfl⟩
      | _ => cases isWord

/-- What follows the arguments is no redirection. -/
theorem Args.not_redir {ws : List (List UInt8)} {rs : List (Redir (List UInt8))}
    (args : Args us ws rs) (follows : Follows .exec rest) : ¬ AtRedir (us ++ rest) := by
  cases args with
  | nil => exact follows.not_redir
  | cons => exact Bool.false_ne_true

theorem parseargs_complete {ws : List (List UInt8)} {rs : List (Redir (List UInt8))} {argc : Nat}
    (args : Args us ws rs) (argv : List Span) (rs₀ : List (Redir Span))
    (here : tokens s = us ++ rest) (follows : Follows .exec rest)
    (few : argc + ws.length ≤ maxargs - 1) (enough : us.length < fuel) :
    Wp (parseargs fuel argc ((Cmd.exec argv).redirect rs₀)) (fun _ => False)
      (fun ret s' => tokens s' = rest ∧ ∃ ws' rs',
        ret = (Cmd.exec (argv ++ ws')).redirect (rs₀ ++ rs') ∧ ws'.map Span.word = ws ∧
          rs'.map Redir.words = rs) s := by
  induction args generalizing fuel s argc argv rs₀ with
  | nil =>
    obtain ⟨fuel, rfl⟩ := Nat.exists_eq_add_of_lt enough
    rw [parseargs]
    apply (peek_spec (by simp [ascii, symbols]) s).seq
    rintro found s₁ ⟨-, same₁, rfl⟩
    rw [here, List.nil_append] at same₁ ⊢
    cases rest with
    | nil =>
      rw [if_neg (by simp [first])]
      apply (gettoken_spec s₁).seq
      rintro _ s₂ (⟨rfl, -, none⟩ | ⟨t, rfl, some⟩)
      · exact ⟨none, [], [], by simp, rfl, rfl⟩
      · rw [same₁] at some
        cases some
    | cons t rest =>
      have member := follows t rfl
      have seen : (first (t :: rest)).any (ascii ['|', ')', '&', ';']).contains = true := by
        simp only [Nonterminal.follow, List.mem_cons, List.not_mem_nil, or_false] at member
        rcases member with rfl | rfl | rfl | rfl <;> rfl
      rw [if_pos seen]
      exact ⟨same₁, [], [], by simp, rfl, rfl⟩
  | @cons w ts us rs rs' ws redirs args ih =>
    cases fuel with
    | zero => exact absurd enough (Nat.not_lt_zero _)
    | succ fuel =>
      rw [List.cons_append, List.append_assoc] at here
      simp only [List.length_cons, List.length_append] at enough few
      rw [parseargs]
      apply (peek_spec (by simp [ascii, symbols]) s).seq
      rintro found s₁ ⟨-, same₁, rfl⟩
      rw [here] at same₁ ⊢
      rw [if_neg (by simp [first, Token.symbol?])]
      apply (gettoken_of_eq same₁).seq
      rintro _ s₂ ⟨here₂, t, rfl, isWord⟩
      cases t with
      | word arg =>
        cases isWord
        have room : ¬ argc + 1 ≥ maxargs := by
          unfold maxargs at few ⊢
          omega
        simp only [if_neg room, Cmd.pushArg_redirect, Cmd.pushArg]
        apply (parseredirs_complete redirs _ here₂ (args.not_redir follows)
          (by omega)).seq
        rintro _ s₃ ⟨here₃, rs, rfl, rfl⟩
        rw [← Cmd.redirect_append]
        apply (ih _ _ here₃ (by omega) (by omega)).imp
        rintro _ s' ⟨rest', ws, rs', rfl, rfl, rfl⟩
        refine ⟨rest', arg :: ws, rs ++ rs', by simp, rfl, by simp⟩
      | _ => cases isWord

theorem parsebacks_complete (n : Nat) (cmd : Cmd Span)
    (here : tokens s = List.replicate n .amp ++ rest) (stops : ∀ us, rest ≠ .amp :: us)
    (enough : n < fuel) :
    Wp (parsebacks fuel cmd) (fun _ => False)
      (fun cmd' s' => tokens s' = rest ∧ cmd' = Cmd.back^[n] cmd) s := by
  induction n generalizing fuel s cmd with
  | zero =>
    obtain ⟨fuel, rfl⟩ := Nat.exists_eq_add_of_lt enough
    rw [parsebacks]
    apply (peek_token .amp rfl (by decide) s).seq
    rintro found s₁ ⟨same₁, isFound⟩
    have absent : ¬ found = true := by
      rw [isFound]
      rintro ⟨us, isAmp⟩
      exact stops us (here.symm.trans isAmp)
    rw [if_neg absent]
    exact ⟨same₁.trans here, rfl⟩
  | succ n ih =>
    cases fuel with
    | zero => exact absurd enough (Nat.not_lt_zero _)
    | succ fuel =>
      rw [List.replicate_succ, List.cons_append] at here
      rw [parsebacks]
      apply (peek_token .amp rfl (by decide) s).seq
      rintro found s₁ ⟨same₁, isFound⟩
      rw [if_pos (isFound.mpr ⟨_, here⟩)]
      apply (gettoken_of_eq (same₁.trans here)).seq
      rintro _ s₂ ⟨here₂, -⟩
      exact ih _ here₂ (by omega)

/-! ## The grammar -/

/-- The function for a nonterminal. -/
def Nonterminal.parse : Nonterminal → Nat → Parser (Cmd Span)
  | .line => parseline
  | .pipe => parsepipe
  | .exec => parseexec

/-- The rounds and calls for a nonterminal with `n` tokens. -/
def Nonterminal.rounds (n : Nat) : Nonterminal → Nat
  | .line => 4 * n + 4
  | .pipe => 4 * n + 3
  | .exec => 4 * n + 2

/-- What follows `ts` decides where it ends, and its tree is `t`. -/
def Parsed (k : Nonterminal) (ts : List (Token (List UInt8))) (t : Cmd (List UInt8)) : Prop :=
  ∀ {fuel s rest}, tokens s = ts ++ rest → Follows k rest → k.rounds ts.length ≤ fuel →
    Wp (k.parse fuel) (fun _ => False) (fun cmd s' => tokens s' = rest ∧ cmd.words = t) s

namespace Parsed

variable {t u : Cmd (List UInt8)} {rs rs' : List (Redir (List UInt8))} {ws : List (List UInt8)}

theorem block (line : Parsed .line ts t) (redirs : Redirs us rs) :
    Parsed .exec (.lparen :: (ts ++ .rparen :: us)) (t.redirect rs) := by
  intro fuel s rest here follows enough
  simp only [Nonterminal.rounds, List.length_cons, List.length_append] at enough
  obtain ⟨fuel, rfl⟩ : ∃ n, fuel = n + 2 := ⟨fuel - 2, by omega⟩
  rw [List.cons_append, List.append_assoc, List.cons_append] at here
  change Wp (parseexec _) _ _ _
  rw [parseexec]
  apply (peek_token .lparen rfl (by decide) s).seq
  rintro found s₁ ⟨same₁, isFound⟩
  rw [if_pos (isFound.mpr ⟨_, here⟩), parseblock]
  apply (peek_token .lparen rfl (by decide) s₁).seq
  rintro found s₂ ⟨same₂, isFound₂⟩
  rw [isFound₂.mpr ⟨_, same₁.trans here⟩]
  apply (gettoken_of_eq ((same₂.trans same₁).trans here)).seq
  rintro _ s₃ ⟨here₃, -⟩
  have inside : Follows .line (.rparen :: (us ++ rest)) := .cons (by simp [Nonterminal.follow])
  apply (line here₃ inside (by simp only [Nonterminal.rounds]; omega)).seq
  rintro cmd s₄ ⟨here₄, rfl⟩
  apply (peek_token .rparen rfl (by decide) s₄).seq
  rintro found s₅ ⟨same₅, isFound₅⟩
  rw [isFound₅.mpr ⟨_, here₄⟩]
  apply (gettoken_of_eq (same₅.trans here₄)).seq
  rintro _ s₆ ⟨here₆, -⟩
  apply (parseredirs_complete redirs cmd here₆ follows.not_redir (by omega)).imp
  rintro _ s' ⟨rest', rs', rfl, rfl⟩
  exact ⟨rest', Cmd.map_redirect _ _ _⟩

/-- A command without parentheses does not start with one. -/
theorem not_lparen (redirs : Redirs ts rs) (args : Args us ws rs') (follows : Follows .exec rest)
    (vs : List (Token (List UInt8))) : ts ++ (us ++ rest) ≠ .lparen :: vs := by
  intro wrong
  cases redirs with
  | cons isRedir =>
    cases wrong
    cases isRedir
  | nil =>
    cases args with
    | cons => cases wrong
    | nil =>
      cases wrong
      simpa [Nonterminal.follow] using follows .lparen rfl

theorem simple (redirs : Redirs ts rs) (args : Args us ws rs') (few : ws.length ≤ maxargs - 1) :
    Parsed .exec (ts ++ us) ((Cmd.exec ws).redirect (rs ++ rs')) := by
  intro fuel s rest here follows enough
  simp only [Nonterminal.rounds, List.length_append] at enough
  obtain ⟨fuel, rfl⟩ : ∃ n, fuel = n + 1 := ⟨fuel - 1, by omega⟩
  rw [List.append_assoc] at here
  change Wp (parseexec _) _ _ _
  rw [parseexec]
  apply (peek_token .lparen rfl (by decide) s).seq
  rintro found s₁ ⟨same₁, isFound⟩
  have notBlock : ¬ found = true := by
    rw [isFound, here]
    rintro ⟨vs, wrong⟩
    exact not_lparen redirs args follows vs wrong
  rw [if_neg notBlock]
  apply (parseredirs_complete redirs (.exec []) (same₁.trans here) (args.not_redir follows)
    (by omega)).seq
  rintro _ s₂ ⟨here₂, rs, rfl, rfl⟩
  apply (parseargs_complete args [] rs here₂ follows (by omega) (by omega)).imp
  rintro _ s' ⟨rest', ws, rs', rfl, rfl, rfl⟩
  refine ⟨rest', ?_⟩
  rw [Cmd.words, Cmd.map_redirect, List.map_append]
  rfl

theorem single (exec : Parsed .exec ts t) : Parsed .pipe ts t := by
  intro fuel s rest here follows enough
  simp only [Nonterminal.rounds] at enough
  obtain ⟨fuel, rfl⟩ : ∃ n, fuel = n + 1 := ⟨fuel - 1, by omega⟩
  change Wp (parsepipe _) _ _ _
  rw [parsepipe]
  apply (exec here follows.exec (by simp only [Nonterminal.rounds]; omega)).seq
  rintro cmd s₁ ⟨here₁, rfl⟩
  apply (peek_token .bar rfl (by decide) s₁).seq
  rintro found s₂ ⟨same₂, isFound⟩
  have notBar : ¬ found = true := by
    rw [isFound, here₁]
    rintro ⟨us, rfl⟩
    simpa [Nonterminal.follow] using follows .bar rfl
  rw [if_neg notBar]
  exact ⟨same₂.trans here₁, rfl⟩

theorem pipe (exec : Parsed .exec ts t) (pipe : Parsed .pipe us u) :
    Parsed .pipe (ts ++ .bar :: us) (.pipe t u) := by
  intro fuel s rest here follows enough
  simp only [Nonterminal.rounds, List.length_append, List.length_cons] at enough
  obtain ⟨fuel, rfl⟩ : ∃ n, fuel = n + 1 := ⟨fuel - 1, by omega⟩
  rw [List.append_assoc, List.cons_append] at here
  change Wp (parsepipe _) _ _ _
  rw [parsepipe]
  have inside : Follows .exec (.bar :: (us ++ rest)) := .cons (by simp [Nonterminal.follow])
  apply (exec here inside (by simp only [Nonterminal.rounds]; omega)).seq
  rintro cmd s₁ ⟨here₁, rfl⟩
  apply (peek_token .bar rfl (by decide) s₁).seq
  rintro found s₂ ⟨same₂, isFound⟩
  rw [if_pos (isFound.mpr ⟨_, here₁⟩)]
  apply (gettoken_of_eq (same₂.trans here₁)).seq
  rintro _ s₃ ⟨here₃, -⟩
  apply (pipe here₃ follows (by simp only [Nonterminal.rounds]; omega)).seq
  rintro right s' ⟨rest', rfl⟩
  exact ⟨rest', rfl⟩

/-- A pipe and the `&` after it. -/
theorem backs (pipe : Parsed .pipe ts t) (n : Nat)
    (here : tokens s = ts ++ (List.replicate n .amp ++ rest)) (follows : Follows .pipe rest)
    (stops : ∀ us, rest ≠ .amp :: us) (enough : 4 * ts.length + 3 ≤ fuel) (enough' : n < fuel) :
    Wp (parsepipe fuel >>= parsebacks fuel) (fun _ => False)
      (fun cmd s' => tokens s' = rest ∧ cmd.words = Cmd.back^[n] t) s := by
  have inside : Follows .pipe (List.replicate n .amp ++ rest) := by
    cases n with
    | zero => exact follows
    | succ n => exact .cons (by simp [Nonterminal.follow])
  apply (pipe here inside enough).seq
  rintro cmd s₁ ⟨here₁, rfl⟩
  apply (parsebacks_complete n cmd here₁ stops enough').imp
  rintro _ s' ⟨rest', rfl⟩
  exact ⟨rest', Cmd.map_back_iterate _ _ _⟩

theorem last (n : Nat) (pipe : Parsed .pipe ts t) :
    Parsed .line (ts ++ List.replicate n .amp) (Cmd.back^[n] t) := by
  intro fuel s rest here follows enough
  simp only [Nonterminal.rounds, List.length_append, List.length_replicate] at enough
  obtain ⟨fuel, rfl⟩ : ∃ n, fuel = n + 1 := ⟨fuel - 1, by omega⟩
  rw [List.append_assoc] at here
  change Wp (parseline _) _ _ _
  rw [parseline, ← bind_assoc]
  have notAmp : ∀ us, rest ≠ .amp :: us := by
    rintro us rfl
    simpa [Nonterminal.follow] using follows .amp rfl
  apply (pipe.backs n here follows.pipe notAmp (by omega) (by omega)).seq
  rintro cmd s₁ ⟨here₁, isTree⟩
  apply (peek_token .semi rfl (by decide) s₁).seq
  rintro found s₂ ⟨same₂, isFound⟩
  have notSemi : ¬ found = true := by
    rw [isFound, here₁]
    rintro ⟨us, rfl⟩
    simpa [Nonterminal.follow] using follows .semi rfl
  rw [if_neg notSemi]
  exact ⟨same₂.trans here₁, isTree⟩

theorem list (n : Nat) (pipe : Parsed .pipe ts t) (line : Parsed .line us u) :
    Parsed .line (ts ++ (List.replicate n .amp ++ .semi :: us)) (.list (Cmd.back^[n] t) u) := by
  intro fuel s rest here follows enough
  simp only [Nonterminal.rounds, List.length_append, List.length_replicate, List.length_cons]
    at enough
  obtain ⟨fuel, rfl⟩ : ∃ n, fuel = n + 1 := ⟨fuel - 1, by omega⟩
  rw [List.append_assoc, List.append_assoc, List.cons_append] at here
  change Wp (parseline _) _ _ _
  rw [parseline, ← bind_assoc]
  have inside : Follows .pipe (.semi :: (us ++ rest)) := .cons (by simp [Nonterminal.follow])
  apply (pipe.backs n here inside (by simp) (by omega) (by omega)).seq
  rintro cmd s₁ ⟨here₁, isTree⟩
  apply (peek_token .semi rfl (by decide) s₁).seq
  rintro found s₂ ⟨same₂, isFound⟩
  rw [if_pos (isFound.mpr ⟨_, here₁⟩)]
  apply (gettoken_of_eq (same₂.trans here₁)).seq
  rintro _ s₃ ⟨here₃, -⟩
  apply (line here₃ follows (by simp only [Nonterminal.rounds]; omega)).seq
  rintro right s' ⟨rest', rfl⟩
  exact ⟨rest', by rw [← isTree]; rfl⟩

end Parsed

/-- What is derived is parsed. -/
theorem Derives.parsed {t : Cmd (List UInt8)} (derives : Derives k ts t) : Parsed k ts t := by
  induction derives with
  | block _ redirs line => exact line.block redirs
  | simple redirs args few => exact Parsed.simple redirs args few
  | single _ exec => exact exec.single
  | pipe _ _ exec pipe => exact exec.pipe pipe
  | last n _ pipe => exact pipe.last n
  | list n _ _ pipe line => exact pipe.list n line

/-! ## Strings -/

/-- Where words end there is no letter, so that no NUL is stored inside of a word. -/
theorem stringAt_append {word stop : List UInt8}
    (bounded : ∀ e ∈ ends, ∀ c ∈ e.head?, isLetter c = false)
    (letters : ∀ c ∈ word, isLetter c = true) (member : stop ∈ ends) :
    stringAt ends (word ++ stop) = word := by
  induction word with
  | nil =>
    cases stop with
    | nil => rfl
    | cons c stop => exact if_pos member
  | cons c word ih =>
    rw [List.forall_mem_cons] at letters
    rw [List.cons_append, stringAt, ih letters.2, if_neg]
    intro inside
    have not := bounded _ inside c rfl
    rw [letters.1] at not
    cases not

theorem nulterminate_bounded (cmd : Cmd Span) :
    ∀ e ∈ nulterminate cmd, ∀ c ∈ e.head?, isLetter c = false := by
  induction cmd with
  | exec argv =>
    intro e member
    obtain ⟨span, -, rfl⟩ := List.mem_map.mp member
    exact span.bounded
  | redir cmd file mode fd ih =>
    rw [nulterminate, List.forall_mem_append, List.forall_mem_singleton]
    exact ⟨ih, file.bounded⟩
  | pipe left right ih ih' | list left right ih ih' =>
    rw [nulterminate, List.forall_mem_append]
    exact ⟨ih, ih'⟩
  | back cmd ih => exact ih

theorem map_stringAt (bounded : ∀ e ∈ ends, ∀ c ∈ e.head?, isLetter c = false) (cmd : Cmd Span)
    (stored : nulterminate cmd ⊆ ends) :
    (cmd.map fun span => stringAt ends span.start) = cmd.words := by
  have read (span : Span) (member : span.stop ∈ ends) : stringAt ends span.start = span.word :=
    stringAt_append bounded span.letters member
  induction cmd with
  | exec argv =>
    rw [Cmd.map, Cmd.words, Cmd.map]
    congr 1
    apply List.map_congr_left
    exact fun span member => read span (stored (List.mem_map_of_mem member))
  | redir cmd file mode fd ih =>
    rw [nulterminate, List.append_subset] at stored
    rw [Cmd.map, ih stored.1, read file (stored.2 (List.mem_singleton_self _))]
    rfl
  | pipe left right ih ih' | list left right ih ih' =>
    rw [nulterminate, List.append_subset] at stored
    rw [Cmd.map, ih stored.1, ih' stored.2]
    rfl
  | back cmd ih =>
    rw [Cmd.map, ih stored]
    rfl

/-- After `nulterminate` the strings of the tree are the words. -/
theorem Cmd.strings_eq (cmd : Cmd Span) : cmd.strings = cmd.words :=
  map_stringAt (nulterminate_bounded cmd) cmd (List.Subset.refl _)

/-! ## `parsecmd` -/

theorem length_tokens_le (s : List UInt8) : (tokens s).length ≤ s.length := by
  induction s using tokens.induct with
  | case1 s rest found => simp [tokens_of_none found]
  | case2 s token rest found ih =>
    have shorter := scan_length_lt (trimmed_skip s) found
    have trimmed := (skip_suffix s).length_le
    rw [tokens_of_some found, List.length_cons]
    omega

theorem parsewhole_sound (s : List UInt8) :
    Wp (parsewhole fuel) (fun reason => reason = .fuel → fuel < 4 * (tokens s).length + 4)
      (fun t _ => Derives .line (tokens s) t) s := by
  unfold parsewhole
  apply ((allParse fuel).line s).seq
  rintro cmd s₁ ⟨ts, split, derived⟩
  apply (peek_spec (by simp) s₁).always
  rintro _ s₂ ⟨rfl, same₂, -⟩
  simp only [wp_bind, wp_get]
  by_cases blank : skip s₁ = []
  · have none : tokens s₁ = [] := by
      rw [← same₂, blank, tokens_of_none rfl]
    rw [if_neg (not_not.mpr blank), cmd.strings_eq, split, none, List.append_nil]
    exact derived
  · rw [if_pos blank]
    exact fun wrong => by cases wrong

theorem parsewhole_complete {t : Cmd (List UInt8)} (noNul : 0 ∉ s)
    (derived : Derives .line (tokens s) t) (enough : 4 * (tokens s).length + 4 ≤ fuel) :
    Wp (parsewhole fuel) (fun _ => False) (fun t' _ => t' = t) s := by
  unfold parsewhole
  have follows : Follows .line [] := fun _ here => by cases here
  have parsed := derived.parsed (s := s) (List.append_nil _).symm follows enough
  apply (parsed.and ((parse_keeps fuel).1 s List.suffix_rfl)).bind (fun _ => And.left)
  rintro cmd s₁ ⟨⟨none, rfl⟩, onward, -⟩
  apply (peek_spec (by simp) s₁).seq
  rintro _ s₂ ⟨rfl, -⟩
  have blank : skip s₁ = [] :=
    skip_eq_nil_of_tokens (fun member => noNul (onward.mem member)) none
  simp only [wp_bind, wp_get]
  rw [if_neg (not_not.mpr blank), cmd.strings_eq]
  rfl

/-- The shell parser accepts exactly its grammar.  `parsecmd` ends, and it returns a tree
just when the tree is derived from the tokens of the line. -/
theorem parsecmd_iff (s : List UInt8) (enough : 4 * s.length + 4 ≤ fuel) :
    parsecmd fuel s ≠ .error .fuel ∧
      ∀ t, parsecmd fuel s = .ok t ↔ Derives .line (tokens (CString.text s)) t := by
  have shorter : (tokens (CString.text s)).length ≤ s.length :=
    (length_tokens_le _).trans (List.takeWhile_prefix _).length_le
  have noNul : 0 ∉ CString.text s := fun member => CString.ne_zero_of_mem_text member rfl
  have asRun : parsecmd fuel s = ((parsewhole fuel).run (CString.text s)).map Prod.fst := rfl
  have sound : Wp (parsewhole fuel) _ _ (CString.text s) := parsewhole_sound _
  cases outcome : (parsewhole fuel).run (CString.text s) with
  | error reason =>
    rw [outcome, Except.map] at asRun
    rw [asRun]
    constructor
    · rintro ⟨rfl⟩
      have short := sound.error outcome rfl
      omega
    · intro t
      constructor
      · rintro ⟨⟩
      · intro derived
        exact ((parsewhole_complete noNul derived (by omega)).error outcome).elim
  | ok result =>
    rw [outcome, Except.map] at asRun
    rw [asRun]
    constructor
    · rintro ⟨⟩
    · intro t
      constructor
      · rintro ⟨rfl⟩
        exact sound.ok outcome
      · intro derived
        rw [(parsewhole_complete noNul derived (by omega)).ok outcome]

/-- A pipe in the background. -/
theorem pipe_line_parsed :
    Derives .line (tokens (CString.text (ascii "ls >f| wc&\x00x".toList)))
      (.back (.pipe (.redir (.exec [ascii ['l', 's']]) (ascii ['f']) (oWronly ||| oCreate) 1)
        (.exec [ascii ['w', 'c']]))) :=
  ((parsecmd_iff (ascii "ls >f| wc&\x00x".toList) (Nat.le_refl 52)).2 _).mp rfl

end Xv6.Shell
