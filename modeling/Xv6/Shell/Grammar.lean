import Xv6.Shell.Lexer

/-!
# The grammar of the shell

The command trees of `sh.c`, and which sequences of tokens a tree is derived from:

    line  ::= pipe '&'* [';' line]
    pipe  ::= exec ['|' pipe]
    exec  ::= '(' line ')' redir* | redir* (word redir*)*
    redir ::= ('<' | '>' | '>>') word

with fewer than `MAXARGS` words in an `exec`.
-/

namespace Xv6.Shell

/-- `MAXARGS` -/
def maxargs : Nat := 10

/-- `O_RDONLY` -/
def oRdonly : Nat := 0x000

/-- `O_WRONLY` -/
def oWronly : Nat := 0x001

/-- `O_CREATE` -/
def oCreate : Nat := 0x200

/-- `struct cmd`, with strings of type `α`. -/
inductive Cmd (α : Type)
  | exec (argv : List α)
  | redir (cmd : Cmd α) (file : α) (mode fd : Nat)
  | pipe (left right : Cmd α)
  | list (left right : Cmd α)
  | back (cmd : Cmd α)

/-- The part of a `redircmd` that a redirection gives. -/
structure Redir (α : Type) where
  file : α
  mode : Nat
  fd : Nat

variable {α β : Type}

/-- The `switch` of `parseredirs`. -/
def Token.redir? (file : α) : Token α → Option (Redir α)
  | .less => some ⟨file, oRdonly, 0⟩
  | .greater => some ⟨file, oWronly ||| oCreate, 1⟩
  | .append => some ⟨file, oWronly ||| oCreate, 1⟩
  | _ => none

def Redir.map (f : α → β) (r : Redir α) : Redir β :=
  ⟨f r.file, r.mode, r.fd⟩

namespace Cmd

def map (f : α → β) : Cmd α → Cmd β
  | exec argv => exec (argv.map f)
  | redir cmd file mode fd => redir (cmd.map f) (f file) mode fd
  | pipe left right => pipe (left.map f) (right.map f)
  | list left right => list (left.map f) (right.map f)
  | back cmd => back (cmd.map f)

/-- Redirections in the order of the line, the last one outermost. -/
def redirect (cmd : Cmd α) (rs : List (Redir α)) : Cmd α :=
  rs.foldl (fun cmd r => redir cmd r.file r.mode r.fd) cmd

@[simp]
theorem redirect_cons (cmd : Cmd α) (r : Redir α) (rs : List (Redir α)) :
    cmd.redirect (r :: rs) = (redir cmd r.file r.mode r.fd).redirect rs :=
  rfl

theorem redirect_append (cmd : Cmd α) (rs rs' : List (Redir α)) :
    cmd.redirect (rs ++ rs') = (cmd.redirect rs).redirect rs' :=
  List.foldl_append

@[simp]
theorem map_redirect (f : α → β) (cmd : Cmd α) (rs : List (Redir α)) :
    (cmd.redirect rs).map f = (cmd.map f).redirect (rs.map (Redir.map f)) := by
  induction rs generalizing cmd with
  | nil => rfl
  | cons r rs ih =>
    rw [redirect_cons, ih]
    rfl

theorem map_back_iterate (f : α → β) (cmd : Cmd α) (n : Nat) :
    (back^[n] cmd).map f = back^[n] (cmd.map f) := by
  induction n generalizing cmd with
  | zero => rfl
  | succ n ih =>
    rw [Function.iterate_succ_apply, ih]
    rfl

end Cmd

/-- `redir*` -/
inductive Redirs : List (Token α) → List (Redir α) → Prop
  | nil : Redirs [] []
  | cons {op : Token α} {file : α} {r : Redir α} {ts rs} : op.redir? file = some r →
      Redirs ts rs → Redirs (op :: .word file :: ts) (r :: rs)

/-- `(word redir*)*`: the words, and the redirections. -/
inductive Args : List (Token α) → List α → List (Redir α) → Prop
  | nil : Args [] [] []
  | cons {w : α} {ts us rs rs' ws} : Redirs ts rs → Args us ws rs' →
      Args (.word w :: (ts ++ us)) (w :: ws) (rs ++ rs')

/-- What is derived. -/
inductive Nonterminal
  | line
  | pipe
  | exec

/-- The grammar, with the tree of each derivation. -/
inductive Derives : Nonterminal → List (Token α) → Cmd α → Prop
  | block {ts us t rs} : Derives .line ts t → Redirs us rs →
      Derives .exec (.lparen :: (ts ++ .rparen :: us)) (t.redirect rs)
  | simple {ts us rs rs' ws} : Redirs ts rs → Args us ws rs' → ws.length ≤ maxargs - 1 →
      Derives .exec (ts ++ us) ((Cmd.exec ws).redirect (rs ++ rs'))
  | single {ts t} : Derives .exec ts t → Derives .pipe ts t
  | pipe {ts us t u} : Derives .exec ts t → Derives .pipe us u →
      Derives .pipe (ts ++ .bar :: us) (.pipe t u)
  | last {ts t} (n : Nat) : Derives .pipe ts t →
      Derives .line (ts ++ List.replicate n .amp) (Cmd.back^[n] t)
  | list {ts us t u} (n : Nat) : Derives .pipe ts t → Derives .line us u →
      Derives .line (ts ++ (List.replicate n .amp ++ .semi :: us)) (.list (Cmd.back^[n] t) u)

end Xv6.Shell
