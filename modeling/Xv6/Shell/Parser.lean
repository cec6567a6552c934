import Xv6.Lib.CString
import Xv6.Shell.Grammar

/-!
# The parser of the shell

`parsecmd` and its callees in `sh.c`.  The bound on the number of rounds of each loop and
on the depth of the calls stands for the recursion and the loops of the source; memory is
never short.
-/

namespace Xv6.Shell

open Stateful

/-- `parseredirs` -/
def parseredirs : Nat → Cmd Span → Parser (Cmd Span)
  | 0, _ => throw .fuel
  | fuel + 1, cmd => do
      if ← peek (ascii ['<', '>']) then
        let tok ← gettoken
        match ← gettoken with
        | some (.word file) =>
          match tok.bind (Token.redir? file) with
          | some r => parseredirs fuel (.redir cmd r.file r.mode r.fd)
          | none => parseredirs fuel cmd
        | _ => throw .missingFile
      else
        return cmd

/-- `cmd->argv[argc] = q`, where `cmd` is the `execcmd` inside of the redirections. -/
def Cmd.pushArg (arg : Span) : Cmd Span → Cmd Span
  | .exec argv => .exec (argv ++ [arg])
  | .redir cmd file mode fd => .redir (cmd.pushArg arg) file mode fd
  | cmd => cmd

/-- The loop of `parseexec`. -/
def parseargs : Nat → Nat → Cmd Span → Parser (Cmd Span)
  | 0, _, _ => throw .fuel
  | fuel + 1, argc, ret => do
      if ← peek (ascii ['|', ')', '&', ';']) then
        return ret
      else
        match ← gettoken with
        | none => return ret
        | some (.word arg) =>
          if argc + 1 ≥ maxargs then
            throw .tooManyArgs
          let ret ← parseredirs fuel (ret.pushArg arg)
          parseargs fuel (argc + 1) ret
        | some _ => throw .notWord

/-- The loop of `parseline`. -/
def parsebacks : Nat → Cmd Span → Parser (Cmd Span)
  | 0, _ => throw .fuel
  | fuel + 1, cmd => do
      if ← peek (ascii ['&']) then
        let _ ← gettoken
        parsebacks fuel (.back cmd)
      else
        return cmd

mutual

/-- `parseline` -/
def parseline : Nat → Parser (Cmd Span)
  | 0 => throw .fuel
  | fuel + 1 => do
      let cmd ← parsepipe fuel
      let cmd ← parsebacks fuel cmd
      if ← peek (ascii [';']) then
        let _ ← gettoken
        return .list cmd (← parseline fuel)
      else
        return cmd

/-- `parsepipe` -/
def parsepipe : Nat → Parser (Cmd Span)
  | 0 => throw .fuel
  | fuel + 1 => do
      let cmd ← parseexec fuel
      if ← peek (ascii ['|']) then
        let _ ← gettoken
        return .pipe cmd (← parsepipe fuel)
      else
        return cmd

/-- `parseblock` -/
def parseblock : Nat → Parser (Cmd Span)
  | 0 => throw .fuel
  | fuel + 1 => do
      if !(← peek (ascii ['('])) then
        throw .parseblock
      let _ ← gettoken
      let cmd ← parseline fuel
      if !(← peek (ascii [')'])) then
        throw .missingParen
      let _ ← gettoken
      parseredirs fuel cmd

/-- `parseexec` -/
def parseexec : Nat → Parser (Cmd Span)
  | 0 => throw .fuel
  | fuel + 1 => do
      if ← peek (ascii ['(']) then
        parseblock fuel
      else
        let ret ← parseredirs fuel (.exec [])
        parseargs fuel 0 ret

end

/-- Where `nulterminate` stores a NUL. -/
def nulterminate : Cmd Span → List (List UInt8)
  | .exec argv => argv.map Span.stop
  | .redir cmd file _ _ => nulterminate cmd ++ [file.stop]
  | .pipe left right => nulterminate left ++ nulterminate right
  | .list left right => nulterminate left ++ nulterminate right
  | .back cmd => nulterminate cmd

/-- The string at a pointer into the line after NULs have been stored. -/
def stringAt (ends : List (List UInt8)) : List UInt8 → List UInt8
  | [] => []
  | c :: s => if c :: s ∈ ends then [] else c :: stringAt ends s

/-- The tree with the strings that its pointers give in the end. -/
def Cmd.strings (cmd : Cmd Span) : Cmd (List UInt8) :=
  cmd.map fun span => stringAt (nulterminate cmd) span.start

/-- The body of `parsecmd` -/
def parsewhole (fuel : Nat) : Parser (Cmd (List UInt8)) := do
  let cmd ← parseline fuel
  let _ ← peek []
  if (← get) ≠ [] then
    throw .leftovers
  return cmd.strings

/-- `parsecmd`, for the characters at `s` -/
def parsecmd (fuel : Nat) (s : List UInt8) : Except Stop (Cmd (List UInt8)) :=
  (parsewhole fuel).run' (CString.text s)

end Xv6.Shell
