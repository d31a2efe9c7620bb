import Xv6.Shell.Token

/-!
# The shell parser and its grammar

The functions of `sh.c` from `parseredirs` to `parsecmd`, on the characters of the line, and the grammar

    line  ::= pipe '&'* [ ';' line ]
    pipe  ::= exec [ '|' pipe ]
    exec  ::= '(' line ')' redir* | redir* ( word redir* )*
    redir ::= ( '<' | '>' | '>>' ) word

with the tree of each derivation (`Derives`). The functions call each other, so each has a bound `fuel` on the depth of
the calls; `parsecmd` starts with as much as any line needs.
-/

namespace Xv6.Shell

open Lib

abbrev MAXARGS : ℕ := 10

abbrev O_RDONLY : ℕ := 0x000

abbrev O_WRONLY : ℕ := 0x001

abbrev O_CREATE : ℕ := 0x200

inductive Cmd
  | exec (argv : List (List Char))
  | redir (cmd : Cmd) (file : List Char) (mode fd : ℕ)
  | pipe (left right : Cmd)
  | list (left right : Cmd)
  | back (cmd : Cmd)
  deriving DecidableEq

/-- `cmd->argv[argc] = q`, where `cmd` is the node below the redirections that have been put around it. -/
def Cmd.arg (w : List Char) : Cmd → Cmd
  | .exec argv => .exec (argv ++ [w])
  | .redir cmd file mode fd => .redir (cmd.arg w) file mode fd
  | cmd => cmd

/-- The `switch(tok)` of `parseredirs`. -/
def redirect (tok : Option Tok) (cmd : Cmd) (file : List Char) : Cmd :=
  match tok with
  | some .lt => .redir cmd file O_RDONLY 0
  | some .gt => .redir cmd file (O_WRONLY ||| O_CREATE) 1
  | some .append => .redir cmd file (O_WRONLY ||| O_CREATE) 1
  | _ => cmd

/-! ## The parser -/

def parseredirs : ℕ → Cmd → Parser Cmd
  | 0, _ => throw .outOfFuel
  | fuel + 1, cmd => do
    if ← peekp ['<', '>'] then
      let tok ← gettokenp
      match ← gettokenp with
      | some (.word file) => parseredirs fuel (redirect tok cmd file)
      | _ => throw .missingFile
    else return cmd

def parseargs : ℕ → ℕ → Cmd → Parser Cmd
  | 0, _, _ => throw .outOfFuel
  | fuel + 1, argc, ret => do
    if ← peekp ['|', ')', '&', ';'] then return ret
    else
      match ← gettokenp with
      | none => return ret
      | some (.word w) =>
        if argc + 1 ≥ MAXARGS then throw .tooManyArgs
        else do
          let ret ← parseredirs fuel (ret.arg w)
          parseargs fuel (argc + 1) ret
      | some _ => throw .badToken

def parsebacks : ℕ → Cmd → Parser Cmd
  | 0, _ => throw .outOfFuel
  | fuel + 1, cmd => do
    if ← peekp ['&'] then
      let _ ← gettokenp
      parsebacks fuel (.back cmd)
    else return cmd

mutual

def parseline : ℕ → Parser Cmd
  | 0 => throw .outOfFuel
  | fuel + 1 => do
    let cmd ← parsepipe fuel
    let cmd ← parsebacks fuel cmd
    if ← peekp [';'] then
      let _ ← gettokenp
      let right ← parseline fuel
      return .list cmd right
    else return cmd

def parsepipe : ℕ → Parser Cmd
  | 0 => throw .outOfFuel
  | fuel + 1 => do
    let cmd ← parseexec fuel
    if ← peekp ['|'] then
      let _ ← gettokenp
      let right ← parsepipe fuel
      return .pipe cmd right
    else return cmd

def parseblock : ℕ → Parser Cmd
  | 0 => throw .outOfFuel
  | fuel + 1 => do
    if ← peekp ['('] then
      let _ ← gettokenp
      let cmd ← parseline fuel
      if ← peekp [')'] then
        let _ ← gettokenp
        parseredirs fuel cmd
      else throw .missingParen
    else throw .parseblock

def parseexec : ℕ → Parser Cmd
  | 0 => throw .outOfFuel
  | fuel + 1 => do
    if ← peekp ['('] then parseblock fuel
    else
      let ret ← parseredirs fuel (.exec [])
      parseargs fuel 0 ret

end

/-- `parsecmd`, up to `nulterminate`. -/
def parsecmd (s : List Char) : Except Err Cmd := do
  let (cmd, p) ← (parseline (4 * s.length + 4)).run s
  let (_, p) ← (peekp []).run p
  if p ≠ [] then throw .leftovers
  return cmd

/-! ## The grammar -/

/-- `redir*`, with the redirections. -/
inductive Redirs : List Tok → List (Tok × List Char) → Prop
  | nil : Redirs [] []
  | cons {op : Tok} {file : List Char} {ts : List Tok} {rs : List (Tok × List Char)} :
      op ∈ [Tok.lt, .gt, .append] → Redirs ts rs → Redirs (op :: .word file :: ts) ((op, file) :: rs)

/-- `( word redir* )*`, with the words and the redirections. -/
inductive Args : List Tok → List (List Char) → List (Tok × List Char) → Prop
  | nil : Args [] [] []
  | cons {w : List Char} {ts us : List Tok} {ws : List (List Char)} {rs rs' : List (Tok × List Char)} :
      Redirs ts rs → Args us ws rs' → Args (.word w :: (ts ++ us)) (w :: ws) (rs ++ rs')

/-- Each redirection around what precedes it. -/
def wrap (cmd : Cmd) (rs : List (Tok × List Char)) : Cmd := rs.foldl (fun cmd r => redirect (some r.1) cmd r.2) cmd

/-- `n` times `back`. -/
def backs (cmd : Cmd) : ℕ → Cmd
  | 0 => cmd
  | n + 1 => backs (.back cmd) n

inductive Nt
  | line
  | pipe
  | exec

/-- **The grammar**: a nonterminal derives the tokens, and the command is the tree of the derivation. -/
inductive Derives : Nt → List Tok → Cmd → Prop
  | line {ts : List Tok} {c : Cmd} (n : ℕ) : Derives .pipe ts c → Derives .line (ts ++ List.replicate n .amp) (backs c n)
  | seq {ts us : List Tok} {c d : Cmd} (n : ℕ) : Derives .pipe ts c → Derives .line us d →
      Derives .line (ts ++ (List.replicate n .amp ++ .semi :: us)) (.list (backs c n) d)
  | one {ts : List Tok} {c : Cmd} : Derives .exec ts c → Derives .pipe ts c
  | pipe {ts us : List Tok} {c d : Cmd} : Derives .exec ts c → Derives .pipe us d →
      Derives .pipe (ts ++ .bar :: us) (.pipe c d)
  | block {ts us : List Tok} {c : Cmd} {rs : List (Tok × List Char)} : Derives .line ts c → Redirs us rs →
      Derives .exec (.lparen :: (ts ++ .rparen :: us)) (wrap c rs)
  | exec {ts us : List Tok} {ws : List (List Char)} {rs rs' : List (Tok × List Char)} : Redirs ts rs →
      Args us ws rs' → ws.length < MAXARGS → Derives .exec (ts ++ us) (wrap (.exec ws) (rs ++ rs'))

end Xv6.Shell
