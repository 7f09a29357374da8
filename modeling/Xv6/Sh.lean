import Xv6.Sysfile

namespace Xv6.Sh

def MAXARGS : Nat := 10

def O_RDONLY : Nat := 0x000

-- " \t\r\n\v"
def whitespace : List UInt8 := [32, 9, 13, 10, 11]

-- "<|>&;()"
def symbols : List UInt8 := [60, 124, 62, 38, 59, 40, 41]

-- A pointer into the line is what is left of the line there. The NUL at es is the
-- empty list. The string of a word is from q up to eq.
structure Span where
  q : List UInt8
  eq : List UInt8

-- struct cmd, where the type of the strings is α.
inductive Cmd (α : Type) where
  | exec (argv : List α)
  | redir (cmd : Cmd α) (file : α) (mode fd : Nat)
  | pipe (left right : Cmd α)
  | list (left right : Cmd α)
  | back (cmd : Cmd α)
  deriving DecidableEq

structure Redir (α : Type) where
  file : α
  mode : Nat
  fd : Nat

-- The redirections of a list around a command, of which the last one is outermost.
def Cmd.redirs {α : Type} (cmd : Cmd α) (rs : List (Redir α)) : Cmd α :=
  rs.foldl (fun cmd r => .redir cmd r.file r.mode r.fd) cmd

-- How a parse ends that does not return.
inductive Stop where
  | panic (msg : String)
  | fuel
  deriving DecidableEq

def skip (s : List UInt8) : List UInt8 := s.dropWhile fun c => decide (c ∈ whitespace)

def isWord (c : UInt8) : Bool := decide (c ∉ whitespace ∧ c ∉ symbols)

-- gettoken(): the token, *q and *eq, and *ps.
def gettoken (ps : List UInt8) : UInt8 × Span × List UInt8 :=
  let s := skip ps
  match s with
  | [] => (0, ⟨s, s⟩, s)
  | c :: rest =>
    if c ∈ ([124, 40, 41, 59, 38, 60] : List UInt8) then (c, ⟨s, rest⟩, skip rest)
    else if c = 62 then
      if rest.head? = some 62 then (43, ⟨s, rest.tail⟩, skip rest.tail)
      else (62, ⟨s, rest⟩, skip rest)
    else
      let e := s.dropWhile isWord
      (97, ⟨s, e⟩, skip e)

-- peek(): whether one of the characters is next, and *ps.
def peek (ps : List UInt8) (toks : List UInt8) : Bool × List UInt8 :=
  let s := skip ps
  (s.head?.any fun c => decide (c ∈ toks), s)

-- The switch of parseredirs().
def redir (tok : UInt8) (file : Span) : List (Redir Span) :=
  if tok = 60 then [⟨file, O_RDONLY, 0⟩]
  else if tok = 62 then [⟨file, Fs.O_WRONLY ||| Fs.O_CREATE ||| Fs.O_TRUNC, 1⟩]
  else if tok = 43 then [⟨file, Fs.O_WRONLY ||| Fs.O_CREATE, 1⟩]
  else []

-- parseredirs(), which puts the redirections around a command.
def parseredirs : Nat → List (Redir Span) → List UInt8 →
    Except Stop (List (Redir Span) × List UInt8)
  | 0, _, _ => .error .fuel
  | fuel + 1, rs, ps =>
    let (more, ps) := peek ps [60, 62]
    if more then
      let (tok, _, ps) := gettoken ps
      let (kind, file, ps) := gettoken ps
      if kind ≠ 97 then .error (.panic "missing file for redirection")
      else parseredirs fuel (rs ++ redir tok file) ps
    else .ok (rs, ps)

-- The loop of parseexec(). The argument vector is filled in while the redirections
-- are put around the command.
def parseargs : Nat → List Span → List (Redir Span) → List UInt8 →
    Except Stop (Cmd Span × List UInt8)
  | 0, _, _, _ => .error .fuel
  | fuel + 1, argv, rs, ps =>
    let (stop, ps) := peek ps [124, 41, 38, 59]
    if stop then .ok ((Cmd.exec argv).redirs rs, ps)
    else
      let (tok, word, ps) := gettoken ps
      if tok = 0 then .ok ((Cmd.exec argv).redirs rs, ps)
      else if tok ≠ 97 then .error (.panic "syntax")
      else
        let argv := argv ++ [word]
        if MAXARGS ≤ argv.length then .error (.panic "too many args")
        else
          match parseredirs fuel rs ps with
          | .error e => .error e
          | .ok (rs, ps) => parseargs fuel argv rs ps

-- while(peek(ps, es, "&"))
def parsebacks : Nat → Cmd Span → List UInt8 → Except Stop (Cmd Span × List UInt8)
  | 0, _, _ => .error .fuel
  | fuel + 1, cmd, ps =>
    let (more, ps) := peek ps [38]
    if more then parsebacks fuel (.back cmd) (gettoken ps).2.2 else .ok (cmd, ps)

mutual

def parseline : Nat → List UInt8 → Except Stop (Cmd Span × List UInt8)
  | 0, _ => .error .fuel
  | fuel + 1, ps =>
    match parsepipe fuel ps with
    | .error e => .error e
    | .ok (cmd, ps) =>
      match parsebacks fuel cmd ps with
      | .error e => .error e
      | .ok (cmd, ps) =>
        let (more, ps) := peek ps [59]
        if more then
          match parseline fuel (gettoken ps).2.2 with
          | .error e => .error e
          | .ok (right, ps) => .ok (.list cmd right, ps)
        else .ok (cmd, ps)

def parsepipe : Nat → List UInt8 → Except Stop (Cmd Span × List UInt8)
  | 0, _ => .error .fuel
  | fuel + 1, ps =>
    match parseexec fuel ps with
    | .error e => .error e
    | .ok (cmd, ps) =>
      let (more, ps) := peek ps [124]
      if more then
        match parsepipe fuel (gettoken ps).2.2 with
        | .error e => .error e
        | .ok (right, ps) => .ok (.pipe cmd right, ps)
      else .ok (cmd, ps)

def parseblock : Nat → List UInt8 → Except Stop (Cmd Span × List UInt8)
  | 0, _ => .error .fuel
  | fuel + 1, ps =>
    let (here, ps) := peek ps [40]
    if here then
      match parseline fuel (gettoken ps).2.2 with
      | .error e => .error e
      | .ok (cmd, ps) =>
        let (close, ps) := peek ps [41]
        if close then
          match parseredirs fuel [] (gettoken ps).2.2 with
          | .error e => .error e
          | .ok (rs, ps) => .ok (cmd.redirs rs, ps)
        else .error (.panic "syntax - missing )")
    else .error (.panic "parseblock")

def parseexec : Nat → List UInt8 → Except Stop (Cmd Span × List UInt8)
  | 0, _ => .error .fuel
  | fuel + 1, ps =>
    let (block, ps) := peek ps [40]
    if block then parseblock fuel ps
    else
      match parseredirs fuel [] ps with
      | .error e => .error e
      | .ok (rs, ps) => parseargs fuel [] rs ps

end

-- The places where nulterminate() writes a NUL.
def Cmd.ends : Cmd Span → List (List UInt8)
  | .exec argv => argv.map Span.eq
  | .redir cmd file _ _ => cmd.ends ++ [file.eq]
  | .pipe left right => left.ends ++ right.ends
  | .list left right => left.ends ++ right.ends
  | .back cmd => cmd.ends

-- *s after nulterminate().
def nulterminate (cmd : Cmd Span) (s : List UInt8) : UInt8 :=
  if s ∈ cmd.ends then 0 else s.headD 0

-- The string at s.
def string (mem : List UInt8 → UInt8) : List UInt8 → List UInt8
  | [] => []
  | c :: s => if mem (c :: s) = 0 then [] else mem (c :: s) :: string mem s

def Cmd.map {α β : Type} (f : α → β) : Cmd α → Cmd β
  | .exec argv => .exec (argv.map f)
  | .redir cmd file mode fd => .redir (cmd.map f) (f file) mode fd
  | .pipe left right => .pipe (left.map f) (right.map f)
  | .list left right => .list (left.map f) (right.map f)
  | .back cmd => .back (cmd.map f)

-- parsecmd(s), with the strings of the command as they are at the end. Five calls
-- at most go without a character of the line.
def parsecmd (s : List UInt8) : Except Stop (Cmd (List UInt8)) :=
  match parseline (5 * s.length + 5) s with
  | .error e => .error e
  | .ok (cmd, ps) =>
    let (_, ps) := peek ps []
    if ps ≠ [] then .error (.panic "syntax")
    else .ok (cmd.map fun word => string (nulterminate cmd) word.q)

end Xv6.Sh
