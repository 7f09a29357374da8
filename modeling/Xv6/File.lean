import Xv6.Fs

namespace Xv6.Fs

open Lib

variable (sb : Superblock) (p : Nat)

def filealloc : Prog Sys Label (Option FileIdx) :=
  .atomic .file fun s =>
    match (List.finRange NFILE).find? fun f => decide ((s.file f).ref = 0) with
    | some f => (s.setFile f fun fl => { fl with ref := 1 }, .ok (some f))
    | none => (s, .ok none)

def filedup (f : FileIdx) : Prog Sys Label Unit :=
  .atomic .file fun s =>
    if (s.file f).ref < 1 then (s, .error "filedup")
    else (s.setFile f fun fl => { fl with ref := fl.ref + 1 }, .ok ())

-- The reference of a file that is closed for the last time goes to the process
-- that closes it.
def Sys.closeFile (s : Sys) (p : Nat) (f : FileIdx) : Sys :=
  let t := s.setFile f fun fl => { fl with ref := 0, type := .none }
  if (s.file f).type = .inode ∨ (s.file f).type = .device then
    { t with refs := (.proc p, (s.file f).ip) :: s.refs.erase (.file f, (s.file f).ip) }
  else t

def PipeEnds.close (e : PipeEnds) (writable : Bool) : PipeEnds :=
  if writable then { e with writeopen := false } else { e with readopen := false }

-- The page is freed with the last end. A page that is not allocated to a pipe
-- holds no struct pipe.
def pipeclose (pa : Nat) (writable : Bool) : Prog Sys Label Unit :=
  .atomic .file fun s =>
    match s.pipe pa with
    | some e =>
      if (e.close writable).readopen = false ∧ (e.close writable).writeopen = false then
        (s.setPipe pa none, .ok ())
      else (s.setPipe pa (some (e.close writable)), .ok ())
    | none => (s, .error "kerneltrap")

def fileclose (f : FileIdx) : Prog Sys Label Unit := do
  let ff ← .atomic .file fun s =>
    if (s.file f).ref < 1 then (s, .error "fileclose")
    else if 0 < (s.file f).ref - 1 then
      (s.setFile f fun fl => { fl with ref := fl.ref - 1 }, .ok none)
    else (s.closeFile p f, .ok (some (s.file f)))
  match ff with
  | none => pure ()
  | some ff =>
    if ff.type = .pipe then pipeclose ff.pipe ff.writable
    else if ff.type = .inode ∨ ff.type = .device then do
      beginOp
      iput p ff.ip
      endOp
    else pure ()

-- stati() reads the inode and changes nothing. The answer of a copy to user
-- space is given.
def filestat (f : FileIdx) (copied : Bool) : Prog Sys Label Int := do
  let fl ← .look .look fun s => s.file f
  if fl.type = .inode ∨ fl.type = .device then do
    ilock p fl.ip
    iunlock p fl.ip
    pure (if copied then 0 else -1)
  else pure (-1)

def advance (f : FileIdx) (r : Int) : Prog Sys Label Unit :=
  .modify .file fun s =>
    if 0 < r then s.setFile f fun fl => { fl with off := fl.off + r.toNat } else s

-- What a pipe or a device answers is given.
def fileread (f : FileIdx) (dst : Dst) (n other : Int) : Prog Sys Label Int := do
  let fl ← .look .look fun s => s.file f
  if fl.readable = false then pure (-1)
  else
    match fl.type with
    | .pipe => pure other
    | .device => pure (if fl.major < 0 ∨ NDEV ≤ fl.major then -1 else other)
    | .inode => do
        ilock p fl.ip
        let off ← .look .look fun s => (s.file f).off
        let r ← readi sb fl.ip dst off (uint n)
        advance f r.1
        iunlock p fl.ip
        pure r.1
    | .none => .panic "fileread"

-- The rounds of the loop of filewrite().
def pieces (max : Nat) : Nat → Nat → Nat → List (Nat × Nat)
  | 0, _, _ => []
  | fuel + 1, i, n =>
    if n ≤ i then [] else (i, min (n - i) max) :: pieces max fuel (i + min (n - i) max) n

def filewriteLoop (f : FileIdx) (ip : Slot) (mem : Nat → Option UInt8) :
    Nat → List (Nat × Nat) → Prog Sys Label Nat
  | done, [] => pure done
  | done, (i, n1) :: rest => do
      beginOp
      ilock p ip
      let off ← .look .look fun s => (s.file f).off
      let r ← writei sb ip (.user fun j => mem (i + j)) off n1
      advance f r
      iunlock p ip
      endOp
      if r = n1 then filewriteLoop f ip mem (i + n1) rest else pure done

def filewrite (f : FileIdx) (mem : Nat → Option UInt8) (n other : Int) :
    Prog Sys Label Int := do
  let fl ← .look .look fun s => s.file f
  if fl.writable = false then pure (-1)
  else
    match fl.type with
    | .pipe => pure other
    | .device => pure (if fl.major < 0 ∨ NDEV ≤ fl.major then -1 else other)
    | .inode => do
        let max := (MAXOPBLOCKS - 1 - 1 - 2) / 2 * BSIZE
        let i ← filewriteLoop sb p f fl.ip mem 0 (pieces max n.toNat 0 n.toNat)
        pure (if (i : Int) = n then n else -1)
    | .none => .panic "filewrite"

end Xv6.Fs
