import Xv6.File

namespace Xv6.Fs

open Lib

variable (sb : Superblock) (p : Nat)

-- argfd(): the open file of a descriptor.
def argfd (fd : Int) : Prog Sys Label (Option (Fd × FileIdx)) :=
  .look .look fun s =>
    if h : 0 ≤ fd ∧ fd.toNat < NOFILE then
      ((s.proc p).ofile ⟨fd.toNat, h.2⟩).map fun f => (⟨fd.toNat, h.2⟩, f)
    else none

def setOfile (fd : Fd) (f : Option FileIdx) (s : Sys) : Sys :=
  s.setProc p fun pr => { pr with ofile := Function.update pr.ofile fd f }

def fdalloc (f : FileIdx) : Prog Sys Label (Option Fd) :=
  .atomic .proc fun s =>
    match (List.finRange NOFILE).find? fun fd => decide ((s.proc p).ofile fd = none) with
    | some fd => (setOfile p fd (some f) s, .ok (some fd))
    | none => (s, .ok none)

-- argstr() of a path: the bytes before the NUL, where these fit. The argument
-- is none when the memory is not mapped.
def argstr (arg : Option (List UInt8)) : Option (List UInt8) :=
  (arg.map fun bs => bs.takeWhile (· ≠ 0)).filter fun path => path.length < MAXPATH

def fail : Prog Sys Label Int := do
  endOp
  pure (-1)

def sysDup (fd : Int) : Prog Sys Label Int := do
  let r ← argfd p fd
  match r with
  | none => pure (-1)
  | some (_, f) => do
      let fd ← fdalloc p f
      match fd with
      | none => pure (-1)
      | some fd => do
          filedup f
          pure fd.val

def sysRead (fd : Int) (dst : Dst) (n other : Int) : Prog Sys Label Int := do
  let r ← argfd p fd
  match r with
  | none => pure (-1)
  | some (_, f) => fileread sb p f dst n other

def sysWrite (fd : Int) (mem : Nat → Option UInt8) (n other : Int) : Prog Sys Label Int := do
  let r ← argfd p fd
  match r with
  | none => pure (-1)
  | some (_, f) => filewrite sb p f mem n other

def sysClose (fd : Int) : Prog Sys Label Int := do
  let r ← argfd p fd
  match r with
  | none => pure (-1)
  | some (fd, f) => do
      .modify .proc (setOfile p fd none)
      fileclose p f
      pure 0

def sysFstat (fd : Int) (copied : Bool) : Prog Sys Label Int := do
  let r ← argfd p fd
  match r with
  | none => pure (-1)
  | some (_, f) => filestat p f copied

-- ip->nlink++ and ip->nlink--, with the iupdate() that follows each of them.
def incLink (i : Slot) : Prog Sys Label Unit := do
  .modify (.incLink i) fun s => s.setInode i fun ip => { ip with nlink := short (ip.nlink + 1) }
  iupdate i

def decLink (i : Slot) : Prog Sys Label Unit := do
  .modify (.setLink i) fun s => s.setInode i fun ip => { ip with nlink := short (ip.nlink - 1) }
  iupdate i

def linkBad (ip : Slot) : Prog Sys Label Int := do
  ilock p ip
  decLink ip
  iunlockput p ip
  fail

-- dp->dev != ip->dev || dirlink(dp, name, ip->inum) < 0
def linkEntry (dp : Slot) (name : List UInt8) (dev : Nat × Nat) (inum : Nat) :
    Prog Sys Label Int :=
  if dev.1 ≠ dev.2 then pure (-1) else dirlink sb p dp name inum

def linkParent (ip dp : Slot) (name : List UInt8) : Prog Sys Label Int := do
  ilock p dp
  let dev ← .look (.parent dp) fun s => ((s.inode dp).dev, (s.inode ip).dev)
  let inum ← .look .look fun s => (s.inode ip).inum
  let r ← linkEntry sb p dp name dev inum
  iunlockput p dp
  if r < 0 then linkBad p ip
  else do
    iput p ip
    endOp
    pure 0

def linkFrom (ip : Slot) (new : List UInt8) : Prog Sys Label Int := do
  ilock p ip
  let type ← .look .look fun s => (s.inode ip).type
  if type = .dir then do
    iunlockput p ip
    fail
  else do
    incLink ip
    iunlock p ip
    let parent ← nameiparent sb p new
    match parent with
    | none => linkBad p ip
    | some (dp, name) => linkParent sb p ip dp name

def sysLink (old new : Option (List UInt8)) : Prog Sys Label Int :=
  match old, new with
  | some old, some new => do
      beginOp
      let ip ← namei sb p old
      match ip with
      | none => fail
      | some ip => linkFrom sb p ip new
  | _, _ => pure (-1)

def isdiremptyLoop (i : Slot) : List Nat → Prog Sys Label Bool
  | [] => pure true
  | off :: rest => do
      let de ← readDirent sb i off "isdirempty: readi"
      if de.inum ≠ 0 then pure false else isdiremptyLoop i rest

def isdirempty (i : Slot) : Prog Sys Label Bool := do
  let size ← .look .look fun s => (s.inode i).size
  isdiremptyLoop sb i ((offsets size).drop 2)

def unlinkBad (dp : Slot) : Prog Sys Label Int := do
  iunlockput p dp
  fail

def unlinkParent (dp : Slot) (type : InodeType) : Prog Sys Label Unit :=
  if type = .dir then decLink dp else pure ()

def unlinkRemove (dp ip : Slot) (type : InodeType) (off : Nat) : Prog Sys Label Int := do
  let r ← writei sb dp (.kernel (Dirent.encode Dirent.zero)) off DIRENT
  if r = DIRENT then do
    unlinkParent dp type
    iunlockput p dp
    decLink ip
    iunlockput p ip
    endOp
    pure 0
  else .panic "unlink: writei"

-- ip->type != T_DIR || isdirempty(ip)
def removable (ip : Slot) (type : InodeType) : Prog Sys Label Bool :=
  if type = .dir then isdirempty sb ip else pure true

def unlinkEntry (dp ip : Slot) (off : Nat) : Prog Sys Label Int := do
  ilock p ip
  let ino ← .look .look fun s => s.inode ip
  if ino.nlink < 1 then .panic "unlink: nlink < 1"
  else do
    let ok ← removable sb ip ino.type
    if ok then unlinkRemove sb p dp ip ino.type off
    else do
      iunlockput p ip
      unlinkBad p dp

def unlinkFrom (dp : Slot) (name : List UInt8) : Prog Sys Label Int := do
  ilock p dp
  if namecmp name DOT ∨ namecmp name DOTDOT then unlinkBad p dp
  else do
    let entry ← dirlookup sb p dp name
    match entry with
    | none => unlinkBad p dp
    | some (ip, off) => unlinkEntry sb p dp ip off

def sysUnlink (path : Option (List UInt8)) : Prog Sys Label Int :=
  match path with
  | none => pure (-1)
  | some path => do
      beginOp
      let parent ← nameiparent sb p path
      match parent with
      | none => fail
      | some (dp, name) => unlinkFrom sb p dp name

-- The answer is -1 when dirlink() fails for "." or "..".
def createDots (dp ip : Slot) (type : InodeType) : Prog Sys Label Int :=
  if type = .dir then do
    let inum ← .look .look fun s => (s.inode ip).inum
    let r ← dirlink sb p ip DOT inum
    if r < 0 then pure (-1)
    else do
      let inum ← .look .look fun s => (s.inode dp).inum
      dirlink sb p ip DOTDOT inum
  else pure 0

def createParent (dp : Slot) (type : InodeType) : Prog Sys Label Unit :=
  if type = .dir then incLink dp else pure ()

def createFail (dp ip : Slot) : Prog Sys Label (Option Slot) := do
  .modify (.setLink ip) fun s => s.setInode ip fun ip => { ip with nlink := 0 }
  iupdate ip
  iunlockput p ip
  iunlockput p dp
  pure none

def createNew (dp ip : Slot) (name : List UInt8) (type : InodeType) (major minor : Int) :
    Prog Sys Label (Option Slot) := do
  ilock p ip
  .modify (.setLink ip) fun s => s.setInode ip fun ip =>
    { ip with major := short major, minor := short minor, nlink := 1 }
  iupdate ip
  let r ← createDots sb p dp ip type
  if r < 0 then createFail p dp ip
  else do
    let inum ← .look .look fun s => (s.inode ip).inum
    let r ← dirlink sb p dp name inum
    if r < 0 then createFail p dp ip
    else do
      createParent dp type
      iunlockput p dp
      pure (some ip)

def createFound (dp ip : Slot) (type : InodeType) : Prog Sys Label (Option Slot) := do
  iunlockput p dp
  ilock p ip
  let t ← .look .look fun s => (s.inode ip).type
  if type = .file ∧ (t = .file ∨ t = .device) then pure (some ip)
  else do
    iunlockput p ip
    pure none

def createIn (dp : Slot) (name : List UInt8) (type : InodeType) (major minor : Int) :
    Prog Sys Label (Option Slot) := do
  ilock p dp
  let dev ← .look (.parent dp) fun s => (s.inode dp).dev
  let entry ← dirlookup sb p dp name
  match entry with
  | some (ip, _) => createFound p dp ip type
  | none => do
      let ip ← ialloc sb p dev type
      match ip with
      | none => do
          iunlockput p dp
          pure none
      | some ip => createNew sb p dp ip name type major minor

def create (path : List UInt8) (type : InodeType) (major minor : Int) :
    Prog Sys Label (Option Slot) := do
  let parent ← nameiparent sb p path
  match parent with
  | none => pure none
  | some (dp, name) => createIn sb p dp name type major minor

def O_WRONLY : Nat := 0x001
def O_RDWR : Nat := 0x002
def O_CREATE : Nat := 0x200
def O_TRUNC : Nat := 0x400

def openInode (path : List UInt8) (omode : Nat) : Prog Sys Label (Option Slot) :=
  if omode &&& O_CREATE ≠ 0 then create sb p path .file 0 0
  else do
    let ip ← namei sb p path
    match ip with
    | none => pure none
    | some ip => do
        ilock p ip
        let type ← .look .look fun s => (s.inode ip).type
        if type = .dir ∧ omode ≠ 0 then do
          iunlockput p ip
          pure none
        else pure (some ip)

def openBad (ip : Slot) : Prog Sys Label Int := do
  iunlockput p ip
  fail

-- The fields of a new open file. The reference of the process becomes the
-- reference of the file.
def Sys.openFile (s : Sys) (p : Nat) (f : FileIdx) (ip : Slot) (omode : Nat) : Sys :=
  { s.setFile f fun fl =>
      { fl with
        type := if (s.inode ip).type = .device then .device else .inode
        major := if (s.inode ip).type = .device then (s.inode ip).major else fl.major
        off := if (s.inode ip).type = .device then fl.off else 0
        ip := ip
        readable := decide (omode &&& O_WRONLY = 0)
        writable := decide (omode &&& O_WRONLY ≠ 0 ∨ omode &&& O_RDWR ≠ 0) } with
    refs := (.file f, ip) :: s.refs.erase (.proc p, ip) }

def openTrunc (ip : Slot) (type : InodeType) (omode : Nat) : Prog Sys Label Unit :=
  if omode &&& O_TRUNC ≠ 0 ∧ type = .file then itrunc ip else pure ()

def openFile (ip : Slot) (type : InodeType) (omode : Nat) : Prog Sys Label Int := do
  let f ← filealloc
  match f with
  | none => openBad p ip
  | some f => do
      let fd ← fdalloc p f
      match fd with
      | none => do
          fileclose p f
          openBad p ip
      | some fd => do
          .modify .file fun s => s.openFile p f ip omode
          openTrunc ip type omode
          iunlock p ip
          endOp
          pure fd.val

def sysOpen (path : Option (List UInt8)) (omode : Nat) : Prog Sys Label Int :=
  match path with
  | none => pure (-1)
  | some path => do
      beginOp
      let ip ← openInode sb p path omode
      match ip with
      | none => fail
      | some ip => do
          let ino ← .look .look fun s => s.inode ip
          if ino.type = .device ∧ (ino.major < 0 ∨ NDEV ≤ ino.major) then openBad p ip
          else openFile p ip ino.type omode

-- mkdir() and mknod() create an inode and let go of it.
def makeNode (path : Option (List UInt8)) (type : InodeType) (major minor : Int) :
    Prog Sys Label Int := do
  beginOp
  match path with
  | none => fail
  | some path => do
      let ip ← create sb p path type major minor
      match ip with
      | none => fail
      | some ip => do
          iunlockput p ip
          endOp
          pure 0

def sysMkdir (path : Option (List UInt8)) : Prog Sys Label Int := makeNode sb p path .dir 0 0

def sysMknod (path : Option (List UInt8)) (major minor : Int) : Prog Sys Label Int :=
  makeNode sb p path .device major minor

-- iput(p->cwd)
def iputCwd : Prog Sys Label Unit := do
  let cwd ← .look .look fun s => (s.proc p).cwd
  match cwd with
  | none => .panic "kerneltrap"
  | some i => iput p i

def chdirTo (ip : Slot) : Prog Sys Label Int := do
  ilock p ip
  let type ← .look .look fun s => (s.inode ip).type
  if type ≠ .dir then openBad p ip
  else do
    iunlock p ip
    iputCwd p
    endOp
    .modify .proc fun s => s.setProc p fun pr => { pr with cwd := some ip }
    pure 0

def sysChdir (path : Option (List UInt8)) : Prog Sys Label Int := do
  beginOp
  match path with
  | none => fail
  | some path => do
      let ip ← namei sb p path
      match ip with
      | none => fail
      | some ip => chdirTo p ip

def pipeFile (f : FileIdx) (pa : Nat) (writable : Bool) (s : Sys) : Sys :=
  s.setFile f fun fl =>
    { fl with type := .pipe, readable := !writable, writable := writable, pipe := pa }

-- The page that kalloc() has is given. It is none that is allocated to a pipe.
def kallocPipe (page : Option Nat) : Prog Sys Label (Option Nat) :=
  .atomic .file fun s =>
    match page.filter fun pa => (s.pipe pa).isNone with
    | some pa => (s.setPipe pa (some ⟨true, true⟩), .ok (some pa))
    | none => (s, .ok none)

def closeBoth (rf wf : FileIdx) : Prog Sys Label Unit := do
  fileclose p rf
  fileclose p wf

def pipealloc (page : Option Nat) : Prog Sys Label (Option (FileIdx × FileIdx)) := do
  let rf ← filealloc
  match rf with
  | none => pure none
  | some rf => do
      let wf ← filealloc
      match wf with
      | none => do
          fileclose p rf
          pure none
      | some wf => do
          let pa ← kallocPipe page
          match pa with
          | none => do
              closeBoth p rf wf
              pure none
          | some pa => do
              .modify .file fun s => pipeFile wf pa true (pipeFile rf pa false s)
              pure (some (rf, wf))

-- The descriptors of the two ends, if there is room for both of them.
def pipeFds (rf wf : FileIdx) : Prog Sys Label (Option (Fd × Fd)) := do
  let fd0 ← fdalloc p rf
  match fd0 with
  | none => pure none
  | some fd0 => do
      let fd1 ← fdalloc p wf
      match fd1 with
      | none => do
          .modify .proc (setOfile p fd0 none)
          pure none
      | some fd1 => pure (some (fd0, fd1))

-- Whether copyout() succeeds is given.
def sysPipe (page : Option Nat) (copied : Bool) : Prog Sys Label Int := do
  let files ← pipealloc p page
  match files with
  | none => pure (-1)
  | some (rf, wf) => do
      let fds ← pipeFds p rf wf
      match fds with
      | none => do
          closeBoth p rf wf
          pure (-1)
      | some (fd0, fd1) =>
        if copied then pure 0
        else do
          .modify .proc fun s => setOfile p fd1 none (setOfile p fd0 none s)
          closeBoth p rf wf
          pure (-1)

-- The part of exec() that uses the file system. Which parts of the file it
-- reads depends on the headers it finds there, and is given.
def execReads (ip : Slot) : List (Nat × Nat) → Prog Sys Label Unit
  | [] => pure ()
  | (off, n) :: rest => do
      let _ ← readi sb ip kernelDst off n
      execReads ip rest

def exec (path : List UInt8) (reads : List (Nat × Nat)) (answer : Int) : Prog Sys Label Int := do
  beginOp
  let ip ← namei sb p path
  match ip with
  | none => fail
  | some ip => do
      ilock p ip
      execReads sb ip reads
      iunlockput p ip
      endOp
      pure answer

def sysExec (path : Option (List UInt8)) (reads : List (Nat × Nat)) (answer : Int) :
    Prog Sys Label Int :=
  match path with
  | none => pure (-1)
  | some path => exec sb p path reads answer

def forkFile (q : Nat) (fd : Fd) : Prog Sys Label Unit := do
  let f ← .look .look fun s => (s.proc p).ofile fd
  match f with
  | none => pure ()
  | some f => do
      filedup f
      .modify .proc (setOfile q fd (some f))

def forkFiles (q : Nat) : List Fd → Prog Sys Label Unit
  | [] => pure ()
  | fd :: rest => do
      forkFile p q fd
      forkFiles q rest

-- np->cwd = idup(p->cwd), and the release of np->lock.
def forkCwd (q : Nat) : Prog Sys Label Int := do
  let cwd ← .look .look fun s => (s.proc p).cwd
  match cwd with
  | none => .panic "kerneltrap"
  | some i => do
      .modify (.idup i) fun s =>
        (s.hold q i).setProc q fun np => { np with cwd := some i, holder := none }
      pure q

-- allocproc() takes slot q if it is free, and uvmcopy() may fail.
def fork (q : Nat) (copied : Bool) : Prog Sys Label Int := do
  let free ← .atomic .proc fun s =>
    if (s.proc q).used ∨ (s.proc q).holder ≠ none then (s, .ok false)
    else (s.setProc q fun np => { np with used := true, holder := some p }, .ok true)
  if free then
    if copied then do
      forkFiles p q (List.finRange NOFILE)
      forkCwd p q
    else do
      .modify .proc fun s => s.setProc q fun np => { np with used := false, holder := none }
      pure (-1)
  else pure (-1)

def exitFile (fd : Fd) : Prog Sys Label Unit := do
  let f ← .look .look fun s => (s.proc p).ofile fd
  match f with
  | none => pure ()
  | some f => do
      fileclose p f
      .modify .proc (setOfile p fd none)

def exitFiles : List Fd → Prog Sys Label Unit
  | [] => pure ()
  | fd :: rest => do
      exitFile p fd
      exitFiles rest

-- exit(), up to the wait() that frees the slot. The init process is process 0.
def exit : Prog Sys Label Int :=
  if p = 0 then .panic "init exiting"
  else do
    exitFiles p (List.finRange NOFILE)
    beginOp
    iputCwd p
    endOp
    .modify .proc fun s => s.setProc p fun pr => { pr with cwd := none, used := false }
    pure 0

-- The buffer of block b is recycled, and what was not logged is lost.
def evict (b : Nat) : Prog Sys Label Int := do
  .modify (.evict b) fun s => s.setData b (s.home b)
  pure 0

inductive Syscall where
  | dup (fd : Int)
  | read (fd : Int) (dst : Dst) (n other : Int)
  | write (fd : Int) (mem : Nat → Option UInt8) (n other : Int)
  | close (fd : Int)
  | fstat (fd : Int) (copied : Bool)
  | link (old new : Option (List UInt8))
  | unlink (path : Option (List UInt8))
  | open (path : Option (List UInt8)) (omode : Nat)
  | mkdir (path : Option (List UInt8))
  | mknod (path : Option (List UInt8)) (major minor : Int)
  | chdir (path : Option (List UInt8))
  | pipe (page : Option Nat) (copied : Bool)
  | exec (path : Option (List UInt8)) (reads : List (Nat × Nat)) (answer : Int)
  | fork (q : Nat) (copied : Bool)
  | exit
  | evict (b : Nat)

-- A system call of process p. The buffer cache may recycle a buffer at any
-- time, which is written as one more call.
def syscall : Syscall → Prog Sys Label Int
  | .dup fd => sysDup p fd
  | .read fd dst n other => sysRead sb p fd dst n other
  | .write fd mem n other => sysWrite sb p fd mem n other
  | .close fd => sysClose p fd
  | .fstat fd copied => sysFstat p fd copied
  | .link old new => sysLink sb p (argstr old) (argstr new)
  | .unlink path => sysUnlink sb p (argstr path)
  | .open path omode => sysOpen sb p (argstr path) omode
  | .mkdir path => sysMkdir sb p (argstr path)
  | .mknod path major minor => sysMknod sb p (argstr path) major minor
  | .chdir path => sysChdir sb p (argstr path)
  | .pipe page copied => sysPipe p page copied
  | .exec path reads answer => sysExec sb p (argstr path) reads answer
  | .fork q copied => fork p q copied
  | .exit => exit p
  | .evict b => evict b

-- A process that has a current directory may call.
def Calls (sb : Superblock) (p : Nat) (s : Sys) (m : Prog Sys Label Unit) : Prop :=
  (s.proc p).cwd ≠ none ∧ ∃ call, m = syscall sb p call >>= fun _ => pure ()

-- A disk image.
structure Image where
  dinode : Nat → Dinode
  bitmap : Nat → Bool
  data : Nat → Block

-- The entry of the inode table that userinit() takes for the current directory
-- of the init process.
def rootSlot : Slot := ⟨0, by decide⟩

-- The state after userinit().
def boot (img : Image) : Sys where
  dinode := img.dinode
  bitmap := img.bitmap
  data := img.data
  home := img.data
  inode := fun i =>
    { Dinode.zero with
      dev := if i = rootSlot then ROOTDEV else 0
      inum := if i = rootSlot then ROOTINO else 0
      ref := if i = rootSlot then 1 else 0
      lock := none
      valid := false }
  file := fun _ => ⟨.none, 0, false, false, 0, rootSlot, 0, 0⟩
  pipe := fun _ => none
  proc := fun p => ⟨p == 0, none, if p = 0 then some rootSlot else none, fun _ => none⟩
  refs := [(.proc 0, rootSlot)]

end Xv6.Fs
