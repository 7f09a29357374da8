import Xv6.Fs
import Xv6.Fork

namespace Xv6.Exec

open Lib Fork

-- kernel/param.h
def MAXARG : Nat := 32
def USERSTACK : Nat := 2

-- kernel/elf.h, with the fields that exec() reads
def ELF_MAGIC : Nat := 0x464C457F
def ELF_PROG_LOAD : Nat := 1
def ELFHDR : Nat := 64
def PROGHDR : Nat := 56

structure Elfhdr where
  magic : Nat
  entry : Nat
  phoff : Nat
  phnum : Nat
  deriving DecidableEq

structure Proghdr where
  type : Nat
  flags : Nat
  off : Nat
  vaddr : Nat
  filesz : Nat
  memsz : Nat
  deriving DecidableEq

-- The little-endian number in the w bytes from off on.
def field (bs : List UInt8) (off w : Nat) : Nat := leWord (fun r => bs.getD (off + r) 0) w

def Elfhdr.decode (bs : List UInt8) : Elfhdr where
  magic := field bs 0 4
  entry := field bs 24 8
  phoff := field bs 32 8
  phnum := field bs 56 2

def Proghdr.decode (bs : List UInt8) : Proghdr where
  type := field bs 0 4
  flags := field bs 4 4
  off := field bs 8 8
  vaddr := field bs 16 8
  filesz := field bs 32 8
  memsz := field bs 40 8

-- What an inode holds. It has no holes.
structure File where
  bytes : List UInt8
  size_le : bytes.length ≤ MAXFILE * BSIZE

def File.size (file : File) : Nat := file.bytes.length

-- bmap() of a file without holes, where the block is not needed any further.
def bmap (bn : Nat) : MemM Unit :=
  if bn < MAXFILE then return else throw .bmap

def readiLoop (file : File) : List UInt8 → List (Nat × Nat) → MemM (List UInt8)
  | got, [] => return got
  | got, (off, m) :: rest => do
      bmap (off / BSIZE)
      readiLoop file (got ++ (file.bytes.drop off).take m) rest

-- readi() into the kernel. The answer is what it copies.
def readi (file : File) (off n : Nat) : MemM (List UInt8) :=
  if file.size < off ∨ uint (off + n) < off then
    return []
  else
    let n := if file.size < off + n then file.size - off else n
    readiLoop file [] (Fs.chunks n off n)

def flags2perm (flags : Nat) : Nat :=
  (if flags &&& 0x1 ≠ 0 then PTE_X else 0) ||| (if flags &&& 0x2 ≠ 0 then PTE_W else 0)

-- The fuel is more than the rounds of the loop.
def loadsegLoop (pagetable va : Nat) (file : File) (offset sz : Nat) : Nat → Nat → MemM Int
  | 0, _ => throw .fuel
  | fuel + 1, i =>
    if i < sz then do
      let pa ← walkaddr pagetable (u64 (va + i))
      if pa = 0 then
        throw .loadseg
      else do
        let n := if sz - i < PGSIZE then sz - i else PGSIZE
        let bs ← readi file (uint (offset + i)) n
        let m ← get
        set (m.setPage pa ((m.page pa).putBytes 0 bs))
        if bs.length ≠ n then
          return -1
        else
          loadsegLoop pagetable va file offset sz fuel (uint (i + PGSIZE))
    else
      return 0

def loadseg (pagetable va : Nat) (file : File) (offset sz : Nat) : MemM Int :=
  loadsegLoop pagetable va file offset sz (sz / PGSIZE + 2) 0

-- The loop over the program headers: whether it comes to its end, and sz then.
def loadSegments (pagetable : Nat) (file : File) : Nat → Nat → Nat → MemM (Bool × Nat)
  | 0, _, sz => return (true, sz)
  | n + 1, off, sz => do
      let bs ← readi file off PROGHDR
      if bs.length ≠ PROGHDR then
        return (false, sz)
      else
        let ph := Proghdr.decode bs
        if ph.type ≠ ELF_PROG_LOAD then
          loadSegments pagetable file n (uint (off + PROGHDR)) sz
        else if ph.memsz < ph.filesz then
          return (false, sz)
        else if u64 (ph.vaddr + ph.memsz) < ph.vaddr then
          return (false, sz)
        else if ph.vaddr % PGSIZE ≠ 0 then
          return (false, sz)
        else do
          let sz1 ← uvmalloc pagetable sz (u64 (ph.vaddr + ph.memsz)) (flags2perm ph.flags)
          if sz1 = 0 then
            return (false, sz)
          else do
            let r ← loadseg pagetable ph.vaddr file (uint ph.off) (uint ph.filesz)
            if r < 0 then
              return (false, sz1)
            else
              loadSegments pagetable file n (uint (off + PROGHDR)) sz1

def readElf (file : File) : MemM (Option Elfhdr) := do
  let bs ← readi file 0 ELFHDR
  if bs.length ≠ ELFHDR then
    return none
  else if (Elfhdr.decode bs).magic ≠ ELF_MAGIC then
    return none
  else
    return some (Elfhdr.decode bs)

-- The stack and its guard above sz. The answer is the new sz.
def allocStack (pagetable sz : Nat) : MemM (Option Nat) := do
  let sz1 ← uvmalloc pagetable sz (u64 (sz + (USERSTACK + 1) * PGSIZE)) PTE_W
  if sz1 = 0 then
    return none
  else do
    uvmclear pagetable (u64Int (sz1 - ((USERSTACK + 1) * PGSIZE : Nat)))
    return some sz1

-- sp below n more bytes
def push (sp n : Nat) : Nat := u64Int (sp - n) - u64Int (sp - n) % 16

-- The strings of argv, with ustack as far as it is filled.
def pushStrings (pagetable stackbase : Nat) :
    List (List UInt8) → Nat → List Nat → MemM (Option (Nat × List Nat))
  | [], sp, ustack => return some (sp, ustack)
  | s :: argv, sp, ustack =>
    if MAXARG ≤ ustack.length then
      return none
    else
      let sp := push sp (s.length + 1)
      if sp < stackbase then
        return none
      else do
        let r ← copyout pagetable sp (s ++ [0])
        if r < 0 then
          return none
        else
          pushStrings pagetable stackbase argv sp (ustack ++ [sp])

def words (ws : List Nat) : List UInt8 := ws.flatMap fun w => (List.range 8).map (leByte w)

-- argv on the stack below sz. The answer is sp.
def pushArgv (pagetable sz : Nat) (argv : List (List UInt8)) : MemM (Option Nat) := do
  let stackbase := u64Int (sz - (USERSTACK * PGSIZE : Nat))
  match ← pushStrings pagetable stackbase argv sz [] with
  | none => return none
  | some (sp, ustack) =>
    let sp := push sp ((ustack.length + 1) * 8)
    if sp < stackbase then
      return none
    else do
      let r ← copyout pagetable sp (words (ustack ++ [0]))
      if r < 0 then
        return none
      else
        return some sp

-- The part of path after its last slash.
def lastName : List UInt8 → List UInt8 → List UInt8
  | last, [] => last
  | last, c :: s => lastName (if c = 0x2f then s else last) s

-- A register of a trapframe, by its number.
def setReg (trapframe r v : Nat) : MemM Unit := do
  let m ← get
  set (m.store trapframe r v)

def EPC : Nat := 3
def SP : Nat := 6
def A1 : Nat := 15

-- The kernel, with log.outstanding and the locks on inodes that the process holds.
structure State where
  kernel : Kernel
  outstanding : Int
  locked : Fin NINODE → Bool

abbrev ExecM (α : Type) := Fallible State Panic α

def onKernel {α : Type} (x : KernelM α) : ExecM α :=
  Fallible.zoom State.kernel (fun k s => { s with kernel := k }) x

def onMem {α : Type} (x : MemM α) : ExecM α := onKernel (memory x)

def beginOp : ExecM Unit := do
  let s ← get
  set { s with outstanding := s.outstanding + 1 }

def endOp : ExecM Unit := do
  let s ← get
  set { s with outstanding := s.outstanding - 1 }

-- namei(), which takes a reference to what it has found
def namei (found : Option (Fin NINODE × File)) : ExecM (Option (Fin NINODE × File)) := do
  match found with
  | none => return none
  | some ip => do
      onKernel (idup ip.1)
      return some ip

def ilock (ip : Fin NINODE) : ExecM Unit := do
  let s ← get
  set { s with locked := Function.update s.locked ip true }

def iunlockput (ip : Fin NINODE) : ExecM Unit := do
  let s ← get
  set { s with
    locked := Function.update s.locked ip false
    kernel.inodeRef := Function.update s.kernel.inodeRef ip (s.kernel.inodeRef ip - 1) }

def freeTable (sz : Nat) : Option Nat → MemM Unit
  | none => return
  | some pagetable => procFreepagetable pagetable sz

def leave (ip : Fin NINODE) : ExecM Unit := do
  iunlockput ip
  endOp

def leaveIf : Option (Fin NINODE) → ExecM Unit
  | none => return
  | some ip => leave ip

-- the label bad
def bad (pagetable : Option Nat) (sz : Nat) (ip : Option (Fin NINODE)) : ExecM Unit := do
  onMem (freeTable sz pagetable)
  leaveIf ip

-- The program, once its page table is there.
def loadProgram (ip : Fin NINODE) (file : File) (elf : Elfhdr) (pagetable : Nat) :
    ExecM (Option (Nat × Nat × Nat)) := do
  let (done, sz) ← onMem (loadSegments pagetable file elf.phnum (uint elf.phoff) 0)
  if done = false then do
    bad (some pagetable) sz (some ip)
    return none
  else do
    leave ip
    let sz := PGROUNDUP sz
    match ← onMem (allocStack pagetable sz) with
    | none => do
        bad (some pagetable) sz none
        return none
    | some sz => return some (elf.entry, pagetable, sz)

-- exec() of process p as far as the arguments: the entry point, the page table and sz.
def buildImage (p : Idx) (found : Option (Fin NINODE × File)) :
    ExecM (Option (Nat × Nat × Nat)) := do
  beginOp
  match ← namei found with
  | none => do
      endOp
      return none
  | some (ip, file) => do
      ilock ip
      match ← onMem (readElf file) with
      | none => do
          bad none 0 (some ip)
          return none
      | some elf => do
          let s ← get
          match ← onMem (procPagetable (s.kernel.proc p).trapframe) with
          | none => do
              bad none 0 (some ip)
              return none
          | some pagetable => loadProgram ip file elf pagetable

def commit (p : Idx) (path : List UInt8) (entry pagetable sz sp : Nat) : KernelM Unit := do
  let k ← get
  memory (setReg (k.proc p).trapframe A1 sp)
  setProc p fun q =>
    { q with
      name := safestrcpy q.name fun i => (lastName path path).getD i 0
      pagetable := pagetable
      sz := sz }
  memory (setReg (k.proc p).trapframe EPC entry)
  memory (setReg (k.proc p).trapframe SP sp)
  memory (procFreepagetable (k.proc p).pagetable (k.proc p).sz)

-- exec() from the arguments on.
def finish (p : Idx) (path : List UInt8) (argv : List (List UInt8)) (entry pagetable sz : Nat) :
    ExecM Int := do
  match ← onMem (pushArgv pagetable sz argv) with
  | none => do
      bad (some pagetable) sz none
      return -1
  | some sp => do
      onKernel (commit p path entry pagetable sz sp)
      return argv.length

-- exec() of process p, where found is what namei() finds at its path.
def exec (p : Idx) (path : List UInt8) (found : Option (Fin NINODE × File))
    (argv : List (List UInt8)) : ExecM Int := do
  match ← buildImage p found with
  | none => return -1
  | some (entry, pagetable, sz) => finish p path argv entry pagetable sz

end Xv6.Exec
