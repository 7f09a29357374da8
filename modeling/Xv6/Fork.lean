import Xv6.ProcTable
import Xv6.Vm.Proc

namespace Xv6.Fork

open Lib

abbrev Idx := Fin NPROC

structure Context where
  ra : Nat
  sp : Nat
  s : Fin 12 → Nat

-- struct proc, without its lock. A chan, a page table and a trapframe of 0 are none.
@[ext]
structure Proc where
  state : ProcTable.ProcState
  chan : Nat
  killed : Int
  xstate : Int
  pid : Int
  parent : Option Idx
  kstack : Nat
  sz : Nat
  pagetable : Nat
  trapframe : Nat
  context : Context
  ofile : Fin NOFILE → Option (Fin NFILE)
  cwd : Option (Fin NINODE)
  name : Fin 16 → UInt8

-- The memory, proc[], nextpid, and the reference counts of ftable and itable.
structure Kernel where
  mem : Mem
  proc : Idx → Proc
  nextpid : Int
  fileRef : Fin NFILE → Int
  inodeRef : Fin NINODE → Int

abbrev KernelM (α : Type) := Fallible Kernel Panic α

def setProc (i : Idx) (f : Proc → Proc) : KernelM Unit := do
  let k ← get
  set { k with proc := Function.update k.proc i (f (k.proc i)) }

def memory {α : Type} (x : MemM α) : KernelM α :=
  Fallible.zoom Kernel.mem (fun m k => { k with mem := m }) x

def allocpid : KernelM Int := do
  let k ← get
  set { k with nextpid := Int.bmod (k.nextpid + 1) 0x100000000 }
  return k.nextpid

def Proc.clear (p : Proc) : Proc :=
  { p with
    pagetable := 0, sz := 0, pid := 0, parent := none, name := Function.update p.name 0 0
    chan := 0, killed := 0, xstate := 0, state := .unused }

def freeproc (i : Idx) : KernelM Unit := do
  let k ← get
  memory (if (k.proc i).trapframe ≠ 0 then kfree (k.proc i).trapframe else pure ())
  setProc i fun p => { p with trapframe := 0 }
  memory (if (k.proc i).pagetable ≠ 0 then
    procFreepagetable (k.proc i).pagetable (k.proc i).sz else pure ())
  setProc i Proc.clear

-- allocproc() from the label found on. The address of forkret() is given.
def allocprocFound (forkret : Nat) (i : Idx) : KernelM (Option Idx) := do
  let pid ← allocpid
  setProc i fun p => { p with pid := pid, state := .used }
  match ← memory kalloc with
  | none => do
      setProc i fun p => { p with trapframe := 0 }
      freeproc i
      return none
  | some tf => do
      setProc i fun p => { p with trapframe := tf }
      match ← memory (procPagetable tf) with
      | none => do
          setProc i fun p => { p with pagetable := 0 }
          freeproc i
          return none
      | some pagetable => do
          setProc i fun p =>
            { p with
              pagetable := pagetable
              context := ⟨forkret, u64 (p.kstack + PGSIZE), fun _ => 0⟩ }
          return some i

def allocproc (forkret : Nat) : KernelM (Option Idx) := do
  let k ← get
  match (List.finRange NPROC).find? fun i => decide ((k.proc i).state = .unused) with
  | none => return none
  | some i => allocprocFound forkret i

def filedup (f : Fin NFILE) : KernelM Unit := do
  let k ← get
  if k.fileRef f < 1 then throw .filedup
  else set { k with fileRef := Function.update k.fileRef f (k.fileRef f + 1) }

def idup (i : Fin NINODE) : KernelM Unit := do
  let k ← get
  set { k with inodeRef := Function.update k.inodeRef i (k.inodeRef i + 1) }

def dupFiles (p np : Idx) : List (Fin NOFILE) → KernelM Unit
  | [] => return
  | fd :: rest => do
      let k ← get
      match (k.proc p).ofile fd with
      | none => pure ()
      | some f => do
          filedup f
          setProc np fun q => { q with ofile := Function.update q.ofile fd (some f) }
      dupFiles p np rest

-- safestrcpy(s, t, n): the bytes of t before its NUL, at most n - 1 of them, and a NUL.
def safestrcpy {n : Nat} (s t : Fin n → UInt8) : Fin n → UInt8 :=
  let len := min (n - 1) (((List.finRange n).takeWhile fun i => t i ≠ 0).length)
  fun i => if i.val < len then t i else if i.val = len then 0 else s i

-- struct trapframe has 36 registers of 8 bytes, and a0 is at 112.
def copyTrapframe (src dst : Nat) : MemM Unit := do
  let m ← get
  set (m.setPage dst (((m.page dst).putBytes 0 ((m.page src).getBytes 0 288)).putWord 14 0))

-- fork() after uvmcopy().
def forkChild (p np : Idx) : KernelM Int := do
  let k ← get
  setProc np fun q => { q with sz := (k.proc p).sz }
  memory (copyTrapframe (k.proc p).trapframe (k.proc np).trapframe)
  dupFiles p np (List.finRange NOFILE)
  match (k.proc p).cwd with
  | none => throw .kerneltrap
  | some i => do
      idup i
      setProc np fun q => { q with cwd := some i }
      setProc np fun q =>
        { q with name := safestrcpy q.name (k.proc p).name, parent := some p, state := .runnable }
      return (k.proc np).pid

-- fork() of process p
def fork (forkret : Nat) (p : Idx) : KernelM Int := do
  match ← allocproc forkret with
  | none => return -1
  | some np => do
      let k ← get
      let r ← memory (uvmcopy (k.proc p).pagetable (k.proc np).pagetable (k.proc p).sz)
      if r < 0 then do
        freeproc np
        return -1
      else forkChild p np

end Xv6.Fork
