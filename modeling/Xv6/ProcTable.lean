import Xv6.Param
import Xv6.Lib.Machine
import Xv6.Lib.Monitor

namespace Xv6.ProcTable

open Lib

inductive ProcState where
  | unused
  | used
  | sleeping
  | runnable
  | running
  | zombie
  deriving DecidableEq

-- The rest of the kernel as code that takes its own spinlocks, looks at
-- killed(), sleeps and wakes up, with the lock that each point is about. At the
-- points of free no spinlock is held. A call starts at idle and is over at done.
structure Services (σ L C K α : Type) where
  code : L → Monitor.Instr σ L C α
  lock : L → K
  free : L → Bool
  idle : L
  done : L → Bool

-- A kernel that has nothing else.
def bare : Services Unit Unit Unit Unit Unit where
  code := fun _ => .act fun _ _ => none
  lock := id
  free := fun _ => true
  idle := ()
  done := fun _ => true

-- What a process sleeps on: a process in wait(), and else what the rest of the
-- kernel chooses.
inductive Chan (C : Type) where
  | proc (p : Nat)
  | service (ch : C)
  deriving DecidableEq

inductive LockId (K : Type) where
  | wait
  | service (k : K)
  deriving DecidableEq

-- The fields of struct proc that proc.c itself works with. The process that is
-- in fork() for this one is kept for the proofs only.
structure Proc (C : Type) where
  state : ProcState
  chan : Option (Chan C)
  killed : Bool
  xstate : Int
  pid : Int
  parent : Option Nat
  maker : Option Nat

-- The points of the kernel code that a process runs. A point holds the locks
-- that the code before it has acquired. What a call returns to comes last.
inductive Pc (L C K : Type) where
  | forkret
  | user
  | sysret (r : Int)
  | forkAlloc (k : Nat)
  | forkParent (np : Nat) (pid : Int)
  | forkRun (np : Nat) (pid : Int)
  | exitLock (status : Int)
  | exitReparent (status : Int) (k : Nat)
  | exitSelf (status : Int)
  | exitZombie (status : Int)
  | exitSched
  | dead
  | waitLock (addr : Nat)
  | waitScan (addr : Nat) (havekids : Bool) (k : Nat)
  | waitKilled (addr : Nat)
  | waitReturn (r : Int)
  | kill (pid : Int) (k : Nat)
  | yieldLock (ret : Pc L C K)
  | yieldSched (ret : Pc L C K)
  | yieldUnlock (ret : Pc L C K)
  | sleepLock (ch : Chan C) (lk : LockId K) (ret : Pc L C K)
  | sleepSet (ch : Chan C) (lk : LockId K) (ret : Pc L C K)
  | sleepSched (lk : LockId K) (ret : Pc L C K)
  | sleepTidy (lk : LockId K) (ret : Pc L C K)
  | sleepRelock (lk : LockId K) (ret : Pc L C K)
  | wake (ch : Option (Chan C)) (k : Nat) (ret : Pc L C K)
  | service (l : L)
  deriving DecidableEq

-- The points of scheduler().
inductive SchedPc where
  | scan (k : Nat)
  | test (k : Nat)
  | start (k : Nat)
  | swtch (k : Nat)
  | back (k : Nat)
  | release (k : Nat)
  deriving DecidableEq

-- A CPU runs the scheduler or the kernel thread of a process.
inductive CpuPc (L C K : Type) where
  | sched (pc : SchedPc)
  | run (p : Nat) (pc : Pc L C K)
  deriving DecidableEq

inductive Event where
  | exited (k : Nat) (pid xstate : Int)
  | reaped (p k : Nat) (pid xstate : Int)
  deriving DecidableEq

-- The process table, where a process goes on when it is switched to, c->proc of
-- each CPU, the CPU that holds each p->lock, the process that holds wait_lock and
-- the other locks, and what the rest of the kernel works with. The exits and the
-- waits that returned a child are kept for the proofs only.
structure Kernel (σ L C K : Type) where
  proc : Nat → Proc C
  context : Nat → Pc L C K
  cpu : Nat → Option Nat
  plock : Nat → Option Nat
  lock : LockId K → Option Nat
  data : σ
  nextpid : Int
  log : List Event

-- What a CPU meets from outside: the calls of user space, a timer interrupt,
-- whether memory can be allocated and copied, and the choices of the services.
inductive Choice (α : Type) where
  | go
  | fork
  | exit (status : Int)
  | wait (addr : Nat)
  | kill (pid : Int)
  | call
  | timer
  | memory (ok : Bool)
  | service (a : α)

-- userinit() takes the first slot.
def initproc : Nat := 0

variable {σ L C K α : Type}

-- freeproc(), of which the memory is left out.
def Proc.free : Proc C := ⟨.unused, none, false, 0, 0, none, none⟩

-- Whether no spinlock is held. The timer interrupts the kernel only there.
def Pc.unlocked (S : Services σ L C K α) : Pc L C K → Bool
  | user | sysret _ | forkAlloc _ | forkParent _ _ | forkRun _ _ | exitLock _ | waitLock _
  | kill _ _ | sleepRelock _ _ => true
  | wake _ _ ret => ret.unlocked S
  | service l => S.free l
  | _ => false

namespace Kernel

def setProc (d : Kernel σ L C K) (k : Nat) (f : Proc C → Proc C) : Kernel σ L C K :=
  { d with proc := Function.update d.proc k (f (d.proc k)) }

def setPlock (d : Kernel σ L C K) (k : Nat) (holder : Option Nat) : Kernel σ L C K :=
  { d with plock := Function.update d.plock k holder }

def setCpu (d : Kernel σ L C K) (c : Nat) (p : Option Nat) : Kernel σ L C K :=
  { d with cpu := Function.update d.cpu c p }

def setContext (d : Kernel σ L C K) (k : Nat) (pc : Pc L C K) : Kernel σ L C K :=
  { d with context := Function.update d.context k pc }

def setLock [DecidableEq K] (d : Kernel σ L C K) (lk : LockId K) (holder : Option Nat) :
    Kernel σ L C K :=
  { d with lock := Function.update d.lock lk holder }

def record (d : Kernel σ L C K) (e : Event) : Kernel σ L C K := { d with log := d.log ++ [e] }

-- A critical section of p->lock of slot k, from acquire() to release().
def locked {β : Type} (d : Kernel σ L C K) (k : Nat) (r : β) : Option β :=
  if d.plock k = none then some r else none

def acquireProc {β : Type} (d : Kernel σ L C K) (c k : Nat) (next : β) :
    Option (Kernel σ L C K × β) :=
  d.locked k (d.setPlock k (some c), next)

variable [DecidableEq K]

def acquire {β : Type} (d : Kernel σ L C K) (p : Nat) (lk : LockId K) (next : β) :
    Option (Kernel σ L C K × β) :=
  if d.lock lk = none then some (d.setLock lk (some p), next) else none

-- The call that a process makes from user space. usertrap() calls exit(-1) for a
-- process that is killed, which is one of the calls here.
def user (S : Services σ L C K α) (d : Kernel σ L C K) (p : Nat) :
    Choice α → Option (Kernel σ L C K × Pc L C K)
  | .fork => some (d, .forkAlloc 0)
  | .exit status => if p = initproc then none else some (d, .exitLock status)
  | .wait addr => some (d, .waitLock addr)
  | .kill pid => some (d, .kill pid 0)
  | .call => some (d, .service S.idle)
  | _ => none

-- One turn of the loop of allocproc(), and fork() up to release(&np->lock).
def forkAlloc (d : Kernel σ L C K) (p k : Nat) (a : Choice α) :
    Option (Kernel σ L C K × Pc L C K) :=
  if k < NPROC then
    d.locked k <|
      if (d.proc k).state = .unused then
        match a with
        | .memory false =>
          ({ d.setProc k fun _ => .free with nextpid := Int.bmod (d.nextpid + 1) 0x100000000 },
            .sysret (-1))
        | _ =>
          ({ (d.setProc k fun np =>
              { np with pid := d.nextpid, state := .used, maker := some p }).setContext k .forkret
              with nextpid := Int.bmod (d.nextpid + 1) 0x100000000 },
            .forkParent k d.nextpid)
      else (d, .forkAlloc (k + 1))
  else some (d, .sysret (-1))

def forkParent (d : Kernel σ L C K) (p np : Nat) (pid : Int) :
    Option (Kernel σ L C K × Pc L C K) :=
  if d.lock .wait = none then
    some (d.setProc np fun pr => { pr with parent := some p }, .forkRun np pid)
  else none

def forkRun (d : Kernel σ L C K) (np : Nat) (pid : Int) : Option (Kernel σ L C K × Pc L C K) :=
  d.locked np (d.setProc np fun pr => { pr with state := .runnable, maker := none }, .sysret pid)

-- One turn of the loop of reparent(), and after it wakeup(p->parent).
def exitReparent (d : Kernel σ L C K) (p : Nat) (status : Int) (k : Nat) :
    Kernel σ L C K × Pc L C K :=
  if k < NPROC then
    if (d.proc k).parent = some p then
      (d.setProc k fun pp => { pp with parent := some initproc },
        .wake (some (.proc initproc)) 0 (.exitReparent status (k + 1)))
    else (d, .exitReparent status (k + 1))
  else (d, .wake ((d.proc p).parent.map .proc) 0 (.exitSelf status))

def exitZombie (d : Kernel σ L C K) (p : Nat) (status : Int) : Kernel σ L C K :=
  ((d.setProc p fun pr => { pr with xstate := status, state := .zombie }).setLock .wait none).record
    (.exited p (d.proc p).pid status)

-- One turn of the loop of wait() over the table. A child is freed unless its
-- status cannot be copied out.
def waitScan (d : Kernel σ L C K) (p addr : Nat) (havekids : Bool) (k : Nat) (a : Choice α) :
    Option (Kernel σ L C K × Pc L C K) :=
  if k < NPROC then
    if (d.proc k).parent = some p then
      d.locked k <|
        if (d.proc k).state = .zombie then
          match a with
          | .memory false =>
            if addr = 0 then
              ((d.setProc k fun _ => .free).record
                  (.reaped p k (d.proc k).pid (d.proc k).xstate),
                .waitReturn (d.proc k).pid)
            else (d, .waitReturn (-1))
          | _ =>
            ((d.setProc k fun _ => .free).record (.reaped p k (d.proc k).pid (d.proc k).xstate),
              .waitReturn (d.proc k).pid)
        else (d, .waitScan addr true (k + 1))
    else some (d, .waitScan addr havekids (k + 1))
  else some (d, if havekids then .waitKilled addr else .waitReturn (-1))

def waitKilled (d : Kernel σ L C K) (p addr : Nat) : Option (Kernel σ L C K × Pc L C K) :=
  d.locked p (d, if (d.proc p).killed then .waitReturn (-1)
    else .sleepLock (.proc p) .wait (.waitScan addr false 0))

-- One turn of the loop of kill().
def kill (d : Kernel σ L C K) (pid : Int) (k : Nat) : Option (Kernel σ L C K × Pc L C K) :=
  if k < NPROC then
    d.locked k <|
      if (d.proc k).pid = pid then
        (d.setProc k fun pr =>
          { pr with
            killed := true
            state := if pr.state = .sleeping then .runnable else pr.state }, .sysret 0)
      else (d, .kill pid (k + 1))
  else some (d, .sysret (-1))

-- What sleep() does between acquire(&p->lock) and sched().
def sleepSet (d : Kernel σ L C K) (p : Nat) (ch : Chan C) (lk : LockId K) : Kernel σ L C K :=
  (d.setProc p fun pr => { pr with chan := some ch, state := .sleeping }).setLock lk none

-- One turn of the loop of wakeup(), for a CPU with c->proc as given.
def wake [DecidableEq C] (d : Kernel σ L C K) (c : Nat) (ch : Option (Chan C)) (k : Nat)
    (ret : Pc L C K) : Option (Kernel σ L C K × Pc L C K) :=
  if k < NPROC then
    if d.cpu c = some k then some (d, .wake ch (k + 1) ret)
    else
      d.locked k
        (if (d.proc k).state = .sleeping ∧ (d.proc k).chan = ch then
          d.setProc k fun pr => { pr with state := .runnable }
        else d, .wake ch (k + 1) ret)
  else some (d, ret)

def service (S : Services σ L C K α) (d : Kernel σ L C K) (p : Nat) (l : L) (a : Choice α) :
    Option (Kernel σ L C K × Pc L C K) :=
  if S.done l then some (d, .user)
  else
    match S.code l with
    | .acquire next => d.acquire p (.service (S.lock l)) (.service next)
    | .release next => some (d.setLock (.service (S.lock l)) none, .service next)
    | .act f =>
      match a with
      | .service a => (f a d.data).map fun r => ({ d with data := r.1 }, .service r.2)
      | _ => none
    | .killed yes no => d.locked p (d, .service (if (d.proc p).killed then yes else no))
    | .sleep ch next => some (d, .sleepLock (.service ch) (.service (S.lock l)) (.service next))
    | .wakeup ch next => some (d, .wake (some (.service ch)) 0 (.service next))

-- swtch() from a process to the scheduler of its CPU, which sched() does when
-- the state is not RUNNING.
def sched (d : Kernel σ L C K) (p : Nat) (saved : Pc L C K) :
    Option (Kernel σ L C K × CpuPc L C K) :=
  if (d.proc p).state = .running then none else some (d.setContext p saved, .sched (.back p))

end Kernel

variable [DecidableEq C] [DecidableEq K]

-- A step of process p, which runs on CPU c.
def procStep (S : Services σ L C K α) (c p : Nat) (a : Choice α) (d : Kernel σ L C K) :
    Pc L C K → Option (Kernel σ L C K × Pc L C K)
  | .forkret => some (d.setPlock p none, .user)
  | .user => d.user S p a
  | .sysret _ => some (d, .user)
  | .forkAlloc k => d.forkAlloc p k a
  | .forkParent np pid => d.forkParent p np pid
  | .forkRun np pid => d.forkRun np pid
  | .exitLock status => d.acquire p .wait (.exitReparent status 0)
  | .exitReparent status k => some (d.exitReparent p status k)
  | .exitSelf status => d.acquireProc c p (.exitZombie status)
  | .exitZombie status => some (d.exitZombie p status, .exitSched)
  | .waitLock addr => d.acquire p .wait (.waitScan addr false 0)
  | .waitScan addr havekids k => d.waitScan p addr havekids k a
  | .waitKilled addr => d.waitKilled p addr
  | .waitReturn r => some (d.setLock .wait none, .sysret r)
  | .kill pid k => d.kill pid k
  | .yieldLock ret =>
    d.locked p ((d.setPlock p (some c)).setProc p fun pr => { pr with state := .runnable },
      .yieldSched ret)
  | .yieldUnlock ret => some (d.setPlock p none, ret)
  | .sleepLock ch lk ret => d.acquireProc c p (.sleepSet ch lk ret)
  | .sleepSet ch lk ret => some (d.sleepSet p ch lk, .sleepSched lk ret)
  | .sleepTidy lk ret =>
    some ((d.setProc p fun pr => { pr with chan := none }).setPlock p none, .sleepRelock lk ret)
  | .sleepRelock lk ret => d.acquire p lk ret
  | .wake ch k ret => d.wake c ch k ret
  | .service l => d.service S p l a
  | .exitSched | .yieldSched _ | .sleepSched _ _ | .dead => none

-- Where a process goes on after sched().
def Pc.saved : Pc L C K → Option (Pc L C K)
  | exitSched => some dead
  | yieldSched ret => some (yieldUnlock ret)
  | sleepSched lk ret => some (sleepTidy lk ret)
  | _ => none

-- A step of the scheduler of CPU c.
def schedStep (c : Nat) (d : Kernel σ L C K) :
    SchedPc → Option (Kernel σ L C K × CpuPc L C K)
  | .scan k =>
    if k < NPROC then d.acquireProc c k (.sched (.test k)) else some (d, .sched (.scan 0))
  | .test k =>
    some <|
      if (d.proc k).state = .runnable then
        (d.setProc k fun pr => { pr with state := .running }, .sched (.start k))
      else (d.setPlock k none, .sched (.scan (k + 1)))
  | .start k => some (d.setCpu c (some k), .sched (.swtch k))
  | .swtch k => some (d, .run k (d.context k))
  | .back k => some (d.setCpu c none, .sched (.release k))
  | .release k => some (d.setPlock k none, .sched (.scan (k + 1)))

def step (S : Services σ L C K α) : Machine.Step (Kernel σ L C K) (CpuPc L C K) (Choice α)
  | c, .sched pc, _, d => schedStep c d pc
  | _, .run p pc, .timer, d =>
    if pc.unlocked S then some (d, .run p (.yieldLock pc)) else none
  | c, .run p pc, a, d =>
    match pc.saved with
    | some saved => d.sched p saved
    | none => (procStep S c p a d pc).map fun r => (r.1, .run p r.2)

-- The table after userinit(), with every CPU at the start of scheduler().
def boot (data : σ) : Machine (Kernel σ L C K) (CpuPc L C K) where
  data :=
    { proc := fun k =>
        if k = initproc then { Proc.free with state := .runnable, pid := 1 } else .free
      context := fun _ => .forkret
      cpu := fun _ => none
      plock := fun _ => none
      lock := fun _ => none
      data := data
      nextpid := 2
      log := [] }
  pc := fun _ => .sched (.scan 0)

-- The steps of CPU 0 until the first process is in user space, and those of a
-- fork() there up to where the child becomes RUNNABLE.
def startInit : List (Nat × Choice α) := List.replicate 5 (0, .go)

def forkCall : List (Nat × Choice α) := [(0, .fork), (0, .go), (0, .memory true), (0, .go)]

end Xv6.ProcTable
