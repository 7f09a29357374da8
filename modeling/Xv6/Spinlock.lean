import Mathlib.Algebra.Order.Ring.Int
import Mathlib.Data.List.Infix
import Mathlib.Logic.Function.Basic
import Xv6.Lib.Resumption

namespace Xv6.Spinlock

open Lib

variable {ι : Type}

-- The C int that n wraps to.
def int32 (n : Int) : Int := n.bmod (2 ^ 32)

-- noff and intena of struct cpu, and whether interrupts are on.
structure Cpu where
  noff : Int
  intena : Bool
  intr : Bool
  deriving DecidableEq

-- locked and cpu of struct spinlock.
structure Lock where
  locked : Bool
  cpu : Option Nat
  deriving DecidableEq

structure State (ι : Type) where
  cpu : Cpu
  lock : ι → Lock

abbrev Code (ι α : Type) := Prog (State ι) Unit α

def intrGet : Code ι Bool := .look () fun s => s.cpu.intr

def intrSet (on : Bool) : Code ι Unit := .modify () fun s => { s with cpu.intr := on }

def Lock.holding (me : Nat) (k : Lock) : Bool := k.locked && k.cpu == some me

def holding (me : Nat) (l : ι) : Code ι Bool := .look () fun s => (s.lock l).holding me

def pushOff : Code ι Unit := do
  let old ← intrGet
  intrSet false
  let noff ← .look () fun s => s.cpu.noff
  if noff = 0 then .modify () fun s => { s with cpu.intena := old }
  .modify () fun s => { s with cpu.noff := int32 (s.cpu.noff + 1) }

def popOff : Code ι Unit := do
  if ← intrGet then .panic "pop_off - interruptible"
  if (← .look () fun s => s.cpu.noff) < 1 then .panic "pop_off"
  .modify () fun s => { s with cpu.noff := int32 (s.cpu.noff - 1) }
  let c ← .look () fun s => s.cpu
  if c.noff = 0 ∧ c.intena then intrSet true

variable [DecidableEq ι]

-- The loop with __sync_lock_test_and_set waits until the lock is free.
def testAndSet (l : ι) : Code ι Unit :=
  .act ()
    (fun s =>
      if (s.lock l).locked then none
      else some { s with lock := Function.update s.lock l { s.lock l with locked := true } })
    fun _ => .ret ()

def acquire (me : Nat) (l : ι) : Code ι Unit := do
  pushOff
  if ← holding me l then .panic "acquire"
  testAndSet l
  .modify () fun s => { s with lock := Function.update s.lock l { s.lock l with cpu := some me } }

def release (me : Nat) (l : ι) : Code ι Unit := do
  if !(← holding me l) then .panic "release"
  .modify () fun s => { s with lock := Function.update s.lock l { s.lock l with cpu := none } }
  .modify () fun s => { s with lock := Function.update s.lock l { s.lock l with locked := false } }
  popOff

inductive Op (ι : Type) where
  | acquire (l : ι)
  | release (l : ι)
  | pushOff
  | popOff
  deriving DecidableEq

def Op.code (me : Nat) : Op ι → Code ι Unit
  | acquire l => Spinlock.acquire me l
  | release l => Spinlock.release me l
  | pushOff => Spinlock.pushOff
  | popOff => Spinlock.popOff

-- What the other CPUs do to the locks: nothing to those that me holds, and they write
-- their own name only.
def Others (me : Nat) (s t : State ι) : Prop :=
  t.cpu = s.cpu ∧ ∀ l, ((s.lock l).holding me → t.lock l = s.lock l) ∧
    ((s.lock l).holding me = false → (s.lock l).cpu ≠ some me → (t.lock l).cpu ≠ some me)

-- The code has to wait in s, or is over.
def Waits (s : State ι) : Code ι Unit → Prop
  | .act _ upd _ => upd s = none
  | .panic _ => False
  | .ret _ => True

-- The points of a run of CPU me: the calls that it has made, what is left of the last
-- one, and the state. The other CPUs run between calls and while the code waits.
inductive Run (me : Nat) (start : State ι) : List (Op ι) → Code ι Unit → State ι → Prop
  | init : Run me start [] (.ret ()) start
  | call {ops : List (Op ι)} {s : State ι} (op : Op ι) (h : Run me start ops (.ret ()) s) :
      Run me start (ops ++ [op]) (op.code me) s
  | act {ops : List (Op ι)} {s t : State ι} {upd : State ι → Option (State ι)}
      {next : State ι → Code ι Unit} (h : Run me start ops (.act () upd next) s)
      (hu : upd s = some t) : Run me start ops (next s) t
  | other {ops : List (Op ι)} {s t : State ι} {p : Code ι Unit} (h : Run me start ops p s)
      (hw : Waits s p) (ho : Others me s t) : Run me start ops p t

-- How many pushes more than pops an operation makes.
def Op.weight : Op ι → Int
  | acquire _ | pushOff => 1
  | release _ | popOff => -1

-- The number of unmatched pushes.
def depth (ops : List (Op ι)) : Int := (ops.map Op.weight).sum

-- Each release follows its acquire, and no part of the calls from the first one on has
-- more pops than pushes.
structure Disciplined (ops : List (Op ι)) : Prop where
  depth : ∀ pre, pre <+: ops → 0 ≤ depth pre
  release : ∀ pre l, pre ++ [.release l] <+: ops → pre.count (.release l) < pre.count (.acquire l)

end Xv6.Spinlock
