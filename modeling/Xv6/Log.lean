import Xv6.Block
import Xv6.Lib.Resumption

namespace Xv6.Log

open Xv6.Lib

abbrev Disk := Nat → Block

-- log.start and log.size
structure Dev where
  start : Nat
  size : Nat

def Dev.area (dev : Dev) (b : Nat) : Prop :=
  dev.start ≤ b ∧ b < dev.start + dev.size

instance (dev : Dev) (b : Nat) : Decidable (dev.area b) := inferInstanceAs (Decidable (_ ∧ _))

-- struct logheader as it lies in its block. The field n is a signed int.
def headN (hb : Block) : Int := Int.bmod (hb.getUint 0) (2 ^ 32)

def getHead (hb : Block) : List Nat :=
  (List.range (headN hb).toNat).map fun i => hb.getUint (i + 1)

def putBlocks (hb : Block) (i : Nat) : List Nat → Block
  | [] => hb
  | b :: rest => putBlocks (hb.putUint (i + 1) b) (i + 1) rest

def putHead (hb : Block) (lh : List Nat) : Block :=
  putBlocks (hb.putUint 0 lh.length) 0 lh

-- The disk and the buffers that hold newer data than the disk.
structure Store where
  disk : Disk
  cached : Nat → Option Block

namespace Store

def bread (s : Store) (b : Nat) : Block := (s.cached b).getD (s.disk b)

def write (s : Store) (b : Nat) (data : Block) : Store where
  disk := Function.update s.disk b data
  cached := Function.update s.cached b none

-- After a crash only the disk is left.
def boot (disk : Disk) : Store := ⟨disk, fun _ => none⟩

-- The store when commit() starts: each block of the transaction sits
-- modified and pinned in the buffer cache.
def logged (disk : Disk) (lh : List Nat) (new : Nat → Block) : Store :=
  ⟨disk, fun b => if b ∈ lh then some (new b) else none⟩

end Store

-- A write is one block and atomic, so a crash falls between two writes.
inductive Io where
  | read
  | write (b : Nat)
  deriving DecidableEq

def bwrite (b : Nat) (data : Store → Block) : Prog Store Io Unit :=
  .modify (.write b) fun s => s.write b (data s)

def writeLog (dev : Dev) (tail : Nat) : List Nat → Prog Store Io Unit
  | [] => pure ()
  | b :: rest => do
      bwrite (dev.start + tail + 1) fun s => s.bread b
      writeLog dev (tail + 1) rest

def installTrans (dev : Dev) (tail : Nat) : List Nat → Prog Store Io Unit
  | [] => pure ()
  | b :: rest => do
      bwrite b fun s => s.bread (dev.start + tail + 1)
      installTrans dev (tail + 1) rest

def readHead (dev : Dev) : Prog Store Io (List Nat) :=
  .look .read fun s => getHead (s.bread dev.start)

def writeHead (dev : Dev) (lh : List Nat) : Prog Store Io Unit :=
  bwrite dev.start fun s => putHead (s.bread dev.start) lh

def recoverFromLog (dev : Dev) : Prog Store Io Unit := do
  let lh ← readHead dev
  installTrans dev 0 lh
  writeHead dev []

def commit (dev : Dev) (lh : List Nat) : Prog Store Io Unit :=
  if 0 < lh.length then do
    writeLog dev 0 lh
    writeHead dev lh
    installTrans dev 0 lh
    writeHead dev []
  else
    pure ()

-- The fields of struct log that log.lock protects.
structure State where
  outstanding : Int
  committing : Bool
  lh : List Nat

-- begin_op() goes on only when this holds, and else sleeps.
def State.admits (s : State) : Bool :=
  !s.committing && (s.lh.length : Int) + (s.outstanding + 1) * MAXOPBLOCKS ≤ LOGSIZE

-- The critical section of log_write(). A block that the transaction already
-- has is absorbed.
def State.logWrite (dev : Dev) (s : State) (b : Nat) : Except String State :=
  if LOGSIZE ≤ s.lh.length ∨ (dev.size : Int) - 1 ≤ s.lh.length then
    .error "too big a transaction"
  else if s.outstanding < 1 then
    .error "log_write outside of trans"
  else if b ∈ s.lh then
    .ok s
  else
    .ok { s with lh := s.lh ++ [b] }

-- The first critical section of end_op(), with its do_commit.
def State.endOp (s : State) : Except String (State × Bool) :=
  if s.committing then
    .error "log.committing"
  else if s.outstanding - 1 = 0 then
    .ok ({ s with outstanding := s.outstanding - 1, committing := true }, true)
  else
    .ok ({ s with outstanding := s.outstanding - 1 }, false)

end Xv6.Log
