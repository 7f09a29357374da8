import Xv6.Lib.Monitor
import Xv6.Lib.Ring

namespace Xv6

abbrev PIPESIZE : Nat := 512

structure Pipe extends Lib.Ring UInt8 PIPESIZE 32 where
  readopen : Bool
  writeopen : Bool

namespace Pipe

open Lib Lib.Monitor

-- struct pipe, with the bytes that pipewrite() has put so far and those that
-- the calls of piperead() return, both in the order of pi->lock.
structure Data where
  pi : Pipe
  accepted : List UInt8
  returned : List UInt8

inductive Chan where
  | nread
  | nwrite
  deriving DecidableEq

-- What a process meets from outside: the calls it makes, and whether the page
-- of the user buffer is there (with its byte, for copyin()).
inductive Choice where
  | write (n : Int)
  | read (n : Int)
  | close (writable : Bool)
  | copyin (ch : Option UInt8)
  | copyout (ok : Bool)
  | next
  deriving DecidableEq

-- The points of pipewrite(), piperead() and pipeclose(). first is i as it was
-- when pi->lock was last acquired, and out the bytes that piperead() has copied.
inductive Pc where
  | idle
  | write (n : Int)
  | writeLoop (n : Int) (i first : Nat)
  | writeKilled (n : Int) (i first : Nat)
  | writeFull (n : Int) (i first : Nat)
  | writeSignal (n : Int) (i : Nat)
  | writeSleep (n : Int) (i : Nat)
  | writeCopy (n : Int) (i first : Nat)
  | writeWake (i : Nat)
  | writeReturn (r : Int)
  | read (n : Int)
  | readLoop (n : Int)
  | readKilled (n : Int)
  | readSleep (n : Int)
  | readTest (n : Int) (out : List UInt8)
  | readCopy (n : Int) (out : List UInt8)
  | readWake (n : Int) (out : List UInt8)
  | readReturn (n : Int) (out : List UInt8)
  | readFail
  | close (writable : Bool)
  | closeSet (writable : Bool)
  | closeWake (writable : Bool)
  | closeTest
  | closeReturn (free : Bool)
  | closeFree
  deriving DecidableEq

namespace Data

def empty (d : Data) : Bool := decide (d.pi.nread = d.pi.nwrite)

def full (d : Data) : Bool := decide (d.pi.nwrite = d.pi.nread + BitVec.ofNat 32 PIPESIZE)

def put (d : Data) (ch : UInt8) : Data :=
  { d with pi := { d.pi with toRing := d.pi.toRing.put ch }, accepted := d.accepted ++ [ch] }

def drop (d : Data) : Data := { d with pi := { d.pi with toRing := d.pi.toRing.drop } }

def deliver (d : Data) (out : List UInt8) : Data := { d with returned := d.returned ++ out }

def shut (d : Data) (writable : Bool) : Data :=
  { d with pi := if writable then { d.pi with writeopen := false }
                 else { d.pi with readopen := false } }

end Data

-- pipewrite(pi, addr, n)
def pipewrite : Pc → Instr Data Pc Chan Choice
  | .write n => .acquire (.writeLoop n 0 0)
  | .writeLoop n i first => .act fun _ d =>
    some (d, if i < n then if d.pi.readopen then .writeKilled n i first else .writeReturn (-1)
      else .writeWake i)
  | .writeKilled n i first => .killed (.writeReturn (-1)) (.writeFull n i first)
  | .writeFull n i first => .act fun _ d =>
    some (d, if d.full then .writeSignal n i else .writeCopy n i first)
  | .writeSignal n i => .wakeup .nread (.writeSleep n i)
  | .writeSleep n i => .sleep .nwrite (.writeLoop n i i)
  | .writeCopy n i first => .act fun a d =>
    match a with
    | .copyin (some ch) => some (d.put ch, .writeLoop n (i + 1) first)
    | .copyin none => some (d, .writeWake i)
    | _ => none
  | .writeWake i => .wakeup .nread (.writeReturn i)
  | _ => .release .idle

-- piperead(pi, addr, n)
def piperead : Pc → Instr Data Pc Chan Choice
  | .read n => .acquire (.readLoop n)
  | .readLoop n => .act fun _ d =>
    some (d, if d.empty && d.pi.writeopen then .readKilled n else .readTest n [])
  | .readKilled n => .killed .readFail (.readSleep n)
  | .readSleep n => .sleep .nread (.readLoop n)
  | .readTest n out => .act fun _ d =>
    if out.length < n ∧ d.empty = false then some (d, .readCopy n out)
    else some (d.deliver out, .readWake n out)
  | .readCopy n out => .act fun a d =>
    match a with
    | .copyout true => some (d.drop, .readTest n (out ++ [d.pi.front]))
    | .copyout false => some (d.drop.deliver out, .readWake n out)
    | _ => none
  | .readWake n out => .wakeup .nwrite (.readReturn n out)
  | _ => .release .idle

-- pipeclose(pi, writable)
def pipeclose : Pc → Instr Data Pc Chan Choice
  | .close writable => .acquire (.closeSet writable)
  | .closeSet writable => .act fun _ d => some (d.shut writable, .closeWake writable)
  | .closeWake writable => .wakeup (if writable then .nread else .nwrite) .closeTest
  | .closeTest => .act fun _ d => some (d, .closeReturn (!d.pi.readopen && !d.pi.writeopen))
  | .closeReturn free => .release (if free then .closeFree else .idle)
  | _ => .act fun _ d => some (d, .idle)

def code : Pc → Instr Data Pc Chan Choice
  | .idle => .act fun a d =>
    match a with
    | .write n => some (d, .write n)
    | .read n => some (d, .read n)
    | .close writable => some (d, .close writable)
    | _ => none
  | pc@(.write _) | pc@(.writeLoop ..) | pc@(.writeKilled ..) | pc@(.writeFull ..)
  | pc@(.writeSignal ..) | pc@(.writeSleep ..) | pc@(.writeCopy ..) | pc@(.writeWake _)
  | pc@(.writeReturn _) => pipewrite pc
  | pc@(.read _) | pc@(.readLoop _) | pc@(.readKilled _) | pc@(.readSleep _) | pc@(.readTest ..)
  | pc@(.readCopy ..) | pc@(.readWake ..) | pc@(.readReturn ..) | pc@(.readFail) => piperead pc
  | pc => pipeclose pc

-- The pipe as pipealloc() leaves it, in a page of whatever bytes.
def start (data : Fin PIPESIZE → UInt8) : Sys Data Pc Chan where
  data := ⟨⟨⟨data, 0, 0⟩, true, true⟩, [], []⟩
  lock := none
  proc := fun _ => .run .idle
  killed := fun _ => false

end Pipe

end Xv6
