import Xv6.Lib.Monitor

namespace Xv6

-- The fields of struct sleeplock that its spinlock protects.
structure SleepLock where
  locked : Bool
  pid : Int
  deriving DecidableEq

namespace SleepLock

open Lib.Monitor

def initsleeplock : SleepLock := ⟨false, 0⟩

inductive Choice where
  | acquiresleep
  | releasesleep
  | holdingsleep
  | next

inductive AcquirePc where
  | start
  | loop
  | sleep
  | take
  | done
  deriving DecidableEq

inductive ReleasePc where
  | start
  | set
  | wake
  | done
  deriving DecidableEq

-- holdingsleep() returns r.
inductive HoldingPc where
  | start
  | test
  | done (r : Bool)
  deriving DecidableEq

-- Where process me is, and whether it is between an acquiresleep() and a
-- releasesleep() of its own when it makes a call.
inductive Pc where
  | idle (me : Nat) (held : Bool)
  | acquiresleep (me : Nat) (held : Bool) (pc : AcquirePc)
  | releasesleep (me : Nat) (pc : ReleasePc)
  | holdingsleep (me : Nat) (held : Bool) (pc : HoldingPc)
  deriving DecidableEq

variable (pid : Nat → Int)

-- acquiresleep(lk)
def acquiresleep (me : Nat) (held : Bool) : AcquirePc → Instr SleepLock Pc Unit Choice
  | .start => .acquire (.acquiresleep me held .loop)
  | .loop => .act fun _ lk => some (lk, .acquiresleep me held (if lk.locked then .sleep else .take))
  | .sleep => .sleep () (.acquiresleep me held .loop)
  | .take => .act fun _ _ => some (⟨true, pid me⟩, .acquiresleep me held .done)
  | .done => .release (.idle me true)

-- releasesleep(lk)
def releasesleep (me : Nat) : ReleasePc → Instr SleepLock Pc Unit Choice
  | .start => .acquire (.releasesleep me .set)
  | .set => .act fun _ _ => some (⟨false, 0⟩, .releasesleep me .wake)
  | .wake => .wakeup () (.releasesleep me .done)
  | .done => .release (.idle me false)

-- holdingsleep(lk)
def holdingsleep (me : Nat) (held : Bool) : HoldingPc → Instr SleepLock Pc Unit Choice
  | .start => .acquire (.holdingsleep me held .test)
  | .test => .act fun _ lk =>
    some (lk, .holdingsleep me held (.done (lk.locked && decide (lk.pid = pid me))))
  | .done _ => .release (.idle me held)

-- releasesleep() is called by the holder only.
def code : Pc → Instr SleepLock Pc Unit Choice
  | .idle me held => .act fun a lk =>
    match a with
    | .acquiresleep => some (lk, .acquiresleep me held .start)
    | .releasesleep => if held then some (lk, .releasesleep me .start) else none
    | .holdingsleep => some (lk, .holdingsleep me held .start)
    | .next => none
  | .acquiresleep me held pc => acquiresleep pid me held pc
  | .releasesleep me pc => releasesleep me pc
  | .holdingsleep me held pc => holdingsleep pid me held pc

def start : Sys SleepLock Pc Unit where
  data := initsleeplock
  lock := none
  proc := fun p => .run (.idle p false)
  killed := fun _ => false

end SleepLock

end Xv6
