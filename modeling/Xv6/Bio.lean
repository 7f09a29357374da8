import Xv6.Log
import Mathlib.Logic.Function.Basic

namespace Xv6.Bio

open Lib

abbrev Idx := Fin NBUF

-- struct buf. The holder is the process that has b->lock.
structure Buf where
  valid : Bool
  dev : Nat
  blockno : Nat
  refcnt : Int
  data : Block
  holder : Option Nat

-- What a process is doing with a buffer inside bread() or brelse(): it counts
-- in refcnt without holding the lock, or it holds the lock and is to read the
-- block if it is not valid.
inductive Access where
  | none
  | ref (i : Idx)
  | load (i : Idx)
  deriving DecidableEq

-- The buffer cache, the disk and the log. The list lru runs from
-- bcache.head.next to bcache.head.prev. The last fields are kept for the proofs
-- only: the blocks as their users see them, the buffers changed since they were
-- last logged or written, where each process is in bread() or brelse(), the
-- blocks logged and not yet installed, and the process in commit().
structure Sys where
  buf : Idx → Buf
  lru : List Idx
  disk : Nat → Block
  log : Log.State
  flat : Nat → Block
  dirty : Idx → Bool
  pending : Nat → Access
  pinned : Nat → Bool
  committer : Option Nat

inductive Label where
  | bget (dev b : Nat)
  | acquiresleep
  | virtioRead
  | bread (b : Nat) (i : Idx)
  | modify
  | bwrite
  | releasesleep
  | brelse
  | bunpin (i : Idx)
  | beginOp
  | logWrite (i : Idx)
  | endOp
  | commit
  deriving DecidableEq

namespace Sys

def setBuf (s : Sys) (i : Idx) (f : Buf → Buf) : Sys :=
  { s with buf := Function.update s.buf i (f (s.buf i)) }

def setPending (s : Sys) (p : Nat) (x : Access) : Sys :=
  { s with pending := Function.update s.pending p x }

def setDirty (s : Sys) (i : Idx) (dirty : Bool) : Sys :=
  { s with dirty := Function.update s.dirty i dirty }

def setPinned (s : Sys) (b : Nat) (pinned : Bool) : Sys :=
  { s with pinned := Function.update s.pinned b pinned }

-- The loops of bget(): a buffer that has the block, and else the least
-- recently used one that nobody uses.
def cached (s : Sys) (dev b : Nat) : Option Idx :=
  s.lru.find? fun i => decide ((s.buf i).dev = dev ∧ (s.buf i).blockno = b)

def victim (s : Sys) : Option Idx := s.lru.reverse.find? fun i => decide ((s.buf i).refcnt = 0)

-- bget() of a block that buffer i has.
def hit (s : Sys) (p : Nat) (i : Idx) : Sys :=
  (s.setBuf i fun bf => { bf with refcnt := bf.refcnt + 1 }).setPending p (.ref i)

-- bget() of a block that no buffer has, in buffer i.
def recycle (s : Sys) (p dev b : Nat) (i : Idx) : Sys :=
  (s.setBuf i fun bf =>
    { bf with dev := dev, blockno := b, valid := false, refcnt := 1 }).setPending p (.ref i)

def lock (s : Sys) (p : Nat) (i : Idx) : Sys :=
  (s.setBuf i fun bf => { bf with holder := some p }).setPending p (.load i)

-- virtio_disk_rw(b, 0) of a buffer that is not valid.
def fill (s : Sys) (p : Nat) (i : Idx) : Sys :=
  (if (s.buf i).valid then s
    else s.setBuf i fun bf => { bf with data := s.disk bf.blockno, valid := true }).setPending p
      .none

-- virtio_disk_rw(b, 1)
def flush (s : Sys) (i : Idx) : Sys :=
  { s with disk := Function.update s.disk (s.buf i).blockno (s.buf i).data }.setDirty i false

def unlock (s : Sys) (p : Nat) (i : Idx) : Sys :=
  (s.setBuf i fun bf => { bf with holder := none }).setPending p (.ref i)

def decref (s : Sys) (i : Idx) : Sys := s.setBuf i fun bf => { bf with refcnt := bf.refcnt - 1 }

-- A buffer that nobody uses any more goes to the head of the list.
def release (s : Sys) (p : Nat) (i : Idx) : Sys :=
  let t := (s.decref i).setPending p .none
  if (t.buf i).refcnt = 0 then { t with lru := i :: t.lru.erase i } else t

def unpin (s : Sys) (i : Idx) : Sys := (s.decref i).setPinned (s.buf i).blockno false

-- bpin()
def pin (s : Sys) (i : Idx) : Sys :=
  (s.setBuf i fun bf => { bf with refcnt := bf.refcnt + 1 }).setPinned (s.buf i).blockno true

-- Users see what was last logged.
def logged (s : Sys) (i : Idx) : Sys :=
  { s with flat := Function.update s.flat (s.buf i).blockno (s.buf i).data }.setDirty i false

def setData (s : Sys) (i : Idx) (data : Block) : Sys := s.setBuf i fun bf => { bf with data := data }

end Sys

def bget (p dev b : Nat) : Prog Sys Label Idx :=
  .atomic (.bget dev b) fun s =>
    match s.cached dev b with
    | some i => (s.hit p i, .ok i)
    | none =>
      match s.victim with
      | some i => (s.recycle p dev b i, .ok i)
      | none => (s, .error "bget: no buffers")

def acquiresleep (p : Nat) (i : Idx) : Prog Sys Label Unit :=
  .act .acquiresleep (fun s => if (s.buf i).holder = none then some (s.lock p i) else none)
    fun _ => .ret ()

def bread (p dev b : Nat) : Prog Sys Label Idx := do
  let i ← bget p dev b
  acquiresleep p i
  .modify .virtioRead fun s => s.fill p i
  .look (.bread b i) fun _ => i

def bwrite (p : Nat) (i : Idx) : Prog Sys Label Unit :=
  .atomic .bwrite fun s =>
    if (s.buf i).holder = some p then (s.flush i, .ok ()) else (s, .error "bwrite")

def brelse (p : Nat) (i : Idx) : Prog Sys Label Unit := do
  .atomic .releasesleep fun s =>
    if (s.buf i).holder = some p then (s.unlock p i, .ok ()) else (s, .error "brelse")
  .modify .brelse fun s => s.release p i

def bunpin (i : Idx) : Prog Sys Label Unit := .modify (.bunpin i) fun s => s.unpin i

-- A change of the data of a buffer, to be logged or written before brelse().
def change (i : Idx) (f : Sys → Block) : Prog Sys Label Unit :=
  .modify .modify fun s => (s.setData i (f s)).setDirty i true

-- memmove(dbuf->data, lbuf->data, BSIZE) in install_trans(), which puts back
-- what the cache has.
def restore (dbuf lbuf : Idx) : Prog Sys Label Unit :=
  .modify .modify fun s => s.setData dbuf (s.buf lbuf).data

def writeLog (p : Nat) (dev : Log.Dev) (tail : Nat) : List Nat → Prog Sys Label Unit
  | [] => pure ()
  | b :: rest => do
      let dst ← bread p ROOTDEV (dev.start + tail + 1)
      let src ← bread p ROOTDEV b
      change dst fun s => (s.buf src).data
      bwrite p dst
      brelse p src
      brelse p dst
      writeLog p dev (tail + 1) rest

def installTrans (p : Nat) (dev : Log.Dev) (tail : Nat) : List Nat → Prog Sys Label Unit
  | [] => pure ()
  | b :: rest => do
      let lbuf ← bread p ROOTDEV (dev.start + tail + 1)
      let dbuf ← bread p ROOTDEV b
      restore dbuf lbuf
      bwrite p dbuf
      bunpin dbuf
      brelse p lbuf
      brelse p dbuf
      installTrans p dev (tail + 1) rest

def writeHead (p : Nat) (dev : Log.Dev) : Prog Sys Label Unit := do
  let buf ← bread p ROOTDEV dev.start
  change buf fun s => Log.putHead (s.buf buf).data s.log.lh
  bwrite p buf
  brelse p buf

def clearHead : Prog Sys Label Unit :=
  .modify .commit fun s => { s with log := { s.log with lh := [] } }

-- Nobody but commit() itself changes log.lh while it runs.
def commit (p : Nat) (dev : Log.Dev) : Prog Sys Label Unit := do
  let lh ← .look .commit fun s => s.log.lh
  if 0 < lh.length then do
    writeLog p dev 0 lh
    writeHead p dev
    installTrans p dev 0 lh
    clearHead
    writeHead p dev

def beginOp : Prog Sys Label Unit :=
  .act .beginOp
    (fun s =>
      if s.log.admits then
        some { s with log := { s.log with outstanding := s.log.outstanding + 1 } }
      else none)
    fun _ => .ret ()

-- A block that is new to the log is pinned.
def logWrite (dev : Log.Dev) (i : Idx) : Prog Sys Label Unit :=
  .atomic (.logWrite i) fun s =>
    match s.log.logWrite dev (s.buf i).blockno with
    | .error msg => (s, .error msg)
    | .ok st =>
      ({ if (s.buf i).blockno ∈ s.log.lh then s else s.pin i with log := st }.logged i, .ok ())

def endOp (p : Nat) (dev : Log.Dev) : Prog Sys Label Unit := do
  let doCommit ← .atomic .endOp fun s =>
    match s.log.endOp with
    | .error msg => (s, .error msg)
    | .ok (st, doCommit) =>
      ({ s with log := st, committer := if doCommit then some p else s.committer }, .ok doCommit)
  if doCommit then do
    commit p dev
    .modify .commit fun s =>
      { s with log := { s.log with committing := false }, committer := none }

-- What a user of the cache may call: it changes, logs and releases only what
-- it holds, changes no block of the log, and logs a buffer that it has changed
-- before it releases it.
inductive Calls (dev : Log.Dev) (p : Nat) (s : Sys) : Prog Sys Label Unit → Prop
  | bread (b : Nat) : Calls dev p s (bread p ROOTDEV b >>= fun _ => pure ())
  | change (i : Idx) (f : Block → Block) (hi : (s.buf i).holder = some p)
      (hb : ¬ dev.area (s.buf i).blockno) :
      Calls dev p s (change i fun s => f (s.buf i).data)
  | logWrite (i : Idx) (hi : (s.buf i).holder = some p) (hb : ¬ dev.area (s.buf i).blockno) :
      Calls dev p s (logWrite dev i)
  | brelse (i : Idx) (hi : (s.buf i).holder = some p) (hd : s.dirty i = false) :
      Calls dev p s (brelse p i)
  | beginOp : Calls dev p s beginOp
  | endOp : Calls dev p s (endOp p dev)

-- The blocks as users see them after an action, and the blocks that are logged
-- and not yet installed.
def flatAfter (dev : Log.Dev) (flat : Nat → Block) : Label × Sys → Nat → Block
  | (.logWrite i, s) =>
    match s.log.logWrite dev (s.buf i).blockno with
    | .ok _ => Function.update flat (s.buf i).blockno (s.buf i).data
    | .error _ => flat
  | _ => flat

def pinnedAfter (dev : Log.Dev) (pinned : Nat → Bool) : Label × Sys → Nat → Bool
  | (.logWrite i, s) =>
    match s.log.logWrite dev (s.buf i).blockno with
    | .ok _ => Function.update pinned (s.buf i).blockno true
    | .error _ => pinned
  | (.bunpin i, s) => Function.update pinned (s.buf i).blockno false
  | _ => pinned

-- What log_write() last logged for block b.
def lastLogged (dev : Log.Dev) (hist : List (Label × Sys)) (b : Nat) : Option Block :=
  hist.foldl (fun last e =>
    match e with
    | (.logWrite i, s) =>
      if (s.buf i).blockno = b ∧ (s.log.logWrite dev b).isOk then some (s.buf i).data else last
    | _ => last) none

-- The blocks that log_write() has logged and install_trans() has not unpinned.
def uninstalled (dev : Log.Dev) (hist : List (Label × Sys)) : Nat → Bool :=
  hist.foldl (pinnedAfter dev) fun _ => false

-- The state after boot: an empty log, and buffers that agree with the disk.
structure Fresh (s : Sys) : Prop where
  listed : ∀ i, i ∈ s.lru
  free : ∀ i, (s.buf i).refcnt = 0 ∧ (s.buf i).holder = none
  unique : ∀ i j, (s.buf i).dev = ROOTDEV → (s.buf j).dev = ROOTDEV →
    (s.buf i).blockno = (s.buf j).blockno → i = j
  data : ∀ i, (s.buf i).dev = ROOTDEV → (s.buf i).valid = true →
    (s.buf i).data = s.disk (s.buf i).blockno
  log : s.log = ⟨0, false, []⟩
  flat : s.flat = s.disk
  dirty : ∀ i, s.dirty i = false
  pending : ∀ p, s.pending p = .none
  pinned : ∀ b, s.pinned b = false
  committer : s.committer = none

end Xv6.Bio
