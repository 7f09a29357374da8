import Xv6.Block
import Xv6.Lib.Resumption
import Mathlib.Algebra.Order.Ring.Int
import Mathlib.Logic.Function.Basic

namespace Xv6

-- The short and uint types of the source.
def short (x : Int) : Int := Int.bmod x (2 ^ 16)

def uint (x : Int) : Nat := (x % 2 ^ 32).toNat

namespace Block

def slice (b : Block) (off n : Nat) : List UInt8 :=
  (List.range n).map fun j => b.byte (off + j)

def splice (b : Block) (off : Nat) (bs : List UInt8) : Block :=
  fun k => if off ≤ k.val then (bs[k.val - off]?).getD (b k) else b k

end Block

namespace Fs

open Lib

-- The type of an inode, where 0 says that the inode is free.
inductive InodeType where
  | free
  | dir
  | file
  | device
  deriving DecidableEq

structure Dinode where
  type : InodeType
  major : Int
  minor : Int
  nlink : Int
  size : Nat
  addrs : Fin (NDIRECT + 1) → Nat

def Dinode.zero : Dinode := ⟨.free, 0, 0, 0, 0, fun _ => 0⟩

-- addrs[NDIRECT], the address of the indirect block.
def indirect : Fin (NDIRECT + 1) := Fin.last NDIRECT

-- A name is a C string, that is, its bytes before the NUL.
structure Dirent where
  inum : Nat
  name : List UInt8
  deriving DecidableEq

def Dirent.zero : Dirent := ⟨0, []⟩

def DIRENT : Nat := 2 + DIRSIZ

-- struct dirent in its 16 bytes: the inum is a ushort, and strncpy() pads the
-- name with NULs.
def Dirent.encode (de : Dirent) : List UInt8 :=
  UInt8.ofNat de.inum :: UInt8.ofNat (de.inum / 2 ^ 8) ::
    (de.name ++ List.replicate DIRSIZ 0).take DIRSIZ

def Dirent.decode (bs : List UInt8) : Dirent where
  inum := (bs[0]?.getD 0).toNat + 2 ^ 8 * (bs[1]?.getD 0).toNat
  name := ((bs.drop 2).take DIRSIZ).takeWhile (· ≠ 0)

-- strncmp(s, t, DIRSIZ) == 0
def namecmp (s t : List UInt8) : Bool := s.take DIRSIZ == t.take DIRSIZ

-- The fields are of type uint.
structure Superblock where
  size : Nat
  ninodes : Nat
  bmapstart : Nat
  size_lt : size < 2 ^ 32

-- [ boot block | super block | log | inode blocks | free bit map | data blocks ]
def Superblock.nmeta (sb : Superblock) : Nat := sb.bmapstart + (sb.size / BPB + 1)

abbrev Slot := Fin NINODE
abbrev FileIdx := Fin NFILE
abbrev Fd := Fin NOFILE

-- struct inode. The lock is the sleep-lock, with the process that holds it.
structure Inode extends Dinode where
  dev : Nat
  inum : Nat
  ref : Int
  lock : Option Nat
  valid : Bool

inductive FileType where
  | none
  | pipe
  | inode
  | device
  deriving DecidableEq

-- The pipe of a file is the address of its page.
structure File where
  type : FileType
  ref : Int
  readable : Bool
  writable : Bool
  pipe : Nat
  ip : Slot
  off : Nat
  major : Int

-- The fields of struct pipe that say which of its ends are open.
structure PipeEnds where
  readopen : Bool
  writeopen : Bool
  deriving DecidableEq

-- The fields of struct proc that the file system uses, whether the slot is in
-- use, and the process that holds p->lock in fork().
structure Proc where
  used : Bool
  holder : Option Nat
  cwd : Option Slot
  ofile : Fd → Option FileIdx

-- Who holds a reference to an in-memory inode: a process, for its current
-- directory or inside a system call, or an open file.
inductive Owner where
  | proc (p : Nat)
  | file (f : FileIdx)
  deriving DecidableEq

-- The disk as the buffer cache gives it, with the inode blocks and the bitmap
-- read as what they hold, and the tables of the kernel. A block has its last
-- logged contents in home. It differs from data when a copy from user space
-- fails halfway, which changes the buffer and does not log it. The pages that
-- are allocated to a pipe hold its ends. The references are kept for the proofs
-- only.
structure Sys where
  dinode : Nat → Dinode
  bitmap : Nat → Bool
  data : Nat → Block
  home : Nat → Block
  inode : Slot → Inode
  file : FileIdx → File
  pipe : Nat → Option PipeEnds
  proc : Nat → Proc
  refs : List (Owner × Slot)

-- The actions between which processes interleave. A label says what a
-- statement about a run may ask of its action.
inductive Label where
  | beginOp
  | endOp
  | look
  | balloc (c : Nat)
  | bzero (b : Nat)
  | bfree (b : Nat)
  | bmap (i : Slot)
  | itrunc (i : Slot)
  | ialloc (inum : Nat)
  | iupdate (i : Slot)
  | iget (inum : Nat)
  | idup (i : Slot)
  | ilock (i : Slot)
  | load (i : Slot)
  | iunlock (i : Slot)
  | iput (i : Slot)
  | ifree (i : Slot)
  | readi (i : Slot) (off n : Nat)
  | writei (i : Slot) (off : Nat) (bs : List UInt8)
  | copyin (i : Slot)
  | size (i : Slot)
  | parent (i : Slot)
  | incLink (i : Slot)
  | setLink (i : Slot)
  | file
  | proc
  | evict (b : Nat)
  | seen (i : Slot) (type : InodeType)
  deriving DecidableEq

namespace Sys

def setInode (s : Sys) (i : Slot) (f : Inode → Inode) : Sys :=
  { s with inode := Function.update s.inode i (f (s.inode i)) }

theorem setInode_inode (s : Sys) (i j : Slot) (f : Inode → Inode) :
    (s.setInode i f).inode j = if j = i then f (s.inode i) else s.inode j := by
  simp [setInode, Function.update_apply]

@[simp] theorem setInode_self (s : Sys) (i : Slot) (f : Inode → Inode) :
    (s.setInode i f).inode i = f (s.inode i) := by
  simp [setInode]

theorem setInode_other (s : Sys) {i j : Slot} (f : Inode → Inode) (h : j ≠ i) :
    (s.setInode i f).inode j = s.inode j := by
  simp [setInode, h]

def setDinode (s : Sys) (inum : Nat) (d : Dinode) : Sys :=
  { s with dinode := Function.update s.dinode inum d }

def setBitmap (s : Sys) (b : Nat) (used : Bool) : Sys :=
  { s with bitmap := Function.update s.bitmap b used }

-- A change of block b that is logged, and one that is not.
def setBlock (s : Sys) (b : Nat) (blk : Block) : Sys :=
  { s with data := Function.update s.data b blk, home := Function.update s.home b blk }

def setData (s : Sys) (b : Nat) (blk : Block) : Sys :=
  { s with data := Function.update s.data b blk }

def setFile (s : Sys) (f : FileIdx) (g : File → File) : Sys :=
  { s with file := Function.update s.file f (g (s.file f)) }

def setPipe (s : Sys) (pa : Nat) (e : Option PipeEnds) : Sys :=
  { s with pipe := Function.update s.pipe pa e }

def setProc (s : Sys) (p : Nat) (g : Proc → Proc) : Sys :=
  { s with proc := Function.update s.proc p (g (s.proc p)) }

-- How many references to the in-memory inode i the owner holds.
def own (s : Sys) (o : Owner) (i : Slot) : Nat := s.refs.count (o, i)

-- The first free bit of the bitmap block that starts with block c.
def freeBit (s : Sys) (sb : Superblock) (c : Nat) : Option Nat :=
  (List.range' c (min BPB (sb.size - c))).find? fun b => !s.bitmap b

-- The loop of iget(): the entry of an inode, and else the first empty entry.
def cached (s : Sys) (dev inum : Nat) : Option Slot :=
  (List.finRange NINODE).find? fun i =>
    decide (0 < (s.inode i).ref ∧ (s.inode i).dev = dev ∧ (s.inode i).inum = inum)

def empty (s : Sys) : Option Slot :=
  (List.finRange NINODE).find? fun i => decide ((s.inode i).ref = 0)

-- ip->ref++ for process p
def hold (s : Sys) (p : Nat) (i : Slot) : Sys :=
  { s.setInode i fun ip => { ip with ref := ip.ref + 1 } with refs := (.proc p, i) :: s.refs }

def recycle (s : Sys) (p dev inum : Nat) (i : Slot) : Sys :=
  { s.setInode i fun ip => { ip with dev := dev, inum := inum, ref := 1, valid := false } with
    refs := (.proc p, i) :: s.refs }

-- ip->ref-- of a reference of process p
def drop (s : Sys) (p : Nat) (i : Slot) : Sys :=
  { s.setInode i fun ip => { ip with ref := ip.ref - 1 } with refs := s.refs.erase (.proc p, i) }

def acquire (s : Sys) (p : Nat) (i : Slot) : Sys :=
  s.setInode i fun ip => { ip with lock := some p }

def release (s : Sys) (i : Slot) : Sys := s.setInode i fun ip => { ip with lock := none }

-- ip->ref == 1 && ip->valid && ip->nlink == 0
def unused (s : Sys) (i : Slot) : Bool :=
  (s.inode i).ref == 1 && (s.inode i).valid && (s.inode i).nlink == 0

end Sys

def beginOp : Prog Sys Label Unit := .modify .beginOp id

def endOp : Prog Sys Label Unit := .modify .endOp id

variable (sb : Superblock) (p : Nat)

def bzero (b : Nat) : Prog Sys Label Unit := .modify (.bzero b) fun s => s.setBlock b Block.zero

def ballocLoop : List Nat → Prog Sys Label Nat
  | [] => pure 0
  | c :: rest => do
      let bit ← .atomic (.balloc c) fun s =>
        match s.freeBit sb c with
        | some b => (s.setBitmap b true, .ok (some b))
        | none => (s, .ok none)
      match bit with
      | some b => do
          bzero b
          pure b
      | none => ballocLoop rest

def balloc : Prog Sys Label Nat :=
  ballocLoop sb ((List.range ((sb.size + BPB - 1) / BPB)).map (· * BPB))

def bfree (b : Nat) : Prog Sys Label Unit :=
  .atomic (.bfree b) fun s =>
    if s.bitmap b then (s.setBitmap b false, .ok ()) else (s, .error "freeing free block")

def iget (dev inum : Nat) : Prog Sys Label Slot :=
  .atomic (.iget inum) fun s =>
    match s.cached dev inum with
    | some i => (s.hold p i, .ok i)
    | none =>
      match s.empty with
      | some i => (s.recycle p dev inum i, .ok i)
      | none => (s, .error "iget: no inodes")

def idup (i : Slot) : Prog Sys Label Slot := do
  .modify (.idup i) fun s => s.hold p i
  pure i

def iallocLoop (dev : Nat) (type : InodeType) : List Nat → Prog Sys Label (Option Slot)
  | [] => pure none
  | inum :: rest => do
      let found ← .atomic (.ialloc inum) fun s =>
        if (s.dinode inum).type = .free then
          (s.setDinode inum { Dinode.zero with type := type }, .ok true)
        else (s, .ok false)
      if found then do
        let i ← iget p dev inum
        pure (some i)
      else iallocLoop dev type rest

def ialloc (dev : Nat) (type : InodeType) : Prog Sys Label (Option Slot) :=
  iallocLoop p dev type (List.range' 1 (sb.ninodes - 1))

def iupdate (i : Slot) : Prog Sys Label Unit :=
  .modify (.iupdate i) fun s => s.setDinode (s.inode i).inum (s.inode i).toDinode

def ilock (i : Slot) : Prog Sys Label Unit := do
  .atomic .look fun s => (s, if (s.inode i).ref < 1 then .error "ilock" else .ok ())
  .act (.ilock i) (fun s => if (s.inode i).lock = none then some (s.acquire p i) else none)
    fun _ => .ret ()
  .atomic (.load i) fun s =>
    if (s.inode i).valid then (s, .ok ())
    else
      (s.setInode i fun ip => { ip with toDinode := s.dinode ip.inum, valid := true },
        if (s.dinode (s.inode i).inum).type = .free then .error "ilock: no type" else .ok ())

def iunlock (i : Slot) : Prog Sys Label Unit :=
  .atomic (.iunlock i) fun s =>
    if (s.inode i).lock = some p ∧ 1 ≤ (s.inode i).ref then (s.release i, .ok ())
    else (s, .error "iunlock")

def setAddr (i : Slot) (k : Fin (NDIRECT + 1)) (addr : Nat) (s : Sys) : Sys :=
  s.setInode i fun ip => { ip with addrs := Function.update ip.addrs k addr }

-- ip->addrs[k], where a block is allocated if there is none.
def bmapAddr (i : Slot) (k : Fin (NDIRECT + 1)) : Prog Sys Label Nat := do
  let addr ← .look .look fun s => (s.inode i).addrs k
  if addr = 0 then do
    let addr ← balloc sb
    if addr = 0 then pure 0
    else do
      .modify (.bmap i) (setAddr i k addr)
      pure addr
  else pure addr

-- The entry of an indirect block, where a block is allocated if there is none.
def bmapEntry (i : Slot) (b k : Nat) : Prog Sys Label Nat := do
  let addr ← .look .look fun s => (s.data b).getUint k
  if addr = 0 then do
    let addr ← balloc sb
    if addr = 0 then pure 0
    else do
      .modify (.bmap i) fun s => s.setBlock b ((s.data b).putUint k addr)
      pure addr
  else pure addr

def bmap (i : Slot) (bn : Nat) : Prog Sys Label Nat :=
  if h : bn < NDIRECT then bmapAddr sb i ⟨bn, Nat.lt_succ_of_lt h⟩
  else if bn - NDIRECT < NINDIRECT then do
    let b ← bmapAddr sb i indirect
    if b = 0 then pure 0 else bmapEntry sb i b (bn - NDIRECT)
  else .panic "bmap: out of range"

def itruncAddr (i : Slot) (k : Fin (NDIRECT + 1)) : Prog Sys Label Unit := do
  let addr ← .look .look fun s => (s.inode i).addrs k
  if addr = 0 then pure ()
  else do
    bfree addr
    .modify (.itrunc i) (setAddr i k 0)

def itruncDirect (i : Slot) : List (Fin (NDIRECT + 1)) → Prog Sys Label Unit
  | [] => pure ()
  | k :: rest => do
      itruncAddr i k
      itruncDirect i rest

def bfreeAll : List Nat → Prog Sys Label Unit
  | [] => pure ()
  | b :: rest => do
      bfree b
      bfreeAll rest

def entries (blk : Block) : List Nat :=
  ((List.range NINDIRECT).map blk.getUint).filter (· ≠ 0)

def itruncIndirect (i : Slot) : Prog Sys Label Unit := do
  let addr ← .look .look fun s => (s.inode i).addrs indirect
  if addr = 0 then pure ()
  else do
    let a ← .look .look fun s => entries (s.data addr)
    bfreeAll a
    bfree addr
    .modify (.itrunc i) (setAddr i indirect 0)

def itrunc (i : Slot) : Prog Sys Label Unit := do
  itruncDirect i ((List.finRange NDIRECT).map Fin.castSucc)
  itruncIndirect i
  .modify (.size i) fun s => s.setInode i fun ip => { ip with size := 0 }
  iupdate i

-- The branch of iput() that frees the inode.
def ifree (i : Slot) : Prog Sys Label Unit := do
  itrunc i
  .modify (.ifree i) fun s => s.setInode i fun ip => { ip with type := .free }
  iupdate i
  .modify (.ifree i) fun s => s.setInode i fun ip => { ip with valid := false, lock := none }
  .modify (.ifree i) fun s => s.drop p i

def iput (i : Slot) : Prog Sys Label Unit :=
  .act (.iput i)
    (fun s =>
      if s.unused i then
        if (s.inode i).lock = none then some (s.acquire p i) else none
      else some (s.drop p i))
    fun s => if s.unused i then ifree p i else .ret ()

def iunlockput (i : Slot) : Prog Sys Label Unit := do
  iunlock p i
  iput p i

-- The offsets and lengths of the rounds of the loops of readi() and writei().
-- A round stays in one block.
def chunks : Nat → Nat → Nat → List (Nat × Nat)
  | 0, _, _ => []
  | fuel + 1, off, n =>
    if n = 0 then []
    else
      (off, min n (BSIZE - off % BSIZE)) ::
        chunks fuel (off + min n (BSIZE - off % BSIZE)) (n - min n (BSIZE - off % BSIZE))

-- Whether a copy of m bytes to the destination succeeds, from byte tot on. A
-- copy inside the kernel does.
abbrev Dst := Nat → Nat → Bool

def kernelDst : Dst := fun _ _ => true

def readiLoop (i : Slot) (dst : Dst) :
    List UInt8 → List (Nat × Nat) → Prog Sys Label (Int × List UInt8)
  | got, [] => pure (got.length, got)
  | got, (off, m) :: rest => do
      let addr ← bmap sb i (off / BSIZE)
      if addr = 0 then pure (got.length, got)
      else do
        let bs ← .look .look fun s => (s.data addr).slice (off % BSIZE) m
        if dst got.length m then readiLoop i dst (got ++ bs) rest else pure (-1, got)

-- The answer is what readi() returns and the bytes that it copies.
def readi (i : Slot) (dst : Dst) (off n : Nat) : Prog Sys Label (Int × List UInt8) := do
  let size ← .look (.readi i off n) fun s => (s.inode i).size
  if size < off ∨ (off + n) % 2 ^ 32 < off then pure (0, [])
  else
    let n := if size < off + n then size - off else n
    readiLoop sb i dst [] (chunks n off n)

-- Where the bytes of writei() come from. A byte of user space may be unmapped.
inductive Src where
  | kernel (bs : List UInt8)
  | user (mem : Nat → Option UInt8)

-- either_copyin() of m bytes from byte tot on: the bytes before the first one
-- that is unmapped.
def Src.copyin : Src → Nat → Nat → List UInt8
  | .kernel bs, tot, m => (bs.drop tot).take m
  | .user mem, tot, m =>
    (((List.range m).map fun j => mem (tot + j)).takeWhile Option.isSome).filterMap id

def Src.label (i : Slot) (off : Nat) (bs : List UInt8) : Src → Label
  | .kernel _ => .writei i off bs
  | .user _ => .copyin i

-- The answer is tot, where the loop stops.
def writeiLoop (i : Slot) (src : Src) : Nat → List (Nat × Nat) → Prog Sys Label Nat
  | tot, [] => pure tot
  | tot, (off, m) :: rest => do
      let addr ← bmap sb i (off / BSIZE)
      if addr = 0 then pure tot
      else
        let bs := src.copyin tot m
        if bs.length = m then do
          .modify (src.label i off bs) fun s =>
            s.setBlock addr ((s.data addr).splice (off % BSIZE) bs)
          writeiLoop i src (tot + m) rest
        else do
          .modify (.copyin i) fun s => s.setData addr ((s.data addr).splice (off % BSIZE) bs)
          pure tot

def writei (i : Slot) (src : Src) (off n : Nat) : Prog Sys Label Int := do
  let size ← .look .look fun s => (s.inode i).size
  if size < off ∨ (off + n) % 2 ^ 32 < off then pure (-1)
  else if MAXFILE * BSIZE < off + n then pure (-1)
  else do
    let tot ← writeiLoop sb i src 0 (chunks n off n)
    .modify (.size i) fun s => s.setInode i fun ip => { ip with size := max ip.size (off + tot) }
    iupdate i
    pure tot

def readDirent (i : Slot) (off : Nat) (msg : String) : Prog Sys Label Dirent := do
  let r ← readi sb i kernelDst off DIRENT
  if r.1 = DIRENT then pure (Dirent.decode r.2) else .panic msg

-- off = 0, sizeof(de), .. below the size of the directory.
def offsets (size : Nat) : List Nat :=
  (List.range ((size + DIRENT - 1) / DIRENT)).map (· * DIRENT)

def dirlookupLoop (i : Slot) (name : List UInt8) :
    List Nat → Prog Sys Label (Option (Slot × Nat))
  | [] => pure none
  | off :: rest => do
      let de ← readDirent sb i off "dirlookup read"
      if de.inum = 0 then dirlookupLoop i name rest
      else if namecmp name de.name then do
        let dev ← .look .look fun s => (s.inode i).dev
        let j ← iget p dev de.inum
        pure (some (j, off))
      else dirlookupLoop i name rest

-- The answer is the inode of the entry and *poff.
def dirlookup (i : Slot) (name : List UInt8) : Prog Sys Label (Option (Slot × Nat)) := do
  let dp ← .look .look fun s => s.inode i
  if dp.type = .dir then dirlookupLoop sb p i name (offsets dp.size)
  else .panic "dirlookup not DIR"

-- The offset of the first empty entry, and else the end of the directory.
def dirlinkLoop (i : Slot) (size : Nat) : List Nat → Prog Sys Label Nat
  | [] => pure ((size + DIRENT - 1) / DIRENT * DIRENT)
  | off :: rest => do
      let de ← readDirent sb i off "dirlink read"
      if de.inum = 0 then pure off else dirlinkLoop i size rest

def dirlink (i : Slot) (name : List UInt8) (inum : Nat) : Prog Sys Label Int := do
  let found ← dirlookup sb p i name
  match found with
  | some (j, _) => do
      iput p j
      pure (-1)
  | none => do
      let size ← .look .look fun s => (s.inode i).size
      let off ← dirlinkLoop sb i size (offsets size)
      let r ← writei sb i (.kernel (Dirent.encode ⟨inum, name⟩)) off DIRENT
      pure (if r = DIRENT then 0 else -1)

def SLASH : UInt8 := 47

def DOT : List UInt8 := [46]

def DOTDOT : List UInt8 := [46, 46]

-- The next element of a path and what follows it.
def skipelem (path : List UInt8) : Option (List UInt8 × List UInt8) :=
  match path.dropWhile (· = SLASH) with
  | [] => none
  | c :: path =>
    some (((c :: path).takeWhile (· ≠ SLASH)).take DIRSIZ,
      ((c :: path).dropWhile (· ≠ SLASH)).dropWhile (· = SLASH))

-- The names that skipelem() yields, one after the other. Each one is at least
-- one byte of the path.
def elements : Nat → List UInt8 → List (List UInt8)
  | 0, _ => []
  | fuel + 1, path =>
    match skipelem path with
    | none => []
    | some (name, rest) => name :: elements fuel rest

def namexLoop (nameiparent : Bool) (i : Slot) :
    List (List UInt8) → Prog Sys Label (Option (Slot × List UInt8))
  | [] =>
    if nameiparent then do
      iput p i
      pure none
    else pure (some (i, []))
  | name :: rest => do
      ilock p i
      let type ← .look .look fun s => (s.inode i).type
      if type ≠ .dir then do
        iunlockput p i
        pure none
      else if nameiparent ∧ rest = [] then do
        -- Stop one level early.
        iunlock p i
        pure (some (i, name))
      else do
        let next ← dirlookup sb p i name
        iunlockput p i
        match next with
        | none => pure none
        | some (j, _) => namexLoop nameiparent j rest

def namexStart (path : List UInt8) : Prog Sys Label Slot :=
  if path.head? = some SLASH then iget p ROOTDEV ROOTINO
  else do
    let cwd ← .look .look fun s => (s.proc p).cwd
    match cwd with
    | some i => idup p i
    | none => .panic "kerneltrap"

def namex (nameiparent : Bool) (path : List UInt8) :
    Prog Sys Label (Option (Slot × List UInt8)) := do
  let i ← namexStart p path
  namexLoop sb p nameiparent i (elements path.length path)

def namei (path : List UInt8) : Prog Sys Label (Option Slot) := do
  let r ← namex sb p false path
  pure (r.map Prod.fst)

def nameiparent (path : List UInt8) : Prog Sys Label (Option (Slot × List UInt8)) :=
  namex sb p true path

end Fs

end Xv6
