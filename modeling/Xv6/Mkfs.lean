import Xv6.Sysfile

namespace Xv6.Mkfs

open Fs

def NINODES : Nat := 200

def nbitmap : Nat := FSSIZE / BPB + 1

def ninodeblocks : Nat := NINODES / IPB + 1

def nmeta : Nat := 2 + LOGSIZE + ninodeblocks + nbitmap

def sb : Superblock where
  size := FSSIZE
  ninodes := NINODES
  bmapstart := 2 + LOGSIZE + ninodeblocks
  size_lt := by decide

-- The sectors of the image and the counters freeinode and freeblock. mkfs that
-- dies or fails an assert() is none.
structure Store where
  data : Nat → Block
  freeinode : Nat
  freeblock : Nat

-- The image file has FSSIZE sectors, and a read past its end comes short.
def rsect (sec : Nat) (m : Store) : Option Block :=
  if sec < FSSIZE then some (m.data sec) else none

def wsect (sec : Nat) (blk : Block) (m : Store) : Store :=
  { m with data := Function.update m.data sec blk }

-- din.addrs[k], which is a new block if there is none.
def addr (k : Fin (NDIRECT + 1)) (d : Dinode) (m : Store) : Dinode × Store :=
  if d.addrs k = 0 then
    ({ d with addrs := Function.update d.addrs k m.freeblock },
      { m with freeblock := m.freeblock + 1 })
  else (d, m)

-- Entry k of the indirect block b, which is a new block if there is none.
def entry (b k : Nat) (m : Store) : Option (Nat × Store) := do
  let indirect ← rsect b m
  if indirect.getUint k = 0 then
    let indirect := indirect.putUint k m.freeblock
    some (indirect.getUint k, { wsect b indirect m with freeblock := m.freeblock + 1 })
  else some (indirect.getUint k, m)

-- The x of iappend() for block fbn of the file.
def block (fbn : Nat) (d : Dinode) (m : Store) : Option (Nat × Dinode × Store) :=
  if h : fbn < NDIRECT then
    let r := addr ⟨fbn, Nat.lt_succ_of_lt h⟩ d m
    some (r.1.addrs ⟨fbn, Nat.lt_succ_of_lt h⟩, r)
  else do
    let r := addr indirect d m
    let e ← entry (r.1.addrs indirect) (fbn - NDIRECT) r.2
    some (e.1, r.1, e.2)

-- The rounds of the loop of iappend(), of which each one stays in one block.
def iappendLoop (d : Dinode) : List UInt8 → List (Nat × Nat) → Store → Option (Dinode × Store)
  | _, [], m => some (d, m)
  | bs, (off, n) :: rest, m =>
    if off / BSIZE < MAXFILE then do
      let r ← block (off / BSIZE) d m
      let buf ← rsect r.1 r.2.2
      iappendLoop r.2.1 (bs.drop n) rest
        (wsect r.1 (buf.splice (off % BSIZE) (bs.take n)) r.2.2)
    else none

-- A file of the host: its path, and what the calls of read() return before the
-- one that returns 0.
structure HostFile where
  path : List UInt8
  reads : List (List UInt8)
  nul : 0 ∉ path
  size : ∀ bs ∈ reads, 0 < bs.length ∧ bs.length ≤ BSIZE

def HostFile.contents (f : HostFile) : List UInt8 := f.reads.flatten

-- "user/"
def USER : List UInt8 := [117, 115, 101, 114, 47]

def UNDERSCORE : UInt8 := 95

-- The path without "user/".
def HostFile.base (f : HostFile) : List UInt8 :=
  if f.path.take USER.length = USER then f.path.drop USER.length else f.path

-- The short name skips a leading underscore.
def HostFile.name (f : HostFile) : List UInt8 :=
  if f.base.head? = some UNDERSCORE then f.base.drop 1 else f.base

-- The image with the inode blocks read as the inodes that they hold.
structure Mk extends Store where
  dinode : Nat → Dinode

def empty : Mk := ⟨⟨fun _ => Block.zero, 1, nmeta⟩, fun _ => Dinode.zero⟩

def winode (inum : Nat) (d : Dinode) (m : Mk) : Mk :=
  { m with dinode := Function.update m.dinode inum d }

def ialloc (type : InodeType) (m : Mk) : Mk :=
  { winode m.freeinode { Dinode.zero with type := type, nlink := 1 } m with
    freeinode := m.freeinode + 1 }

def iappend (inum : Nat) (bs : List UInt8) (m : Mk) : Option Mk :=
  let d := m.dinode inum
  (iappendLoop d bs (chunks bs.length d.size bs.length) m.toStore).map fun r =>
    winode inum { r.1 with size := d.size + bs.length } { m with toStore := r.2 }

-- The loop of main() over the calls of read().
def copy (inum : Nat) : List (List UInt8) → Mk → Option Mk
  | [], m => some m
  | bs :: rest, m => do
      let m ← iappend inum bs m
      copy inum rest m

def addFile (f : HostFile) (m : Mk) : Option Mk :=
  if SLASH ∉ f.base ∧ f.name.length ≤ DIRSIZ then do
    let inum := m.freeinode
    let m ← iappend ROOTINO (Dirent.encode ⟨inum, f.name⟩) (ialloc .file m)
    copy inum f.reads m
  else none

def addFiles : List HostFile → Mk → Option Mk
  | [], m => some m
  | f :: rest, m => do
      let m ← addFile f m
      addFiles rest m

-- The size of the root directory is rounded up.
def fixRoot (m : Mk) : Mk :=
  winode ROOTINO
    { m.dinode ROOTINO with size := ((m.dinode ROOTINO).size / BSIZE + 1) * BSIZE } m

-- balloc() marks the blocks below freeblock.
def Mk.image (m : Mk) : Image := ⟨m.dinode, fun b => decide (b < m.freeblock), m.data⟩

def build (files : List HostFile) : Option Mk := do
  let m ← iappend ROOTINO (Dirent.encode ⟨ROOTINO, DOT⟩) (ialloc .dir empty)
  let m ← iappend ROOTINO (Dirent.encode ⟨ROOTINO, DOTDOT⟩) m
  let m ← addFiles files m
  if m.freeblock < BPB then some (fixRoot m) else none

def main (files : List HostFile) : Option Image := (build files).map Mk.image

end Xv6.Mkfs
