import Xv6.Balloc
import Xv6.Mkfs
import Xv6.Fs.Rw
import Xv6.Lib.Bytes

namespace Xv6

namespace Fs

open Lib

-- sizeof(struct dinode)
def DINODE : Nat := 64

def InodeType.toShort : InodeType → Nat
  | .free => 0
  | .dir => 1
  | .file => 2
  | .device => 3

-- There is no other type.
def InodeType.ofShort : Nat → InodeType
  | 0 => .free
  | 1 => .dir
  | 2 => .file
  | _ => .device

theorem InodeType.ofShort_toShort (t : InodeType) : ofShort t.toShort = t := by
  cases t <;> rfl

theorem Dinode.neZero_addrs : NeZero (NDIRECT + 1) := ⟨Nat.succ_ne_zero _⟩

-- Byte j of struct dinode. The host and RISC-V are little-endian.
def Dinode.byte (d : Dinode) (j : Nat) : UInt8 :=
  if j < 2 then leByte d.type.toShort j
  else if j < 4 then leByte (d.major % 65536).toNat (j - 2)
  else if j < 6 then leByte (d.minor % 65536).toNat (j - 4)
  else if j < 8 then leByte (d.nlink % 65536).toNat (j - 6)
  else if j < 12 then leByte d.size (j - 8)
  else leByte (d.addrs (@Fin.ofNat (NDIRECT + 1) Dinode.neZero_addrs ((j - 12) / 4))) (j % 4)

def Dinode.ofBytes (byte : Nat → UInt8) : Dinode where
  type := .ofShort (leWord byte 2)
  major := short (leWord (fun r => byte (2 + r)) 2)
  minor := short (leWord (fun r => byte (4 + r)) 2)
  nlink := short (leWord (fun r => byte (6 + r)) 2)
  size := leWord (fun r => byte (8 + r)) 4
  addrs := fun k => leWord (fun r => byte (12 + 4 * k + r)) 4

-- A dinode whose fields are of the types that they have in the source.
structure Dinode.Fits (d : Dinode) : Prop where
  major : short d.major = d.major
  minor : short d.minor = d.minor
  nlink : short d.nlink = d.nlink
  size : d.size < 2 ^ 32
  addrs : ∀ k, d.addrs k < 2 ^ 32

theorem Dinode.ofBytes_congr {f g : Nat → UInt8} (h : ∀ j, j < DINODE → f j = g j) :
    Dinode.ofBytes f = Dinode.ofBytes g := by
  have hword : ∀ o w, o + w ≤ DINODE → leWord (fun r => f (o + r)) w = leWord (fun r => g (o + r)) w :=
    fun o w how => leWord_congr fun r hr => h (o + r) (by omega)
  have hsize : DINODE = 64 := rfl
  have hzero : leWord f 2 = leWord g 2 := leWord_congr fun r hr => h r (by omega)
  unfold ofBytes
  rw [hzero, hword 2 2 (by omega), hword 4 2 (by omega), hword 6 2 (by omega), hword 8 4 (by omega)]
  congr 1
  funext k
  have hk : k.val < 13 := k.isLt
  exact hword (12 + 4 * k) 4 (by omega)

theorem short_of_word {x : Int} (h : short x = x) : short ((x % 65536).toNat % 256 ^ 2 : Nat) = x := by
  have hcast : (((x % 65536).toNat % 256 ^ 2 : Nat) : Int) = x % 65536 := by omega
  rw [hcast]
  exact (Int.emod_bmod (x := x) (n := 65536)).trans h

theorem Dinode.ofBytes_byte {d : Dinode} (h : d.Fits) : Dinode.ofBytes d.byte = d := by
  have hword : ∀ o w x, (∀ r, r < w → d.byte (o + r) = leByte x r) →
      leWord (fun r => d.byte (o + r)) w = x % 256 ^ w := fun o w x hx => leWord_eq hx
  have htype : leWord d.byte 2 = d.type.toShort % 256 ^ 2 :=
    leWord_eq fun r hr => by simp [byte, hr, leByte]
  have hmajor := hword 2 2 (d.major % 65536).toNat fun r hr => by
    simp only [byte, show ¬ 2 + r < 2 by omega, show 2 + r < 4 by omega, ite_true, ite_false,
      Nat.add_sub_cancel_left]
  have hminor := hword 4 2 (d.minor % 65536).toNat fun r hr => by
    simp only [byte, show ¬ 4 + r < 2 by omega, show ¬ 4 + r < 4 by omega, show 4 + r < 6 by omega,
      ite_true, ite_false, Nat.add_sub_cancel_left]
  have hnlink := hword 6 2 (d.nlink % 65536).toNat fun r hr => by
    simp only [byte, show ¬ 6 + r < 2 by omega, show ¬ 6 + r < 4 by omega,
      show ¬ 6 + r < 6 by omega, show 6 + r < 8 by omega, ite_true, ite_false,
      Nat.add_sub_cancel_left]
  have hsize := hword 8 4 d.size fun r hr => by
    simp only [byte, show ¬ 8 + r < 2 by omega, show ¬ 8 + r < 4 by omega,
      show ¬ 8 + r < 6 by omega, show ¬ 8 + r < 8 by omega, show 8 + r < 12 by omega, ite_true,
      ite_false, Nat.add_sub_cancel_left]
  have haddrs : ∀ k : Fin (NDIRECT + 1), leWord (fun r => d.byte (12 + 4 * k + r)) 4 =
      d.addrs k % 256 ^ 4 := fun k => hword (12 + 4 * k) 4 (d.addrs k) fun r hr => by
    have hk : k.val < 13 := k.isLt
    have hidx : Fin.ofNat (NDIRECT + 1) ((12 + 4 * k.val + r - 12) / 4) = k := by
      apply Fin.ext
      show (12 + 4 * k.val + r - 12) / 4 % 13 = k.val
      omega
    have hmod : (12 + 4 * k.val + r) % 4 = r := by omega
    simp only [byte, show ¬ 12 + 4 * k.val + r < 2 by omega, show ¬ 12 + 4 * k.val + r < 4 by omega,
      show ¬ 12 + 4 * k.val + r < 6 by omega, show ¬ 12 + 4 * k.val + r < 8 by omega,
      show ¬ 12 + 4 * k.val + r < 12 by omega, ite_false, hidx, hmod]
  have hshort : d.type.toShort % 256 ^ 2 = d.type.toShort := by
    cases d.type <;> rfl
  unfold ofBytes
  rw [htype, hmajor, hminor, hnlink, hsize, hshort, InodeType.ofShort_toShort,
    short_of_word h.major, short_of_word h.minor, short_of_word h.nlink,
    Nat.mod_eq_of_lt (show d.size < 256 ^ 4 from h.size)]
  congr 1
  funext k
  rw [haddrs k]
  exact Nat.mod_eq_of_lt (h.addrs k)

theorem Dinode.ofBytes_zero : Dinode.ofBytes (fun _ => 0) = Dinode.zero := by
  simp only [ofBytes, leWord_zero]
  rfl

end Fs

namespace Block

open Fs

-- Element k of the block read as an array of struct dinode.
def dinode (blk : Block) (k : Nat) : Dinode := .ofBytes fun j => blk.byte (k * DINODE + j)

def setDinode (blk : Block) (k : Nat) (d : Dinode) : Block :=
  blk.splice (k * DINODE) ((List.range DINODE).map d.byte)

theorem dinode_bound {k : Nat} (hk : k < IPB) : k * DINODE + DINODE ≤ BSIZE := by
  have hipb : IPB = 16 := by decide
  unfold DINODE BSIZE
  omega

theorem byte_setDinode {blk : Block} {k : Nat} (hk : k < IPB) (d : Dinode) (i : Nat) :
    (blk.setDinode k d).byte i =
      if k * DINODE ≤ i ∧ i < k * DINODE + DINODE then d.byte (i - k * DINODE) else blk.byte i := by
  have hlen : ((List.range DINODE).map d.byte).length = DINODE := by simp
  have hbound := dinode_bound hk
  rw [setDinode, byte_splice _ (by omega), hlen]
  by_cases hi : k * DINODE ≤ i ∧ i < k * DINODE + DINODE
  · rw [if_pos hi, if_pos hi]
    have hlt : i - k * DINODE < DINODE := by omega
    simp [hlt]
  · rw [if_neg hi, if_neg hi]

theorem dinode_setDinode {blk : Block} {k : Nat} (hk : k < IPB) {d : Dinode} (h : d.Fits) :
    (blk.setDinode k d).dinode k = d := by
  refine Eq.trans (Dinode.ofBytes_congr fun j hj => ?_) (Dinode.ofBytes_byte h)
  rw [byte_setDinode hk, if_pos (by omega), Nat.add_sub_cancel_left]

theorem dinode_setDinode_other {blk : Block} {k l : Nat} (hk : k < IPB) (hl : l ≠ k) (d : Dinode) :
    (blk.setDinode k d).dinode l = blk.dinode l := by
  refine Dinode.ofBytes_congr fun j hj => ?_
  rw [byte_setDinode hk, if_neg]
  rintro ⟨hlo, hhi⟩
  refine hl ?_
  unfold DINODE at *
  omega

end Block

namespace Mkfs

open Fs

def FSMAGIC : Nat := 0x10203040

-- struct superblock in sector 1.
def superblock : Block :=
  ((((((((Block.zero.putUint 0 FSMAGIC).putUint 1 FSSIZE).putUint 2 (FSSIZE - nmeta)).putUint 3
    NINODES).putUint 4 LOGSIZE).putUint 5 2).putUint 6 (2 + LOGSIZE)).putUint 7
    (2 + LOGSIZE + ninodeblocks))

def IBLOCK (i inodestart : Nat) : Nat := i / IPB + inodestart

def BBLOCK (b bmapstart : Nat) : Nat := b / BPB + bmapstart

-- What the kernel reads of the image: the superblock, the inodes and the bitmap.
def Store.superblock (m : Store) : Superblock where
  size := (m.data 1).getUint 1
  ninodes := (m.data 1).getUint 3
  bmapstart := (m.data 1).getUint 7
  size_lt := Block.getUint_lt _ _

def Store.inodestart (m : Store) : Nat := (m.data 1).getUint 6

def Store.image (m : Store) : Image where
  dinode := fun n => (m.data (IBLOCK n m.inodestart)).dinode (n % IPB)
  bitmap := fun b => Balloc.inUse (m.data (BBLOCK b m.superblock.bmapstart)) (b % BPB)
  data := m.data

namespace Sector

def inodestart : Nat := 2 + LOGSIZE

def rinode (inum : Nat) (m : Store) : Option Dinode := do
  let buf ← rsect (IBLOCK inum inodestart) m
  some (buf.dinode (inum % IPB))

def winode (inum : Nat) (d : Dinode) (m : Store) : Option Store := do
  let buf ← rsect (IBLOCK inum inodestart) m
  some (wsect (IBLOCK inum inodestart) (buf.setDinode (inum % IPB) d) m)

def ialloc (type : InodeType) (m : Store) : Option (Nat × Store) := do
  let inum := m.freeinode
  let m ← winode inum { Dinode.zero with type := type, nlink := 1 }
    { m with freeinode := m.freeinode + 1 }
  some (inum, m)

def iappend (inum : Nat) (bs : List UInt8) (m : Store) : Option Store := do
  let d ← rinode inum m
  let r ← iappendLoop d bs (chunks bs.length d.size bs.length) m
  winode inum { r.1 with size := d.size + bs.length } r.2

def copy (inum : Nat) : List (List UInt8) → Store → Option Store
  | [], m => some m
  | bs :: rest, m => do
      let m ← iappend inum bs m
      copy inum rest m

def addFile (f : HostFile) (m : Store) : Option Store :=
  if SLASH ∉ f.base ∧ f.name.length ≤ DIRSIZ then do
    let r ← ialloc .file m
    let m ← iappend ROOTINO (Dirent.encode ⟨r.1, f.name⟩) r.2
    copy r.1 f.reads m
  else none

def addFiles : List HostFile → Store → Option Store
  | [], m => some m
  | f :: rest, m => do
      let m ← addFile f m
      addFiles rest m

def fixRoot (m : Store) : Option Store := do
  let d ← rinode ROOTINO m
  winode ROOTINO { d with size := (d.size / BSIZE + 1) * BSIZE } m

-- buf[i/8] = buf[i/8] | (0x1 << (i%8)) for every i below used.
def marks : Nat → Block
  | 0 => Block.zero
  | i + 1 => Balloc.mark (marks i) i

theorem inUse_marks (used : Nat) {b : Nat} (hb : b < BPB) :
    Balloc.inUse (marks used) b = decide (b < used) := by
  induction used with
  | zero => simp [marks, Balloc.inUse, Block.byte, Block.zero]
  | succ i ih =>
    rw [marks, Balloc.inUse_mark hb, ih, ← Bool.decide_or]
    exact decide_eq_decide.mpr (by omega)

def balloc (used : Nat) (m : Store) : Option Store :=
  if used < BPB then some (wsect (2 + LOGSIZE + ninodeblocks) (marks used) m) else none

-- The image is cleared, and has the superblock in sector 1.
def start : Store := wsect 1 superblock ⟨fun _ => Block.zero, 1, nmeta⟩

def main (files : List HostFile) : Option Store := do
  let r ← ialloc .dir start
  if r.1 = ROOTINO then do
    let m ← iappend ROOTINO (Dirent.encode ⟨ROOTINO, DOT⟩) r.2
    let m ← iappend ROOTINO (Dirent.encode ⟨ROOTINO, DOTDOT⟩) m
    let m ← addFiles files m
    let m ← fixRoot m
    balloc m.freeblock m
  else none

end Sector

end Mkfs

end Xv6
