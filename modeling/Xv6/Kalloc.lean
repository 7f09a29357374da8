import Xv6.Riscv
import Xv6.Lib.Bytes
import Xv6.Lib.Pool
import Xv6.Lib.Wp
import Mathlib.Data.Finset.Card
import Mathlib.Data.Finset.Range

namespace Xv6

open Lib

-- The bytes of one page of physical memory.
abbrev Page := Fin PGSIZE → UInt8

namespace Page

def fill (c : UInt8) : Page := fun _ => c

-- Bytes past the end of the page read as 0. No caller asks for them.
def byte (p : Page) (i : Nat) : UInt8 :=
  if h : i < PGSIZE then p ⟨i, h⟩ else 0

-- The page read as an array of 64-bit words.
def word (p : Page) (k : Nat) : Nat :=
  leWord (fun r => p.byte (8 * k + r)) 8

def putWord (p : Page) (k v : Nat) : Page :=
  fun i => if i.val / 8 = k then UInt8.ofNat (v / 256 ^ (i.val % 8)) else p i

def putBytes (p : Page) (off : Nat) (src : List UInt8) : Page :=
  fun i => if off ≤ i.val ∧ i.val < off + src.length then src.getD (i.val - off) 0 else p i

def getBytes (p : Page) (off n : Nat) : List UInt8 :=
  (List.range n).map fun i => p.byte (off + i)

theorem word_putWord_self (p : Page) {k v : Nat} (hk : k < 512) (hv : v < 0x10000000000000000) :
    (p.putWord k v).word k = v := by
  have hword : (p.putWord k v).word k = v % 256 ^ 8 := by
    refine leWord_eq fun r hr => ?_
    have hlt : 8 * k + r < PGSIZE := by simp only [PGSIZE]; omega
    have hdiv : (8 * k + r) / 8 = k := by omega
    have hmod : (8 * k + r) % 8 = r := by omega
    simp only [byte, putWord, leByte, hlt, hdiv, hmod, dite_true, if_true]
  rw [hword]
  exact Nat.mod_eq_of_lt hv

theorem word_putWord_other (p : Page) {k l v : Nat} (hl : l ≠ k) :
    (p.putWord k v).word l = p.word l := by
  refine leWord_congr fun r hr => ?_
  have hdiv : ¬(8 * l + r) / 8 = k := by omega
  simp only [byte, putWord, hdiv, if_false]

@[simp] theorem word_fill_zero (k : Nat) : (fill 0).word k = 0 := by
  have hbyte : (fun r => (fill 0).byte (8 * k + r)) = fun _ => 0 := by
    funext r
    simp [byte, fill]
  rw [word, hbyte, leWord_zero]

end Page

-- What the linker puts below the allocator's memory.
structure KernelImage where
  kend : Nat
  trampoline : Nat
  kernbase_le : KERNBASE ≤ kend
  kend_le : kend ≤ PHYSTOP
  trampoline_aligned : trampoline % PGSIZE = 0
  trampoline_lt : trampoline < kend

-- Physical memory by page address, with kmem.freelist. The allocator may turn down any
-- call: deny says which of the next calls it does.
structure Mem where
  image : KernelImage
  pool : Pool Nat Page
  deny : List Bool

namespace Mem

abbrev page (m : Mem) (pa : Nat) : Page := m.pool.cell pa
abbrev freelist (m : Mem) : List Nat := m.pool.free

def load (m : Mem) (pa k : Nat) : Nat := (m.page pa).word k

def setPage (m : Mem) (pa : Nat) (p : Page) : Mem :=
  { m with pool := { m.pool with cell := Function.update m.pool.cell pa p } }

def store (m : Mem) (pa k v : Nat) : Mem :=
  m.setPage pa ((m.page pa).putWord k v)

end Mem

inductive Panic
  | kfree | walk
  | mappagesVa | mappagesSizeAlign | mappagesSize | mappagesRemap
  | uvmunmapAlign | uvmunmapWalk | uvmunmapNotMapped | uvmunmapNotLeaf
  | freewalk | uvmcopyPte | uvmcopyPresent | uvmclear
  | loadseg | bmap | filedup | fileclose | initExiting
  -- a trap in the kernel, here the use of a null pointer
  | kerneltrap
  -- a loop of the model has used up its fuel, which never happens
  | fuel
deriving DecidableEq, Repr

abbrev MemM (α : Type) := Fallible Mem Panic α

def kfree (pa : Nat) : MemM Unit := do
  let m ← get
  if pa % PGSIZE ≠ 0 ∨ pa < m.image.kend ∨ PHYSTOP ≤ pa then
    throw .kfree
  else
    set { m.setPage pa (.fill 1) with pool.free := pa :: m.freelist }

def kalloc : MemM (Option Nat) := do
  let m ← get
  let m' := { m with deny := m.deny.tail }
  if m.deny.head? = some true then
    set m'
    return none
  else
    match m.freelist with
    | [] =>
      set m'
      return none
    | r :: rest =>
      set { m'.setPage r (.fill 5) with pool.free := rest }
      return some r

-- The pages that kfree takes.
def KernelImage.Allocatable (im : KernelImage) (pa : Nat) : Prop :=
  pa % PGSIZE = 0 ∧ im.kend ≤ pa ∧ pa < PHYSTOP

def NPAGES : Nat := (PHYSTOP - KERNBASE) / PGSIZE

theorem NPAGES_eq : NPAGES = 32768 := rfl

namespace KernelImage.Allocatable

variable {im : KernelImage} {pa fl : Nat}

theorem lt (h : im.Allocatable pa) : pa < 0x100000000000000 :=
  lt_trans h.2.2 (by decide)

theorem pos (h : im.Allocatable pa) : 0 < pa :=
  lt_of_lt_of_le (by decide) (im.kernbase_le.trans h.2.1)

theorem PTE2PA_or (h : im.Allocatable pa) (hfl : fl < 1024) :
    PTE2PA (PA2PTE pa ||| fl) = pa :=
  Xv6.PTE2PA_or h.1 h.lt hfl

end KernelImage.Allocatable

namespace Mem

variable {m m' m'' : Mem} {W X Y Z : Multiset Nat} {pa k v : Nat}

@[simp] theorem setPage_self (m : Mem) (pa : Nat) (p : Page) :
    (m.setPage pa p).pool.cell pa = p := by
  simp [setPage]

theorem setPage_other (m : Mem) {pa q : Nat} (p : Page) (h : q ≠ pa) :
    (m.setPage pa p).pool.cell q = m.pool.cell q := by
  simp [setPage, h]

theorem load_setPage_other (m : Mem) {pa q : Nat} (p : Page) (h : q ≠ pa) (k : Nat) :
    (m.setPage pa p).load q k = m.load q k := by
  simp only [load, page, setPage_other m p h]

theorem load_store_self (m : Mem) (hk : k < 512) (hv : v < 0x10000000000000000) :
    (m.store pa k v).load pa k = v := by
  simp only [load, store, page, setPage_self]
  exact Page.word_putWord_self _ hk hv

theorem load_store_index (m : Mem) {l : Nat} (h : l ≠ k) :
    (m.store pa k v).load pa l = m.load pa l := by
  simp only [load, store, page, setPage_self]
  exact Page.word_putWord_other _ h

theorem load_store_other (m : Mem) {q : Nat} (h : q ≠ pa) (l : Nat) :
    (m.store pa k v).load q l = m.load q l :=
  load_setPage_other m _ h l

-- The pages of X and the free pages are all different, and kfree takes each of them.
def Owned (m : Mem) (X : Multiset Nat) : Prop :=
  m.pool.Owned m.image.Allocatable X

-- A change to the memory by code that holds the pages X before and Y after.
structure Trade (m m' : Mem) (X Y : Multiset Nat) : Prop where
  image : m'.image = m.image
  deny : m'.deny <:+ m.deny
  pool : m.pool.Trade m'.pool X Y

-- A kalloc() may fail before n pages have been taken.
def Short (m : Mem) (n : Nat) : Prop :=
  true ∈ m.deny ∨ m.freelist.length < n

instance (n : Nat) : Decidable (m.Short n) := inferInstanceAs (Decidable (_ ∨ _))

theorem Short.mono {n n' : Nat} (h : m.Short n) (hle : n ≤ n') : m.Short n' :=
  h.imp_right fun hlt => hlt.trans_le hle

namespace Trade

theorem refl : Trade m m X X := ⟨rfl, List.suffix_rfl, .refl⟩

theorem trans (h : Trade m m' X Y) (h' : Trade m' m'' Y Z) : Trade m m'' X Z :=
  ⟨h'.image.trans h.image, h'.deny.trans h.deny, h.pool.trans h'.pool⟩

theorem frame (h : Trade m m' X Y) (W : Multiset Nat) : Trade m m' (X + W) (Y + W) :=
  ⟨h.image, h.deny, h.pool.frame W⟩

theorem frame_left (h : Trade m m' X Y) (W : Multiset Nat) : Trade m m' (W + X) (W + Y) :=
  ⟨h.image, h.deny, h.pool.frame_left W⟩

theorem owned (h : Trade m m' X Y) (hown : m.Owned X) : m'.Owned Y := by
  rw [Owned, h.image]
  exact h.pool.owned hown

theorem unchanged (h : Trade m m' X Y) (hown : m.Owned (W + X)) (hp : pa ∈ W) :
    m'.page pa = m.page pa :=
  h.pool.unchanged hown hp

theorem unchanged_take (h : ∀ X, Trade m m' X (X + Y)) (hown : m.Owned W) (hp : pa ∈ W) :
    m'.page pa = m.page pa :=
  (h 0).unchanged (by rwa [add_zero]) hp

theorem card (h : Trade m m' X Y) :
    Y.card + m'.freelist.length = X.card + m.freelist.length :=
  h.pool.card

theorem short {n j : Nat} (h : Trade m m' X Y) (hle : Y.card ≤ X.card + j)
    (hs : m'.Short n) : m.Short (n + j) := by
  have hcard := h.card
  exact hs.imp (fun hmem => h.deny.subset hmem) fun hlt => by omega

theorem setPage (p : Page) (hp : pa ∈ X) : Trade m (m.setPage pa p) X X :=
  ⟨rfl, List.suffix_rfl, .write rfl fun _ hq => setPage_other m p fun heq => hq (heq ▸ hp)⟩

theorem store (hp : pa ∈ X) : Trade m (m.store pa k v) X X := setPage _ hp

end Trade

theorem Owned.card_le (h : m.Owned X) : X.card ≤ NPAGES := by
  have hbase := m.image.kernbase_le
  have hnumber : ∀ p ∈ X.toFinset, (p - KERNBASE) / PGSIZE ∈ Finset.range NPAGES := by
    intro p hp
    obtain ⟨-, hge, hlt⟩ := h.ok_held (Multiset.mem_toFinset.mp hp)
    have hlt : (p - KERNBASE) / PGSIZE < NPAGES := by
      unfold NPAGES PHYSTOP KERNBASE PGSIZE at *
      omega
    exact Finset.mem_range.mpr hlt
  have hinj : Set.InjOn (fun p => (p - KERNBASE) / PGSIZE) (X.toFinset : Set Nat) := by
    intro p hp q hq heq
    replace heq : (p - KERNBASE) / PGSIZE = (q - KERNBASE) / PGSIZE := heq
    obtain ⟨hp', hge, -⟩ := h.ok_held (Multiset.mem_toFinset.mp hp)
    obtain ⟨hq', hge', -⟩ := h.ok_held (Multiset.mem_toFinset.mp hq)
    unfold KERNBASE PGSIZE at *
    omega
  calc X.card = X.toFinset.card := (Multiset.toFinset_card_of_nodup h.nodup_held).symm
    _ ≤ (Finset.range NPAGES).card := Finset.card_le_card_of_injOn _ hnumber hinj
    _ = NPAGES := Finset.card_range _

end Mem

variable {m : Mem} {P : Panic → Prop} {pa : Nat}

theorem kfree_spec {Q : Unit → Mem → Prop} (hp : P .kfree ∨ m.image.Allocatable pa)
    (hq : ∀ m', (∀ X, Mem.Trade m m' (X + {pa}) X) →
      (∀ q, q ≠ pa → m'.page q = m.page q) → Q () m') : Wp (kfree pa) m P Q := by
  refine Wp.bind (Wp.get (Wp.ite (fun hcheck => Wp.throw ?_) fun _ => ?_))
  · refine hp.resolve_right fun h => ?_
    obtain ⟨h₁, h₂, h₃⟩ := h
    omega
  refine Wp.set (hq _ (fun X => ⟨rfl, List.suffix_rfl, .give rfl fun q hq => ?_⟩) fun q hq => ?_)
  · exact Mem.setPage_other m _ hq
  · exact Mem.setPage_other m _ hq

theorem kalloc_spec {Q : Option Nat → Mem → Prop}
    (hnone : ∀ m', (∀ X, Mem.Trade m m' X X) → m'.pool = m.pool → m.Short 1 → Q none m')
    (hsome : ∀ pa m', m.freelist = pa :: m'.freelist → (∀ X, Mem.Trade m m' X (X + {pa})) →
      (∀ q, q ≠ pa → m'.page q = m.page q) → Q (some pa) m') : Wp kalloc m P Q := by
  refine Wp.bind (Wp.get ?_)
  have hdeny := List.tail_suffix m.deny
  have hnone' := hnone { m with deny := m.deny.tail } (fun X => ⟨rfl, hdeny, .refl⟩) rfl
  refine Wp.ite (fun hd => Wp.bind (Wp.set (Wp.pure (hnone' (.inl ?_))))) fun _ => ?_
  · exact List.mem_of_head? hd
  cases hfree : m.freelist with
  | nil => exact Wp.bind (Wp.set (Wp.pure (hnone' (.inr (by rw [hfree]; exact Nat.one_pos)))))
  | cons r rest =>
    refine Wp.bind (Wp.set (Wp.pure (hsome r _ hfree (fun X => ⟨rfl, hdeny, .take hfree ?_⟩) ?_)))
    · exact fun q hq => Mem.setPage_other m _ hq
    · exact fun q hq => Mem.setPage_other m _ hq

end Xv6
