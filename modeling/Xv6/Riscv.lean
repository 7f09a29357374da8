import Mathlib.Algebra.Order.Ring.Int
import Mathlib.Data.Nat.Bitwise

namespace Xv6

-- A uint64 is a Nat below 2^64. The arithmetic that can leave that range is reduced here.
def u64 (x : Nat) : Nat := x % 0x10000000000000000

-- kernel/riscv.h
def PGSIZE : Nat := 4096
def PGSHIFT : Nat := 12

def PGROUNDUP (sz : Nat) : Nat := u64 (sz + PGSIZE - 1) / PGSIZE * PGSIZE
def PGROUNDDOWN (a : Nat) : Nat := a / PGSIZE * PGSIZE

def PTE_V : Nat := 1
def PTE_R : Nat := 2
def PTE_W : Nat := 4
def PTE_X : Nat := 8
def PTE_U : Nat := 16

def PA2PTE (pa : Nat) : Nat := (pa >>> 12) <<< 10
def PTE2PA (pte : Nat) : Nat := u64 ((pte >>> 10) <<< 12)
def PTE_FLAGS (pte : Nat) : Nat := pte &&& 0x3FF

def PXSHIFT (level : Nat) : Nat := PGSHIFT + 9 * level
def PX (level va : Nat) : Nat := (va >>> PXSHIFT level) &&& 0x1FF

def MAXVA : Nat := 0x4000000000

-- kernel/memlayout.h
def KERNBASE : Nat := 0x80000000
def PHYSTOP : Nat := KERNBASE + 128 * 1024 * 1024
def TRAMPOLINE : Nat := MAXVA - PGSIZE
def TRAPFRAME : Nat := TRAMPOLINE - PGSIZE

theorem u64_of_lt {x : Nat} (h : x < 0x10000000000000000) : u64 x = x := Nat.mod_eq_of_lt h

theorem u64_lt (x : Nat) : u64 x < 0x10000000000000000 := Nat.mod_lt _ (by decide)

theorem PGROUNDUP_eq {sz : Nat} (h : sz < 0xfffffffffffff001) :
    PGROUNDUP sz = (sz + 4095) / 4096 * 4096 := by
  rw [PGROUNDUP, u64_of_lt (by simp only [PGSIZE]; omega)]
  rfl

theorem PA2PTE_or {fl : Nat} (pa : Nat) (hfl : fl < 1024) :
    PA2PTE pa ||| fl = pa / 4096 * 1024 + fl := by
  have hshift := Nat.shiftLeft_add_eq_or_of_lt (i := 10) hfl (pa >>> 12)
  rw [PA2PTE, ← hshift, Nat.shiftLeft_eq, Nat.shiftRight_eq_div_pow]

theorem PTE2PA_eq (pte : Nat) : PTE2PA pte = u64 (pte / 1024 * 4096) := by
  rw [PTE2PA, Nat.shiftLeft_eq, Nat.shiftRight_eq_div_pow]

theorem PTE_FLAGS_eq (pte : Nat) : PTE_FLAGS pte = pte % 1024 :=
  Nat.and_two_pow_sub_one_eq_mod pte 10

theorem PTE2PA_or {pa fl : Nat} (hpa : pa % 4096 = 0) (hlt : pa < 0x100000000000000)
    (hfl : fl < 1024) : PTE2PA (PA2PTE pa ||| fl) = pa := by
  rw [PA2PTE_or pa hfl, PTE2PA_eq, u64_of_lt (by omega)]
  omega

theorem PTE_FLAGS_or {fl : Nat} (pa : Nat) (hfl : fl < 1024) :
    PTE_FLAGS (PA2PTE pa ||| fl) = fl := by
  rw [PA2PTE_or pa hfl, PTE_FLAGS_eq]
  omega

theorem and_flag (pte : Nat) {f : Nat} (hf : f < 1024) : pte &&& f = PTE_FLAGS pte &&& f := by
  rw [PTE_FLAGS, Nat.land_assoc]
  congr 1
  rw [Nat.land_comm, Nat.and_two_pow_sub_one_of_lt_two_pow (n := 10) hf]

theorem or_and_flag {fl f : Nat} (pa : Nat) (hfl : fl < 1024) (hf : f < 1024) :
    (PA2PTE pa ||| fl) &&& f = fl &&& f := by
  rw [and_flag _ hf, PTE_FLAGS_or pa hfl]

theorem flag_iff {x i f : Nat} (hf : f = 2 ^ i) : x &&& f ≠ 0 ↔ x.testBit i = true := by
  rw [hf, Nat.and_two_pow]
  cases x.testBit i <;> simp

theorem PTE_V_iff {x : Nat} : x &&& PTE_V ≠ 0 ↔ x.testBit 0 = true := flag_iff rfl

theorem PTE_R_iff {x : Nat} : x &&& PTE_R ≠ 0 ↔ x.testBit 1 = true := flag_iff rfl

theorem PTE_U_iff {x : Nat} : x &&& PTE_U ≠ 0 ↔ x.testBit 4 = true := flag_iff rfl

-- The number of a virtual page split into the index of each level.
def pageIndex (v level : Nat) : Nat := v / 512 ^ level % 512

theorem PX_eq (level va : Nat) : PX level va = pageIndex (va / 4096) level := by
  have hpow : 2 ^ PXSHIFT level = 4096 * 512 ^ level := by
    rw [PXSHIFT, PGSHIFT, pow_add, pow_mul]
    rfl
  rw [PX, Nat.and_two_pow_sub_one_eq_mod _ 9, Nat.shiftRight_eq_div_pow, hpow,
    ← Nat.div_div_eq_div_mul]
  rfl

theorem pageIndex_lt (v level : Nat) : pageIndex v level < 512 := Nat.mod_lt _ (by decide)

theorem pageIndex_injective {v w : Nat} (hv : v < 0x8000000) (hw : w < 0x8000000)
    (h : ∀ l ≤ 2, pageIndex v l = pageIndex w l) : v = w := by
  have h0 := h 0 (by decide)
  have h1 := h 1 (by decide)
  have h2 := h 2 (by decide)
  simp only [pageIndex] at h0 h1 h2
  omega

end Xv6
