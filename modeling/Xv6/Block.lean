import Xv6.Param
import Mathlib.Algebra.Order.Ring.Int

namespace Xv6

-- The data of one disk block.
abbrev Block := Fin BSIZE → UInt8

namespace Block

def zero : Block := fun _ => 0

-- Bytes past the end of the block read as 0. No caller asks for them.
def byte (b : Block) (i : Nat) : UInt8 :=
  if h : i < BSIZE then b ⟨i, h⟩ else 0

-- The block read as an array of little-endian 32-bit words.
def getUint (b : Block) (k : Nat) : Nat :=
  (b.byte (4 * k)).toNat + 2 ^ 8 * (b.byte (4 * k + 1)).toNat +
    2 ^ 16 * (b.byte (4 * k + 2)).toNat + 2 ^ 24 * (b.byte (4 * k + 3)).toNat

def putUint (b : Block) (k v : Nat) : Block :=
  fun i => if i.val / 4 = k then UInt8.ofNat (v / 2 ^ (8 * (i.val % 4))) else b i

theorem byte_putUint_same (b : Block) (k v r : Nat) (hk : k < NINDIRECT) (hr : r < 4) :
    ((b.putUint k v).byte (4 * k + r)).toNat = v / 2 ^ (8 * r) % 2 ^ 8 := by
  have hlt : 4 * k + r < BSIZE := by simp only [NINDIRECT, BSIZE] at *; omega
  have hdiv : (4 * k + r) / 4 = k := by omega
  have hmod : (4 * k + r) % 4 = r := by omega
  simp [byte, putUint, hlt, hdiv, hmod]

theorem byte_putUint_other (b : Block) (k v i : Nat) (hi : i / 4 ≠ k) :
    (b.putUint k v).byte i = b.byte i := by
  unfold byte putUint
  split <;> rfl

theorem getUint_putUint_same (b : Block) (k v : Nat) (hk : k < NINDIRECT) :
    (b.putUint k v).getUint k = v % 2 ^ 32 := by
  have h0 := byte_putUint_same b k v 0 hk (by omega)
  have h1 := byte_putUint_same b k v 1 hk (by omega)
  have h2 := byte_putUint_same b k v 2 hk (by omega)
  have h3 := byte_putUint_same b k v 3 hk (by omega)
  rw [Nat.add_zero] at h0
  rw [getUint, h0, h1, h2, h3]
  omega

theorem getUint_putUint_other (b : Block) (k l v : Nat) (hl : l ≠ k) :
    (b.putUint k v).getUint l = b.getUint l := by
  unfold getUint
  rw [byte_putUint_other, byte_putUint_other, byte_putUint_other, byte_putUint_other] <;> omega

theorem getUint_lt (b : Block) (k : Nat) : b.getUint k < 2 ^ 32 := by
  have h0 := (b.byte (4 * k)).toNat_lt
  have h1 := (b.byte (4 * k + 1)).toNat_lt
  have h2 := (b.byte (4 * k + 2)).toNat_lt
  have h3 := (b.byte (4 * k + 3)).toNat_lt
  unfold getUint
  omega

@[simp] theorem getUint_zero (k : Nat) : zero.getUint k = 0 := by
  simp [getUint, byte, zero]

end Block

end Xv6
