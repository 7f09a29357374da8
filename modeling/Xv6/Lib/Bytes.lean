import Mathlib.Algebra.Order.Ring.Int

namespace Xv6.Lib

-- The little-endian number in the first w bytes.
def leWord (byte : Nat → UInt8) : Nat → Nat
  | 0 => 0
  | w + 1 => leWord byte w + 256 ^ w * (byte w).toNat

-- Byte r of v.
def leByte (v r : Nat) : UInt8 := UInt8.ofNat (v / 256 ^ r)

theorem leWord_congr {f g : Nat → UInt8} {w : Nat} (h : ∀ r < w, f r = g r) :
    leWord f w = leWord g w := by
  induction w with
  | zero => rfl
  | succ w ih =>
    rw [leWord, leWord, ih fun r hr => h r (Nat.lt_succ_of_lt hr), h w (Nat.lt_succ_self w)]

theorem leWord_eq {f : Nat → UInt8} {w v : Nat}
    (h : ∀ r < w, f r = leByte v r) : leWord f w = v % 256 ^ w := by
  induction w with
  | zero => simp [leWord, Nat.mod_one]
  | succ w ih =>
    have hbyte : (f w).toNat = v / 256 ^ w % 256 := by
      rw [h w (Nat.lt_succ_self w)]
      simp [leByte]
    rw [leWord, ih fun r hr => h r (Nat.lt_succ_of_lt hr), hbyte, pow_succ, Nat.mod_mul]

theorem leWord_lt (f : Nat → UInt8) (w : Nat) : leWord f w < 256 ^ w := by
  induction w with
  | zero => simp [leWord]
  | succ w ih =>
    have hbyte := (f w).toNat_lt
    calc leWord f w + 256 ^ w * (f w).toNat
        < 256 ^ w + 256 ^ w * (f w).toNat := Nat.add_lt_add_right ih _
      _ = 256 ^ w * ((f w).toNat + 1) := by rw [Nat.mul_add, Nat.mul_one, Nat.add_comm]
      _ ≤ 256 ^ w * 256 := Nat.mul_le_mul_left _ hbyte
      _ = 256 ^ (w + 1) := (pow_succ 256 w).symm

theorem leWord_zero (w : Nat) : leWord (fun _ => 0) w = 0 := by
  induction w with
  | zero => rfl
  | succ w ih => simp [leWord, ih]

end Xv6.Lib
