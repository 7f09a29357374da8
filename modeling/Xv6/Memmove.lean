import Mathlib.Algebra.Order.Ring.Int
import Mathlib.Logic.Function.Basic

namespace Xv6.Memmove

abbrev Addr := BitVec 64

abbrev Memory := Addr → UInt8

-- while(n-- > 0) *d++ = *s++;
def copyUp : Nat → Addr → Addr → Memory → Memory
  | 0, _, _, m => m
  | n + 1, d, s, m => copyUp n (d + 1) (s + 1) (Function.update m d (m s))

-- while(n-- > 0) *--d = *--s;
def copyDown : Nat → Addr → Addr → Memory → Memory
  | 0, _, _, m => m
  | n + 1, d, s, m => copyDown n (d - 1) (s - 1) (Function.update m (d - 1) (m (s - 1)))

-- memmove() of kernel/string.c, where n is a uint.
def Kernel.memmove (dst src : Addr) (n : BitVec 32) (m : Memory) : Memory :=
  if n = 0 then m
  else if src < dst ∧ src + n.setWidth 64 > dst then
    copyDown n.toNat (dst + n.setWidth 64) (src + n.setWidth 64) m
  else copyUp n.toNat dst src m

-- memmove() of user/ulib.c, where n is an int.
def User.memmove (dst src : Addr) (n : BitVec 32) (m : Memory) : Memory :=
  if src > dst then copyUp n.toInt.toNat dst src m
  else copyDown n.toInt.toNat (dst + n.signExtend 64) (src + n.signExtend 64) m

-- The memory in which the n bytes from dst on are what the n bytes from src on were.
def moved (n : Nat) (dst src : Addr) (m : Memory) : Memory :=
  fun a => if (a - dst).toNat < n then m (src + (a - dst)) else m a

theorem copyUp_eq {n : Nat} {d s : Addr} (hn : n ≤ 2 ^ 64) (h : d = s ∨ n ≤ (d - s).toNat)
    (m : Memory) : copyUp n d s m = moved n d s m := by
  induction n generalizing d s m with
  | zero =>
    funext a
    simp [copyUp, moved]
  | succ n ih =>
    have hstep : d + 1 - (s + 1) = d - s := by
      clear h ih
      bv_omega
    rw [copyUp, ih (by omega) (by rw [hstep]; exact h.imp (congrArg (· + 1)) Nat.le_of_succ_le)]
    clear ih
    funext a
    by_cases ha : a = d
    · subst ha
      have hout : ¬(a - (a + 1)).toNat < n := by
        clear h
        bv_omega
      have hzero : (a - a).toNat < n + 1 := by simp
      simp only [moved, if_neg hout, if_pos hzero, Function.update_self]
      simp
    · have hin : (a - (d + 1)).toNat < n ↔ (a - d).toNat < n + 1 := by
        clear h
        bv_omega
      simp only [moved, hin]
      split
      · rename_i hlt
        have hs : s + 1 + (a - (d + 1)) = s + (a - d) := by
          clear h hin
          bv_omega
        rw [hs]
        refine Function.update_of_ne (fun heq => ?_) _ _
        have hj : a - d = d - s := by
          clear h hin hs hlt
          generalize a - d = j at heq
          bv_omega
        rw [hj] at hlt
        rcases h with rfl | h
        · clear hin hs heq
          bv_omega
        · omega
      · exact Function.update_of_ne ha _ _

theorem copyDown_eq {n : Nat} {d s : Addr} (hn : n ≤ 2 ^ 64) (h : d = s ∨ n ≤ (s - d).toNat)
    (m : Memory) :
    copyDown n (d + BitVec.ofNat 64 n) (s + BitVec.ofNat 64 n) m = moved n d s m := by
  induction n generalizing m with
  | zero =>
    funext a
    simp [copyDown, moved]
  | succ n ih =>
    have hback : ∀ a : Addr, a + BitVec.ofNat 64 (n + 1) - 1 = a + BitVec.ofNat 64 n := by
      intro a
      bv_omega
    rw [copyDown, hback, hback, ih (by omega) (h.imp_right Nat.le_of_succ_le)]
    funext a
    have ha : a = d + BitVec.ofNat 64 n ↔ (a - d).toNat = n := by
      clear h ih
      bv_omega
    have hsrc : s + (a - d) = d + BitVec.ofNat 64 n → ¬(a - d).toNat < n := by
      clear ih ha
      generalize a - d = j
      intro heq hlt
      have hdist : (s - d).toNat = (n - j.toNat) % 2 ^ 64 := by
        clear h
        bv_omega
      rcases h with rfl | h
      · rw [BitVec.sub_self, BitVec.toNat_zero] at hdist
        omega
      · omega
    simp only [moved]
    by_cases hlast : (a - d).toNat = n
    · have hsub : s + (a - d) = s + BitVec.ofNat 64 n := by
        clear h ih ha hsrc
        bv_omega
      rw [if_neg (by omega), if_pos (by omega), hsub, ha.mpr hlast, Function.update_self]
    · by_cases hin : (a - d).toNat < n
      · rw [if_pos hin, if_pos (by omega)]
        exact Function.update_of_ne (fun heq => hsrc heq hin) _ _
      · rw [if_neg hin, if_neg (by omega)]
        exact Function.update_of_ne (fun heq => hlast (ha.mp heq)) _ _

theorem Kernel.memmove_eq {dst src : Addr} {n : BitVec 32} (hd : dst.toNat + n.toNat ≤ 2 ^ 64)
    (hs : src.toNat + n.toNat ≤ 2 ^ 64) (m : Memory) :
    Kernel.memmove dst src n m = moved n.toNat dst src m := by
  unfold Kernel.memmove
  split
  · rename_i hzero
    funext a
    simp [hzero, moved]
  split
  · rename_i hover
    rw [← BitVec.ofNat_toNat]
    exact copyDown_eq (by omega) (.inr (by bv_omega)) m
  · rename_i hover
    refine copyUp_eq (by omega) ?_ m
    bv_omega

theorem User.memmove_eq {dst src : Addr} {n : BitVec 32} (hn : 0 ≤ n.toInt)
    (hd : dst.toNat + n.toNat ≤ 2 ^ 64) (hs : src.toNat + n.toNat ≤ 2 ^ 64) (m : Memory) :
    User.memmove dst src n m = moved n.toNat dst src m := by
  have hmsb : n.msb = false := by
    rw [BitVec.msb_eq_toInt]
    simp [hn]
  have hnat : n.toInt.toNat = n.toNat := by simp [BitVec.toInt_eq_toNat_of_msb hmsb]
  unfold User.memmove
  rw [BitVec.signExtend_eq_setWidth_of_msb_false hmsb, hnat]
  split
  · rename_i hup
    exact copyUp_eq (by omega) (.inr (by bv_omega)) m
  · rename_i hdown
    rw [← BitVec.ofNat_toNat]
    exact copyDown_eq (by omega) (by bv_omega) m

-- What memmove(dst, src, n) has to do, as a relation between the memories.
structure Moves (n : Nat) (dst src : Addr) (m m' : Memory) : Prop where
  copied : ∀ i < n, m' (dst + BitVec.ofNat 64 i) = m (src + BitVec.ofNat 64 i)
  kept : ∀ a, (∀ i < n, a ≠ dst + BitVec.ofNat 64 i) → m' a = m a

theorem moves_moved {n : Nat} {dst src : Addr} (hn : n ≤ 2 ^ 64) (m : Memory) :
    Moves n dst src m (moved n dst src m) := by
  constructor
  · intro i hi
    have hoff : dst + BitVec.ofNat 64 i - dst = BitVec.ofNat 64 i := by bv_omega
    have hlt : (BitVec.ofNat 64 i).toNat < n := by
      rw [BitVec.toNat_ofNat]
      omega
    simp only [moved, hoff, if_pos hlt]
  · intro a ha
    refine if_neg fun hlt => ha (a - dst).toNat hlt ?_
    rw [BitVec.ofNat_toNat, BitVec.setWidth_eq]
    bv_omega

theorem memmove_moves (m : Memory) (dst src : Addr) (n : BitVec 32)
    (hd : dst.toNat + n.toNat ≤ 2 ^ 64) (hs : src.toNat + n.toNat ≤ 2 ^ 64) :
    Moves n.toNat dst src m (Kernel.memmove dst src n m) ∧
      (0 ≤ n.toInt → Moves n.toNat dst src m (User.memmove dst src n m) ∧
        User.memmove dst src n m = Kernel.memmove dst src n m) := by
  have hmoves : Moves n.toNat dst src m (moved n.toNat dst src m) := moves_moved (by omega) m
  rw [Kernel.memmove_eq hd hs]
  refine ⟨hmoves, fun hn => ?_⟩
  rw [User.memmove_eq hn hd hs]
  exact ⟨hmoves, rfl⟩

theorem memmove_moves_top :
    Moves 3 (-3) (-4) (fun a => a.toNat.toUInt8)
      (Kernel.memmove (-3) (-4) 3 fun a => a.toNat.toUInt8) :=
  (memmove_moves _ (-3) (-4) 3 (by decide) (by decide)).1

end Xv6.Memmove
