import Xv6.Log

namespace Xv6.Log

theorem headN_of_lt (hb : Block) (h : hb.getUint 0 < 2 ^ 31) : headN hb = hb.getUint 0 := by
  unfold headN
  rw [Int.bmod_def]
  omega

theorem putBlocks_lower (hb : Block) (i k : Nat) (lh : List Nat) (hk : k ≤ i) :
    (putBlocks hb i lh).getUint k = hb.getUint k := by
  induction lh generalizing hb i with
  | nil => rfl
  | cons b rest ih =>
    rw [putBlocks, ih _ _ (by omega), Block.getUint_putUint_other _ _ _ _ (by omega)]

theorem putBlocks_get (hb : Block) (i k : Nat) (lh : List Nat) (hk : k < lh.length)
    (hlen : i + lh.length < NINDIRECT) :
    (putBlocks hb i lh).getUint (i + k + 1) = lh[k] % 2 ^ 32 := by
  induction lh generalizing hb i k with
  | nil => simp at hk
  | cons b rest ih =>
    simp only [List.length_cons] at hk hlen
    rw [putBlocks]
    cases k with
    | zero =>
      rw [putBlocks_lower _ _ _ _ (by omega)]
      exact Block.getUint_putUint_same _ _ _ (by omega)
    | succ k =>
      have h := ih (hb.putUint (i + 1) b) (i + 1) k (by omega) (by omega)
      rw [show i + (k + 1) + 1 = i + 1 + k + 1 by omega, h]
      rfl

theorem headN_putHead (hb : Block) (lh : List Nat) (hlen : lh.length ≤ LOGSIZE) :
    headN (putHead hb lh) = lh.length := by
  have hget : (putHead hb lh).getUint 0 = lh.length := by
    unfold putHead
    rw [putBlocks_lower _ _ _ _ (by omega), Block.getUint_putUint_same _ _ _ (by decide)]
    simp only [LOGSIZE, MAXOPBLOCKS] at hlen
    omega
  rw [headN_of_lt]
  · rw [hget]
  · simp only [LOGSIZE, MAXOPBLOCKS] at hlen
    omega

theorem getHead_putHead (hb : Block) (lh : List Nat) (hlen : lh.length ≤ LOGSIZE)
    (huint : ∀ b ∈ lh, b < 2 ^ 32) : getHead (putHead hb lh) = lh := by
  unfold getHead
  rw [headN_putHead hb lh hlen]
  apply List.ext_getElem
  · simp
  · intro k hk hk'
    have hget := putBlocks_get (hb.putUint 0 lh.length) 0 k lh hk'
      (by simp only [LOGSIZE, MAXOPBLOCKS, NINDIRECT, BSIZE] at *; omega)
    rw [Nat.zero_add, Nat.mod_eq_of_lt (huint _ (List.getElem_mem hk'))] at hget
    simpa [putHead] using hget

theorem getHead_eq_nil_iff (hb : Block) : getHead hb = [] ↔ headN hb ≤ 0 := by
  simp [getHead]

end Xv6.Log
