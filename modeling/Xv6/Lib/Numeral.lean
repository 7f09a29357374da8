import Mathlib.Algebra.Order.Ring.Int
import Mathlib.Data.Nat.Digits.Lemmas

namespace Xv6.Lib

-- The digits of a number in a base, with the most significant one first.
def numeral (b n : Nat) : List Nat := if n = 0 then [0] else (b.digits n).reverse

variable {b : Nat}

theorem numeral_eq (hb : 1 < b) (n : Nat) :
    numeral b n = (if n / b = 0 then [] else numeral b (n / b)) ++ [n % b] := by
  by_cases hn : n = 0
  · simp [numeral, hn]
  · rw [numeral, if_neg hn, Nat.digits_def' hb (Nat.pos_of_ne_zero hn), List.reverse_cons]
    congr 1
    by_cases hq : n / b = 0
    · simp [hq]
    · rw [if_neg hq, numeral, if_neg hq]

theorem ofDigits_numeral (b n : Nat) : Nat.ofDigits b (numeral b n).reverse = n := by
  by_cases hn : n = 0
  · simp [numeral, hn]
  · rw [numeral, if_neg hn, List.reverse_reverse, Nat.ofDigits_digits]

theorem numeral_inj {m n : Nat} (h : numeral b m = numeral b n) : m = n := by
  rw [← ofDigits_numeral b m, h, ofDigits_numeral]

theorem numeral_lt (hb : 1 < b) {n d : Nat} (hd : d ∈ numeral b n) : d < b := by
  by_cases hn : n = 0
  · simp only [numeral, hn, if_true, List.mem_singleton] at hd
    omega
  · rw [numeral, if_neg hn, List.mem_reverse] at hd
    exact Nat.digits_lt_base hb hd

theorem map_injOn {α : Type} {f : Nat → α} {l m : List Nat}
    (hf : ∀ i ∈ l, ∀ j ∈ m, f i = f j → i = j) (h : l.map f = m.map f) : l = m := by
  induction l generalizing m with
  | nil => exact (List.map_eq_nil_iff.mp h.symm).symm
  | cons i l ih =>
    cases m with
    | nil => simp at h
    | cons j m =>
      rw [List.map_cons, List.map_cons, List.cons.injEq] at h
      rw [hf i List.mem_cons_self j List.mem_cons_self h.1]
      rw [ih (fun i hi j hj => hf i (List.mem_cons_of_mem _ hi) j (List.mem_cons_of_mem _ hj)) h.2]

theorem numeral_map_inj {α : Type} {f : Nat → α} (hb : 1 < b)
    (hf : ∀ i < b, ∀ j < b, f i = f j → i = j) {m n : Nat}
    (h : (numeral b m).map f = (numeral b n).map f) : m = n := by
  apply numeral_inj (b := b)
  apply map_injOn _ h
  intro i hi j hj
  exact hf i (numeral_lt hb hi) j (numeral_lt hb hj)

theorem numeral_length_le_iff (hb : 1 < b) {k : Nat} (hk : 0 < k) (n : Nat) :
    (numeral b n).length ≤ k ↔ n < b ^ k := by
  by_cases hn : n = 0
  · have : 0 < b ^ k := Nat.pow_pos (by omega)
    simp only [numeral, hn, if_true, List.length_singleton]
    omega
  · rw [numeral, if_neg hn, List.length_reverse, Nat.digits_length_le_iff hb]

end Xv6.Lib
