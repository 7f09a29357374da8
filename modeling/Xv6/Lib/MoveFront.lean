import Mathlib.Data.List.Nodup
import Mathlib.Data.List.Pairwise
import Mathlib.Data.List.Perm.Basic

namespace Xv6.Lib

variable {ι : Type} [DecidableEq ι]

-- A list in which each use of an item moves it to the front. The uses are given with the
-- last one first.
def moveFront (start : List ι) : List ι → List ι
  | [] => start
  | i :: uses => i :: (moveFront start uses).erase i

-- How many uses ago the last use of an item was. An item without a use is the oldest.
def age (uses : List ι) (i : ι) : Nat := uses.idxOf i

variable {start uses : List ι}

theorem age_self (i : ι) : age (i :: uses) i = 0 := List.idxOf_cons_self

theorem age_other {i j : ι} (h : j ≠ i) : age (i :: uses) j = age uses j + 1 :=
  List.idxOf_cons_ne _ h.symm

theorem mem_moveFront (i : ι) (h : ∀ j, j ∈ start) : i ∈ moveFront start uses := by
  induction uses with
  | nil => exact h i
  | cons j uses ih =>
    by_cases hij : i = j
    · rw [hij]
      exact List.mem_cons_self
    · exact List.mem_cons_of_mem _ ((List.mem_erase_of_ne hij).mpr ih)

theorem nodup_moveFront (uses : List ι) (h : start.Nodup) : (moveFront start uses).Nodup := by
  induction uses with
  | nil => exact h
  | cons i uses ih => exact List.nodup_cons.mpr ⟨ih.not_mem_erase, ih.erase i⟩

theorem moveFront_sorted (uses : List ι) (h : start.Nodup) :
    (moveFront start uses).Pairwise fun i j => age uses i ≤ age uses j := by
  induction uses with
  | nil => exact List.pairwise_of_forall fun i j => Nat.le_refl _
  | cons i uses ih =>
    have hn := nodup_moveFront uses h
    refine List.pairwise_cons.mpr ⟨fun j _ => ?_, ?_⟩
    · rw [age_self]
      exact Nat.zero_le _
    · refine ((ih.sublist List.erase_sublist).imp_of_mem fun {a b} ha hb hle => ?_)
      have hne : ∀ {c}, c ∈ (moveFront start uses).erase i → c ≠ i := by
        rintro c hc rfl
        exact hn.not_mem_erase hc
      rw [age_other (hne ha), age_other (hne hb)]
      exact Nat.succ_le_succ hle

omit [DecidableEq ι] in
theorem find?_reverse_oldest {l : List ι} {f : ι → Nat} {test : ι → Bool} {i j : ι}
    (hl : l.Pairwise fun i j => f i ≤ f j) (hi : l.reverse.find? test = some i) (hj : j ∈ l)
    (ht : test j = true) : f j ≤ f i := by
  obtain ⟨-, as, bs, heq, has⟩ := List.find?_eq_some_iff_append.mp hi
  have hsplit : l = bs.reverse ++ i :: as.reverse := by
    rw [← l.reverse_reverse, heq]
    simp
  rw [hsplit] at hl hj
  rcases List.mem_append.mp hj with hj | hj
  · exact (List.pairwise_append.mp hl).2.2 j hj i List.mem_cons_self
  · rcases List.mem_cons.mp hj with rfl | hj
    · exact Nat.le_refl _
    · have hfail := has j (List.mem_reverse.mp hj)
      rw [ht] at hfail
      exact absurd hfail (by decide)

end Xv6.Lib
