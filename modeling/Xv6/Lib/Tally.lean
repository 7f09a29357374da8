import Mathlib.Data.Set.Card
import Mathlib.Data.Finite.Prod

namespace Xv6.Lib

variable {ι κ : Type} {f : ι → Option κ} {i : ι} {k : κ} {x : Option κ}

-- A map with finitely many values, and how often a value occurs in it.
def Sparse (f : ι → Option κ) : Prop := {i | f i ≠ none}.Finite

noncomputable def tally (f : ι → Option κ) (k : κ) : Nat := {i | f i = some k}.ncard

theorem sparse_of_finite [Finite ι] (f : ι → Option κ) : Sparse f := Set.toFinite _

theorem Sparse.values (h : Sparse f) (k : κ) : {i | f i = some k}.Finite := by
  refine h.subset fun i hi => ?_
  have hk : f i = some k := hi
  simp [hk]

theorem Sparse.update [DecidableEq ι] (h : Sparse f) (i : ι) (x : Option κ) :
    Sparse (Function.update f i x) := by
  refine (h.insert i).subset fun j hj => ?_
  by_cases hji : j = i
  · exact .inl hji
  · have hne : Function.update f i x j ≠ none := hj
    rw [Function.update_of_ne hji] at hne
    exact .inr hne

theorem tally_pos (h : Sparse f) (hi : f i = some k) : 0 < tally f k :=
  (Set.ncard_pos (h.values k)).mpr ⟨i, hi⟩

theorem exists_of_tally_pos (h : 0 < tally f k) : ∃ i, f i = some k :=
  Set.nonempty_of_ncard_ne_zero h.ne'

theorem tally_eq_zero (h : ∀ i, f i ≠ some k) : tally f k = 0 := by
  have hempty : {i | f i = some k} = ∅ := Set.eq_empty_iff_forall_notMem.mpr h
  rw [tally, hempty, Set.ncard_empty]

theorem tally_update [DecidableEq ι] [DecidableEq κ] (h : Sparse f) (i : ι) (x : Option κ) (k : κ) :
    tally (Function.update f i x) k + (if f i = some k then 1 else 0) =
      tally f k + if x = some k then 1 else 0 := by
  have hrest : ∀ y, {j | Function.update f i y j = some k} =
      if y = some k then insert i ({j | f j = some k} \ {i}) else {j | f j = some k} \ {i} := by
    intro y
    ext j
    by_cases hji : j = i
    · subst hji
      by_cases hy : y = some k
      · simp [hy]
      · simp [hy]
    · by_cases hy : y = some k
      · simp [hy, hji]
      · simp [hy, hji]
  have hfin : ({j | f j = some k} \ {i}).Finite := (h.values k).sdiff
  have hnot : i ∉ {j | f j = some k} \ {i} := fun hmem => hmem.2 rfl
  have hcount : ∀ y, tally (Function.update f i y) k =
      ({j | f j = some k} \ {i}).ncard + if y = some k then 1 else 0 := by
    intro y
    rw [tally, hrest y]
    split
    · exact Set.ncard_insert_of_notMem hnot hfin
    · rfl
  have hself := hcount (f i)
  rw [Function.update_eq_self] at hself
  rw [hcount x, hself]
  omega

end Xv6.Lib
