import Mathlib.Data.Finset.Card
import Mathlib.Logic.Function.Basic

namespace Xv6.Lib

-- Exactly n processes have f p = x.
def Counted {β : Type} (f : Nat → β) (x : β) (n : Nat) : Prop :=
  ∃ ps : Finset Nat, (∀ p, p ∈ ps ↔ f p = x) ∧ ps.card = n

namespace Counted

variable {β : Type} {f : Nat → β} {x y : β} {n : Nat} {p : Nat}

theorem zero (h : ∀ p, f p ≠ x) : Counted f x 0 :=
  ⟨∅, fun p => by simp [h p], rfl⟩

theorem pos (h : Counted f x n) (hp : f p = x) : 0 < n := by
  obtain ⟨ps, hmem, rfl⟩ := h
  exact Finset.card_pos.mpr ⟨p, (hmem p).mpr hp⟩

theorem other (h : Counted f x n) (hp : f p ≠ x) (hy : y ≠ x) :
    Counted (Function.update f p y) x n := by
  obtain ⟨ps, hmem, hcard⟩ := h
  refine ⟨ps, fun q => ?_, hcard⟩
  by_cases hq : q = p
  · subst hq
    simp [hmem, hp, hy]
  · simp [hmem, hq]

theorem add (h : Counted f x n) (hp : f p ≠ x) : Counted (Function.update f p x) x (n + 1) := by
  obtain ⟨ps, hmem, rfl⟩ := h
  refine ⟨insert p ps, fun q => ?_, Finset.card_insert_of_notMem (by simp [hmem, hp])⟩
  by_cases hq : q = p
  · subst hq
    simp
  · simp [hmem, hq]

theorem remove (h : Counted f x n) (hp : f p = x) (hy : y ≠ x) :
    Counted (Function.update f p y) x (n - 1) := by
  obtain ⟨ps, hmem, rfl⟩ := h
  refine ⟨ps.erase p, fun q => ?_, Finset.card_erase_of_mem ((hmem p).mpr hp)⟩
  by_cases hq : q = p
  · subst hq
    simp [hy]
  · simp [hmem, hq]

end Counted

end Xv6.Lib
