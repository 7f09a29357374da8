import Mathlib.Algebra.Order.Group.Multiset
import Mathlib.Logic.Function.Basic

namespace Xv6.Lib

-- Cells of which some lie on a free list and the others belong to someone.
structure Pool (κ β : Type) where
  cell : κ → β
  free : List κ

namespace Pool

variable {κ β : Type} {s t u : Pool κ β} {W X Y Z : Multiset κ} {p q : κ} {ok : κ → Prop}

-- The cells of X and the free ones are all different, and all of them are ok.
structure Owned (ok : κ → Prop) (s : Pool κ β) (X : Multiset κ) : Prop where
  nodup : (X + s.free).Nodup
  ok : ∀ p ∈ X + s.free, ok p

-- A change by someone who holds X before and Y after: what is not in Y has been given
-- back, and no cell of anybody else is written.
structure Trade (s t : Pool κ β) (X Y : Multiset κ) : Prop where
  ledger : Y + t.free = X + s.free
  cell : ∀ p, p ∉ X + (s.free : Multiset κ) → t.cell p = s.cell p

namespace Trade

theorem refl : Trade s s X X := ⟨rfl, fun _ _ => rfl⟩

theorem trans (h : Trade s t X Y) (h' : Trade t u Y Z) : Trade s u X Z := by
  refine ⟨h'.ledger.trans h.ledger, fun p hp => ?_⟩
  rw [h'.cell p (by rwa [h.ledger]), h.cell p hp]

theorem frame (h : Trade s t X Y) (W : Multiset κ) : Trade s t (X + W) (Y + W) := by
  refine ⟨?_, fun p hp => h.cell p fun hmem => hp ?_⟩
  · rw [add_right_comm, h.ledger, add_right_comm]
  · rw [add_right_comm]
    exact Multiset.mem_add.mpr (.inl hmem)

theorem frame_left (h : Trade s t X Y) (W : Multiset κ) : Trade s t (W + X) (W + Y) := by
  rw [add_comm W X, add_comm W Y]
  exact h.frame W

theorem card (h : Trade s t X Y) : Y.card + t.free.length = X.card + s.free.length := by
  have hcard := congrArg Multiset.card h.ledger
  rwa [Multiset.card_add, Multiset.card_add, Multiset.coe_card, Multiset.coe_card] at hcard

theorem owned (h : Trade s t X Y) (hown : Owned ok s X) : Owned ok t Y := by
  refine ⟨?_, ?_⟩
  · rw [h.ledger]
    exact hown.nodup
  · rw [h.ledger]
    exact hown.ok

theorem unchanged (h : Trade s t X Y) (hown : Owned ok s (W + X)) (hp : p ∈ W) :
    t.cell p = s.cell p := by
  apply h.cell p
  have hnd := hown.nodup
  rw [add_assoc] at hnd
  exact fun hmem => Multiset.disjoint_left.mp (Multiset.nodup_add.mp hnd).2.2 hp hmem

theorem take (hfree : s.free = p :: t.free) (hcell : ∀ q, q ≠ p → t.cell q = s.cell q) :
    Trade s t X (X + {p}) := by
  refine ⟨?_, fun q hq => hcell q fun heq => hq ?_⟩
  · rw [hfree, ← Multiset.cons_coe, add_assoc, Multiset.singleton_add]
  · rw [heq, hfree]
    simp

theorem give (hfree : t.free = p :: s.free) (hcell : ∀ q, q ≠ p → t.cell q = s.cell q) :
    Trade s t (X + {p}) X := by
  refine ⟨?_, fun q hq => hcell q fun heq => hq ?_⟩
  · rw [hfree, ← Multiset.cons_coe, add_assoc, Multiset.singleton_add]
  · rw [heq]
    simp

theorem write (hfree : t.free = s.free) (hcell : ∀ q, q ∉ X → t.cell q = s.cell q) :
    Trade s t X X := by
  refine ⟨by rw [hfree], fun q hq => hcell q fun hmem => hq ?_⟩
  exact Multiset.mem_add.mpr (.inl hmem)

end Trade

theorem Owned.left (h : Owned ok s (W + X)) : Owned ok s W := by
  have hnd := h.nodup
  rw [add_right_comm] at hnd
  refine ⟨(Multiset.nodup_add.mp hnd).1, fun p hp => h.ok p ?_⟩
  rw [add_right_comm]
  exact Multiset.mem_add.mpr (.inl hp)

theorem Owned.mono (h : Owned ok s Y) (hle : X ≤ Y) : Owned ok s X := by
  obtain ⟨W, rfl⟩ := Multiset.le_iff_exists_add.mp hle
  exact h.left

theorem Owned.right (h : Owned ok s (W + X)) : Owned ok s X :=
  Owned.left (W := X) (X := W) (by rwa [add_comm])

theorem Owned.nodup_held (h : Owned ok s X) : X.Nodup := (Multiset.nodup_add.mp h.nodup).1

theorem Owned.disjoint (h : Owned ok s (W + X)) (hp : p ∈ W) : p ∉ X :=
  Multiset.disjoint_left.mp (Multiset.nodup_add.mp h.nodup_held).2.2 hp

theorem Owned.notMem_free (h : Owned ok s X) (hp : p ∈ X) : p ∉ s.free :=
  fun hmem => Multiset.disjoint_left.mp (Multiset.nodup_add.mp h.nodup).2.2 hp hmem

theorem Owned.ok_held (h : Owned ok s X) (hp : p ∈ X) : ok p :=
  h.ok p (Multiset.mem_add.mpr (.inl hp))

end Pool

end Xv6.Lib
