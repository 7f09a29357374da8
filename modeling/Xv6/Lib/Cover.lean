import Mathlib.Data.List.Count

namespace Xv6.Lib

-- The places from start up to stop.
structure Extent where
  start : Nat
  stop : Nat

namespace Extent

def Has (e : Extent) (x : Nat) : Prop := e.start ≤ x ∧ x < e.stop

instance (e : Extent) (x : Nat) : Decidable (e.Has x) := inferInstanceAs (Decidable (_ ∧ _))

end Extent

-- How many of the extents have a place.
def cover (l : List Extent) (x : Nat) : Nat := l.countP fun e => decide (e.Has x)

variable {l m : List Extent} {e f : Extent} {x : Nat}

theorem cover_nil (x : Nat) : cover [] x = 0 := rfl

theorem cover_cons (e : Extent) (l : List Extent) (x : Nat) :
    cover (e :: l) x = cover l x + if e.Has x then 1 else 0 := by
  simp [cover, List.countP_cons]

theorem cover_append (l m : List Extent) (x : Nat) : cover (l ++ m) x = cover l x + cover m x :=
  List.countP_append ..

theorem cover_pos_iff : 0 < cover l x ↔ ∃ e ∈ l, e.Has x := by
  simp [cover, List.countP_pos_iff]

theorem cover_meet {a b c : Nat} (hab : a ≤ b) (hbc : b ≤ c) (x : Nat) :
    cover [⟨a, c⟩] x = cover [⟨a, b⟩, ⟨b, c⟩] x := by
  simp only [cover_cons, cover_nil]
  split <;> split <;> split <;> simp only [Extent.Has] at * <;> omega

theorem pairwise_of_cover_le_one (h : ∀ x, cover l x ≤ 1) :
    l.Pairwise fun e f => ∀ x, e.Has x → ¬f.Has x := by
  induction l with
  | nil => exact List.Pairwise.nil
  | cons e l ih =>
    refine List.Pairwise.cons ?_ (ih fun x => ?_)
    · intro f hf x he hfx
      have hx := h x
      have hpos : 0 < cover l x := cover_pos_iff.mpr ⟨f, hf, hfx⟩
      rw [cover_cons, if_pos he] at hx
      omega
    · have hx := h x
      rw [cover_cons] at hx
      omega

theorem cover_above (h : ∀ x, cover l x ≤ 1) (habove : ∀ f ∈ l, f.stop ≤ e.start) (x : Nat) :
    cover (l ++ [e]) x ≤ 1 := by
  rw [cover_append, cover_cons, cover_nil]
  by_cases hx : e.Has x
  · have hzero : ¬0 < cover l x := by
      rw [cover_pos_iff]
      rintro ⟨f, hf, hfx⟩
      have hle := habove f hf
      simp only [Extent.Has] at hx hfx
      omega
    rw [if_pos hx]
    omega
  · rw [if_neg hx]
    exact h x

end Xv6.Lib
