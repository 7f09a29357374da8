import Mathlib.Data.List.Rotate
import Mathlib.Data.List.Chain

namespace Xv6.Lib

variable {α : Type} {next next' : α → α} {l l' : List α} {x y : α}

-- The nodes of a circular list, where next goes from each to the one after it and from
-- the last to the first.
def Cyclic (next : α → α) (l : List α) : Prop := l.map next = l.rotate 1

theorem cyclic_cons : Cyclic next (x :: l) ↔ next x :: l.map next = l ++ [x] := by
  rw [Cyclic, List.map_cons, List.rotate_cons_succ, List.rotate_zero]

theorem cyclic_singleton (h : next x = x) : Cyclic next [x] := by
  rw [cyclic_cons, h]
  rfl

theorem Cyclic.comm (h : Cyclic next (l ++ l')) : Cyclic next (l' ++ l) := by
  rw [Cyclic, ← List.rotate_append_length_eq l l', List.map_rotate, h, List.rotate_rotate,
    List.rotate_rotate, Nat.add_comm]

theorem Cyclic.from (h : Cyclic next (l ++ x :: l')) : Cyclic next (x :: (l' ++ l)) := h.comm

theorem Cyclic.back (h : Cyclic next (x :: (l' ++ l))) : Cyclic next (l ++ x :: l') :=
  Cyclic.comm (l := x :: l') h

theorem Cyclic.congr (h : Cyclic next l) (heq : ∀ a ∈ l, next' a = next a) : Cyclic next' l := by
  rw [Cyclic, List.map_congr_left heq]
  exact h

theorem Cyclic.insert (h : Cyclic next (l ++ x :: l')) (hx : next' x = y) (hy : next' y = next x)
    (heq : ∀ a ∈ l ++ l', next' a = next a) : Cyclic next' (l ++ x :: y :: l') := by
  apply Cyclic.back
  have hfrom := cyclic_cons.mp h.from
  have hrest : (l' ++ l).map next' = (l' ++ l).map next := by
    apply List.map_congr_left
    intro a ha
    exact heq a (by rw [List.mem_append] at ha ⊢; exact ha.symm)
  rw [cyclic_cons, List.cons_append, List.map_cons, hx, hy, hrest, hfrom]
  rfl

theorem Cyclic.erase (h : Cyclic next (l ++ x :: y :: l')) (hx : next' x = next y)
    (heq : ∀ a ∈ l ++ l', next' a = next a) : Cyclic next' (l ++ x :: l') := by
  apply Cyclic.back
  have hfrom := cyclic_cons.mp h.from
  rw [List.cons_append, List.map_cons, List.cons_append, List.cons.injEq] at hfrom
  have hrest : (l' ++ l).map next' = (l' ++ l).map next := by
    apply List.map_congr_left
    intro a ha
    exact heq a (by rw [List.mem_append] at ha ⊢; exact ha.symm)
  rw [cyclic_cons, hx, hrest]
  exact hfrom.2

theorem Cyclic.next_eq (h : Cyclic next (l ++ x :: y :: l')) : next x = y := by
  have hfrom := cyclic_cons.mp h.from
  rw [List.cons_append, List.cons_append, List.cons.injEq] at hfrom
  exact hfrom.1

theorem isChain_of_map {z : α} (h : next x :: l.map next = l ++ [z]) :
    List.IsChain (fun a b => next a = b) (x :: (l ++ [z])) := by
  induction l generalizing x with
  | nil => simpa using h
  | cons y l ih =>
    rw [List.map_cons, List.cons_append, List.cons.injEq] at h
    rw [List.cons_append, List.isChain_cons_cons]
    exact ⟨h.1, ih h.2⟩

theorem Cyclic.next_inj (h : Cyclic next l) (hnodup : l.Nodup) :
    ∀ a ∈ l, ∀ b ∈ l, next a = next b → a = b := by
  intro a ha b hb
  apply List.inj_on_of_nodup_map _ ha hb
  rw [h]
  exact List.nodup_rotate.mpr hnodup

theorem Cyclic.isChain (h : Cyclic next (x :: l)) :
    List.IsChain (fun a b => next a = b) (x :: (l ++ [x])) := isChain_of_map (cyclic_cons.mp h)

-- The first node from a on that passes the test.
def seek (next : α → α) (test : α → Bool) : Nat → α → Option α
  | 0, _ => none
  | fuel + 1, a => if test a then some a else seek next test fuel (next a)

theorem seek_mono {test : α → Bool} {fuel fuel' : Nat} (hf : fuel ≤ fuel')
    (h : seek next test fuel x = some y) : seek next test fuel' x = some y := by
  induction fuel generalizing fuel' x with
  | zero => cases h
  | succ fuel ih =>
    obtain ⟨fuel', rfl⟩ : ∃ n, fuel' = n + 1 := ⟨fuel' - 1, by omega⟩
    rw [seek] at h ⊢
    split
    · rwa [if_pos (by assumption)] at h
    · rw [if_neg (by assumption)] at h
      exact ih (by omega) h

theorem seek_isChain {test : α → Bool} {fuel : Nat}
    (h : List.IsChain (fun a b => next a = b) (x :: l)) (htest : ∃ a ∈ x :: l, test a = true)
    (hf : l.length < fuel) : seek next test fuel x = (x :: l).find? test := by
  induction l generalizing x fuel with
  | nil =>
    obtain ⟨fuel, rfl⟩ := Nat.exists_eq_add_of_lt hf
    obtain ⟨a, ha, hpass⟩ := htest
    rw [List.mem_singleton.mp ha] at hpass
    simp [seek, hpass]
  | cons y l ih =>
    obtain ⟨fuel, rfl⟩ : ∃ n, fuel = n + 1 := ⟨fuel - 1, by omega⟩
    rw [List.isChain_cons_cons] at h
    rw [seek]
    by_cases hx : test x = true
    · rw [if_pos hx, List.find?_cons_of_pos hx]
    · rw [if_neg hx, List.find?_cons_of_neg hx, h.1]
      obtain ⟨a, ha, hpass⟩ := htest
      have ha : a ∈ y :: l := by
        rcases List.mem_cons.mp ha with rfl | ha
        · exact absurd hpass hx
        · exact ha
      apply ih h.2 ⟨a, ha, hpass⟩
      simpa using hf

theorem Cyclic.seek_mem (h : Cyclic next l) (hx : x ∈ l) (test : α → Bool) {fuel : Nat}
    (htest : ∃ a ∈ l, test a = true) (hf : l.length ≤ fuel) :
    ∃ a ∈ l, seek next test fuel x = some a ∧ test a = true := by
  obtain ⟨l₁, l₂, rfl⟩ := List.append_of_mem hx
  have hperm : ∀ a, a ∈ x :: (l₂ ++ l₁) ↔ a ∈ l₁ ++ x :: l₂ := by
    intro a
    simp only [List.mem_cons, List.mem_append]
    tauto
  have hchain := h.from.isChain
  rw [← List.cons_append] at hchain
  obtain ⟨a, ha, hpass⟩ := htest
  have hlen : (l₂ ++ l₁).length < fuel := by
    simp only [List.length_append, List.length_cons] at hf ⊢
    omega
  have hseek := seek_isChain hchain.left_of_append ⟨a, (hperm a).mpr ha, hpass⟩ hlen
  cases hfind : (x :: (l₂ ++ l₁)).find? test with
  | none => exact absurd hpass (List.find?_eq_none.mp hfind a ((hperm a).mpr ha))
  | some b =>
    exact ⟨b, (hperm b).mp (List.mem_of_find?_eq_some hfind), hseek.trans hfind,
      List.find?_some hfind⟩

end Xv6.Lib
