import Mathlib.Data.List.Nodup
import Mathlib.Logic.Function.Basic

namespace Xv6.Lib

-- An allocator of the blocks below hi, where those below lo are never free. A
-- used block has at most one owner. A loose block has none: it is on its way
-- from the allocator to an owner or back. With exact, no block is leaked.
structure Alloc {ω : Type} (lo hi : Nat) (exact : Prop) (used : Nat → Bool)
    (own : ω → Nat → Prop) (loose : List Nat) : Prop where
  low : ∀ b, b < lo → used b = true
  owned : ∀ o b, own o b → lo ≤ b ∧ b < hi ∧ used b = true
  inj : ∀ o o' b, own o b → own o' b → o = o'
  nodup : loose.Nodup
  apart : ∀ b ∈ loose, lo ≤ b ∧ b < hi ∧ used b = true ∧ ∀ o, ¬ own o b
  all : exact → ∀ b, b < hi → used b = true → b < lo ∨ b ∈ loose ∨ ∃ o, own o b

namespace Alloc

variable {ω : Type} {lo hi : Nat} {exact : Prop} {used : Nat → Bool} {own own' : ω → Nat → Prop}
  {loose : List Nat} {b : Nat}

theorem not_owned (h : Alloc lo hi exact used own loose) (hb : used b = false) (o : ω) :
    ¬ own o b := by
  intro ho
  rw [(h.owned o b ho).2.2] at hb
  cases hb

theorem lo_le (h : Alloc lo hi exact used own loose) (hb : used b = false) : lo ≤ b := by
  by_contra hlt
  rw [h.low b (by omega)] at hb
  cases hb

theorem congr (h : Alloc lo hi exact used own loose) (hown : ∀ o b, own' o b ↔ own o b) :
    Alloc lo hi exact used own' loose := by
  have heq : own' = own := by
    funext o b
    exact propext (hown o b)
  rw [heq]
  exact h

theorem take (h : Alloc lo hi exact used own loose) (hfree : used b = false) (hb : b < hi) :
    Alloc lo hi exact (Function.update used b true) own (b :: loose) := by
  have hmono : ∀ c, used c = true → Function.update used b true c = true := by
    intro c hc
    by_cases hcb : c = b
    · rw [hcb, Function.update_self]
    · rw [Function.update_of_ne hcb, hc]
  have hnew : b ∉ loose := by
    intro hmem
    rw [(h.apart b hmem).2.2.1] at hfree
    cases hfree
  refine ⟨fun c hc => hmono c (h.low c hc), fun o c ho => ?_, h.inj, ?_, fun c hc => ?_, ?_⟩
  · obtain ⟨h1, h2, h3⟩ := h.owned o c ho
    exact ⟨h1, h2, hmono c h3⟩
  · exact List.nodup_cons.mpr ⟨hnew, h.nodup⟩
  · rcases List.mem_cons.mp hc with rfl | hc
    · exact ⟨h.lo_le hfree, hb, Function.update_self .., h.not_owned hfree⟩
    · obtain ⟨h1, h2, h3, h4⟩ := h.apart c hc
      exact ⟨h1, h2, hmono c h3, h4⟩
  · intro hexact c hc hused
    by_cases hcb : c = b
    · exact .inr (.inl (by simp [hcb]))
    · rw [Function.update_of_ne hcb] at hused
      rcases h.all hexact c hc hused with hlow | hmem | ho
      · exact .inl hlow
      · exact .inr (.inl (List.mem_cons_of_mem _ hmem))
      · exact .inr (.inr ho)

-- A loose block goes to an owner that has none.
theorem attach (h : Alloc lo hi exact used own (b :: loose)) (o : ω)
    (hnone : ∀ c, ¬ own o c) (hown : ∀ o' c, own' o' c ↔ own o' c ∨ (o' = o ∧ c = b)) :
    Alloc lo hi exact used own' loose := by
  obtain ⟨hlo, hhi, hused, hapart⟩ := h.apart b (List.mem_cons_self ..)
  obtain ⟨hb, hnodup⟩ := List.nodup_cons.mp h.nodup
  refine ⟨h.low, fun o' c ho => ?_, fun o₁ o₂ c h1 h2 => ?_, hnodup, fun c hc => ?_, ?_⟩
  · rcases (hown o' c).mp ho with ho | ⟨-, rfl⟩
    · exact h.owned o' c ho
    · exact ⟨hlo, hhi, hused⟩
  · rcases (hown o₁ c).mp h1 with h1 | ⟨rfl, rfl⟩
    · rcases (hown o₂ c).mp h2 with h2 | ⟨rfl, rfl⟩
      · exact h.inj o₁ o₂ c h1 h2
      · exact absurd h1 (hapart o₁)
    · rcases (hown o₂ c).mp h2 with h2 | ⟨rfl, -⟩
      · exact absurd h2 (hapart o₂)
      · rfl
  · obtain ⟨h1, h2, h3, h4⟩ := h.apart c (List.mem_cons_of_mem _ hc)
    refine ⟨h1, h2, h3, fun o' ho => ?_⟩
    rcases (hown o' c).mp ho with ho | ⟨-, rfl⟩
    · exact h4 o' ho
    · exact hb hc
  · intro hexact c hc hcused
    rcases h.all hexact c hc hcused with hlow | hmem | ⟨o', ho⟩
    · exact .inl hlow
    · rcases List.mem_cons.mp hmem with rfl | hmem
      · exact .inr (.inr ⟨o, (hown o c).mpr (.inr ⟨rfl, rfl⟩)⟩)
      · exact .inr (.inl hmem)
    · exact .inr (.inr ⟨o', (hown o' c).mpr (.inl ho)⟩)

theorem detach (h : Alloc lo hi exact used own loose) {bs : List Nat}
    (hsub : ∀ o c, own' o c → own o c) (hnodup : bs.Nodup)
    (hbs : ∀ c, c ∈ bs ↔ ∃ o, own o c ∧ ¬ own' o c) :
    Alloc lo hi exact used own' (bs ++ loose) := by
  refine ⟨h.low, fun o c ho => h.owned o c (hsub o c ho),
    fun o o' c h1 h2 => h.inj o o' c (hsub o c h1) (hsub o' c h2), ?_, fun c hc => ?_, ?_⟩
  · refine List.nodup_append'.mpr ⟨hnodup, h.nodup, fun c h1 h2 => ?_⟩
    obtain ⟨o, ho, -⟩ := (hbs c).mp h1
    exact (h.apart c h2).2.2.2 o ho
  · rcases List.mem_append.mp hc with hc | hc
    · obtain ⟨o, ho, hno⟩ := (hbs c).mp hc
      obtain ⟨h1, h2, h3⟩ := h.owned o c ho
      refine ⟨h1, h2, h3, fun o' ho' => ?_⟩
      rw [h.inj o' o c (hsub o' c ho') ho] at ho'
      exact hno ho'
    · obtain ⟨h1, h2, h3, h4⟩ := h.apart c hc
      exact ⟨h1, h2, h3, fun o ho => h4 o (hsub o c ho)⟩
  · intro hexact c hc hcused
    rcases h.all hexact c hc hcused with hlow | hmem | ⟨o, ho⟩
    · exact .inl hlow
    · exact .inr (.inl (List.mem_append_right _ hmem))
    · by_cases ho' : own' o c
      · exact .inr (.inr ⟨o, ho'⟩)
      · exact .inr (.inl (List.mem_append_left _ ((hbs c).mpr ⟨o, ho, ho'⟩)))

theorem free (h : Alloc lo hi exact used own (b :: loose)) :
    Alloc lo hi exact (Function.update used b false) own loose := by
  obtain ⟨hlo, -, -, hapart⟩ := h.apart b (List.mem_cons_self ..)
  obtain ⟨hb, hnodup⟩ := List.nodup_cons.mp h.nodup
  refine ⟨fun c hc => ?_, fun o c ho => ?_, h.inj, hnodup, fun c hc => ?_, ?_⟩
  · rw [Function.update_of_ne (by omega)]
    exact h.low c hc
  · have hcb : c ≠ b := fun hcb => hapart o (hcb ▸ ho)
    rw [Function.update_of_ne hcb]
    exact h.owned o c ho
  · have hcb : c ≠ b := fun hcb => hb (hcb ▸ hc)
    rw [Function.update_of_ne hcb]
    exact h.apart c (List.mem_cons_of_mem _ hc)
  · intro hexact c hc hcused
    by_cases hcb : c = b
    · rw [hcb, Function.update_self] at hcused
      cases hcused
    · rw [Function.update_of_ne hcb] at hcused
      rcases h.all hexact c hc hcused with hlow | hmem | ho
      · exact .inl hlow
      · exact .inr (.inl ((List.mem_cons.mp hmem).resolve_left hcb))
      · exact .inr (.inr ho)

end Alloc

end Xv6.Lib
