import Mathlib.Logic.Function.Basic

namespace Xv6.Lib

-- Processors that share data, each one at a point of its code.
structure Machine (σ L : Type) where
  data : σ
  pc : Nat → L

namespace Machine

variable {σ L α : Type}

-- Processor c takes a step from point l of its code to the next one, with what
-- its environment chooses. There is none while it has to wait.
abbrev Step (σ L α : Type) := Nat → L → α → σ → Option (σ × L)

def goto (s : Machine σ L) (c : Nat) (r : σ × L) : Machine σ L :=
  ⟨r.1, Function.update s.pc c r.2⟩

def next (step : Step σ L α) (s : Machine σ L) (c : Nat) (a : α) : Option (Machine σ L) :=
  (step c (s.pc c) a s.data).map (s.goto c)

theorem next_eq {step : Step σ L α} {s t : Machine σ L} {c : Nat} {a : α}
    (h : s.next step c a = some t) :
    ∃ d l, step c (s.pc c) a s.data = some (d, l) ∧ t = s.goto c (d, l) := by
  obtain ⟨⟨d, l⟩, hstep, rfl⟩ := Option.map_eq_some_iff.mp h
  exact ⟨d, l, hstep, rfl⟩

@[simp] theorem goto_data (s : Machine σ L) (c : Nat) (r : σ × L) : (s.goto c r).data = r.1 := rfl

@[simp] theorem goto_pc_self (s : Machine σ L) (c : Nat) (r : σ × L) : (s.goto c r).pc c = r.2 := by
  simp [goto]

theorem goto_pc_other (s : Machine σ L) {c c' : Nat} (r : σ × L) (h : c' ≠ c) :
    (s.goto c r).pc c' = s.pc c' := by
  simp [goto, h]

-- The states that the interleavings with steps allowed by ok reach from start.
inductive Reach (step : Step σ L α) (ok : Machine σ L → Nat → α → Prop) (start : Machine σ L) :
    Machine σ L → Prop
  | init : Reach step ok start start
  | next {s t : Machine σ L} (c : Nat) (a : α) (h : Reach step ok start s) (hok : ok s c a)
      (ht : s.next step c a = some t) : Reach step ok start t

theorem Reach.goto {step : Step σ L α} {ok : Machine σ L → Nat → α → Prop}
    {start s : Machine σ L} {c : Nat} {a : α} {r : σ × L} (h : Reach step ok start s)
    (hok : ok s c a) (hr : step c (s.pc c) a s.data = some r) :
    Reach step ok start (s.goto c r) :=
  h.next c a hok (by rw [Machine.next, hr, Option.map_some])

-- The steps of a list, if each one passes the check.
def run (step : Step σ L α) (check : Machine σ L → Nat → α → Bool) :
    List (Nat × α) → Machine σ L → Option (Machine σ L)
  | [], s => some s
  | (c, a) :: rest, s =>
    if check s c a then (s.next step c a).bind (run step check rest) else none

theorem Reach.of_run {step : Step σ L α} {ok : Machine σ L → Nat → α → Prop}
    {check : Machine σ L → Nat → α → Bool} {start s t : Machine σ L} (steps : List (Nat × α))
    (h : Reach step ok start s)
    (hcheck : ∀ s c a, Reach step ok start s → check s c a = true → ok s c a)
    (hr : s.run step check steps = some t) : Reach step ok start t := by
  induction steps generalizing s with
  | nil =>
    cases hr
    exact h
  | cons e rest ih =>
    rw [run] at hr
    split at hr
    · rename_i hok
      obtain ⟨u, hu, hr⟩ := Option.bind_eq_some_iff.mp hr
      exact ih (h.next e.1 e.2 (hcheck _ _ _ h hok) hu) hr
    · cases hr

theorem Reach.exists_run {step : Step σ L α} {ok : Machine σ L → Nat → α → Prop}
    (check : Machine σ L → Nat → α → Bool) {start : Machine σ L} (steps : List (Nat × α))
    {last : Machine σ L → Bool}
    (hcheck : ∀ s c a, Reach step ok start s → check s c a = true → ok s c a)
    (hr : (start.run step check steps).any last = true) :
    ∃ t, Reach step ok start t ∧ last t = true := by
  obtain ⟨t, ht, hlast⟩ := (Option.any_eq_true _ _).mp hr
  exact ⟨t, .of_run steps .init hcheck ht, hlast⟩

theorem Reach.invariant {step : Step σ L α} {ok : Machine σ L → Nat → α → Prop}
    {start s : Machine σ L} {J : Machine σ L → Prop} (h : Reach step ok start s)
    (hstart : J start)
    (hnext : ∀ s t c a, Reach step ok start s → J s → ok s c a → s.next step c a = some t → J t) :
    J s := by
  induction h with
  | init => exact hstart
  | next c a hs hok ht ih => exact hnext _ _ c a hs ih hok ht

-- A proof outline: what holds of the data, and what processor c knows of them
-- at each point of its code.
structure Outlined (inv : σ → Prop) (knows : Nat → L → σ → Prop) (s : Machine σ L) : Prop where
  inv : inv s.data
  knows : ∀ c, knows c (s.pc c) s.data

theorem Outlined.goto {inv : σ → Prop} {knows : Nat → L → σ → Prop} {s : Machine σ L} {c : Nat}
    {d : σ} {l : L} (h : Outlined inv knows s) (hinv : inv d) (hown : knows c l d)
    (hothers : ∀ c', c' ≠ c → knows c' (s.pc c') s.data → knows c' (s.pc c') d) :
    Outlined inv knows (s.goto c (d, l)) := by
  refine ⟨hinv, fun c' => ?_⟩
  by_cases hc : c' = c
  · subst hc
    rw [goto_pc_self]
    exact hown
  · rw [goto_pc_other s _ hc]
    exact hothers c' hc (h.knows c')

end Machine

end Xv6.Lib
