import Xv6.Lib.Rely

namespace Xv6.Lib

variable {σ ℓ α β : Type}

namespace Prog

theorem trace_bind_ret (m : Prog σ ℓ α) (f : α → β) (s : σ) :
    (m >>= fun a => ret (f a)).trace s = m.trace s := by
  induction m generalizing s with
  | ret a => rfl
  | panic msg => rfl
  | act lbl upd next ih =>
    rw [act_bind, trace, trace]
    cases upd s with
    | none => rfl
    | some t => exact congrArg _ (ih s t)

end Prog

-- The states between calls that run one after the other, each one to its end.
inductive Serial (calls : Nat → σ → Prog σ ℓ Unit → Prop) (start : σ) : List (ℓ × σ) → σ → Prop
  | init : Serial calls start [] start
  | call {hist : List (ℓ × σ)} {s t : σ} {p : Nat} {q : Prog σ ℓ Unit}
      (h : Serial calls start hist s) (hq : calls p s q) (hr : q.run s = .done t ()) :
      Serial calls start (hist ++ q.trace s) t

-- What is said of programs that run alone: what is assumed of the state that an
-- action finds, what is to be shown of it, the panics that may happen, and
-- whether an action may find that it has to wait.
structure Spec (σ ℓ : Type) where
  ok : ℓ → σ → Prop
  must : ℓ → σ → Prop
  panics : String → Prop
  waits : Prop

namespace Spec

-- Programs that return.
def total (σ ℓ : Type) : Spec σ ℓ := ⟨fun _ _ => True, fun _ _ => True, fun _ => False, False⟩

variable (C : Spec σ ℓ)

def Wp (Q : α → σ → Prop) : Prog σ ℓ α → σ → Prop
  | .ret a, s => Q a s
  | .panic msg, _ => C.panics msg
  | .act lbl upd next, s => C.ok lbl s → C.must lbl s ∧ (upd s = none → C.waits) ∧
      ∀ t, upd s = some t → Wp Q (next s) t

variable {C}

theorem Wp.mono {Q R : α → σ → Prop} {m : Prog σ ℓ α} {s : σ} (h : C.Wp Q m s)
    (hQ : ∀ a t, Q a t → R a t) : C.Wp R m s := by
  induction m generalizing s with
  | ret a => exact hQ a s h
  | panic msg => exact h
  | act lbl upd next ih =>
    exact fun hok => ⟨(h hok).1, (h hok).2.1, fun t ht => ih s ((h hok).2.2 t ht)⟩

theorem Wp.and {Q R : α → σ → Prop} {m : Prog σ ℓ α} {s : σ} (h : C.Wp Q m s)
    (h' : C.Wp R m s) : C.Wp (fun a t => Q a t ∧ R a t) m s := by
  induction m generalizing s with
  | ret a => exact ⟨h, h'⟩
  | panic msg => exact h
  | act lbl upd next ih =>
    exact fun hok => ⟨(h hok).1, (h hok).2.1,
      fun t ht => ih s ((h hok).2.2 t ht) ((h' hok).2.2 t ht)⟩

theorem Wp.weaken {D : Spec σ ℓ} {Q : α → σ → Prop} {m : Prog σ ℓ α} {s : σ} (h : C.Wp Q m s)
    (hok : ∀ lbl s, D.ok lbl s → C.ok lbl s) (hmust : ∀ lbl s, C.must lbl s → D.must lbl s)
    (hpanics : ∀ msg, C.panics msg → D.panics msg) (hwaits : C.waits → D.waits) :
    D.Wp Q m s := by
  induction m generalizing s with
  | ret a => exact h
  | panic msg => exact hpanics msg h
  | act lbl upd next ih =>
    intro hD
    obtain ⟨hC, hwait, hnext⟩ := h (hok lbl s hD)
    exact ⟨hmust lbl s hC, fun hnone => hwaits (hwait hnone), fun t ht => ih s (hnext t ht)⟩

theorem Wp.bind {Q : α → σ → Prop} {R : β → σ → Prop} {m : Prog σ ℓ α}
    {k : α → Prog σ ℓ β} {s : σ} (h : C.Wp Q m s)
    (hk : ∀ a t, Q a t → C.Wp R (k a) t) : C.Wp R (m >>= k) s := by
  induction m generalizing s with
  | ret a => exact hk a s h
  | panic msg => exact h
  | act lbl upd next ih =>
    exact fun hok => ⟨(h hok).1, (h hok).2.1, fun t ht => ih s ((h hok).2.2 t ht)⟩

theorem Wp.modify {Q : Unit → σ → Prop} {lbl : ℓ} {f : σ → σ} {s : σ}
    (h : C.ok lbl s → C.must lbl s ∧ Q () (f s)) : C.Wp Q (.modify lbl f) s := by
  intro hok
  refine ⟨(h hok).1, (fun hnone => by cases hnone), fun t ht => ?_⟩
  cases ht
  exact (h hok).2

theorem Wp.look {Q : α → σ → Prop} {lbl : ℓ} {f : σ → α} {s : σ}
    (h : C.ok lbl s → C.must lbl s ∧ Q (f s) s) : C.Wp Q (.look lbl f) s := by
  intro hok
  refine ⟨(h hok).1, (fun hnone => by cases hnone), fun t ht => ?_⟩
  cases ht
  exact (h hok).2

theorem Wp.atomic {Q : α → σ → Prop} {lbl : ℓ} {f : σ → σ × Except String α} {s : σ}
    (h : C.ok lbl s → C.must lbl s ∧ (∀ a, (f s).2 = .ok a → Q a (f s).1) ∧
      ∀ msg, (f s).2 = .error msg → C.panics msg) : C.Wp Q (.atomic lbl f) s := by
  intro hok
  obtain ⟨hmust, hQ, hpanic⟩ := h hok
  refine ⟨hmust, (fun hnone => by cases hnone), fun t ht => ?_⟩
  cases ht
  dsimp only
  split
  · rename_i a hf
    exact hQ a hf
  · rename_i msg hf
    exact hpanic msg hf

theorem Wp.modify_bind {R : β → σ → Prop} {lbl : ℓ} {f : σ → σ} {k : Unit → Prog σ ℓ β} {s : σ}
    (h : C.ok lbl s → C.must lbl s ∧ C.Wp R (k ()) (f s)) : C.Wp R (.modify lbl f >>= k) s :=
  .bind (Q := fun _ t => C.Wp R (k ()) t) (.modify h) fun _ _ ht => ht

theorem Wp.look_bind {R : β → σ → Prop} {lbl : ℓ} {f : σ → α} {k : α → Prog σ ℓ β} {s : σ}
    (h : C.ok lbl s → C.must lbl s ∧ C.Wp R (k (f s)) s) : C.Wp R (.look lbl f >>= k) s :=
  .bind (Q := fun a t => C.Wp R (k a) t) (.look h) fun _ _ ht => ht

theorem Wp.atomic_bind {R : β → σ → Prop} {lbl : ℓ} {f : σ → σ × Except String α}
    {k : α → Prog σ ℓ β} {s : σ}
    (h : C.ok lbl s → C.must lbl s ∧ (∀ a, (f s).2 = .ok a → C.Wp R (k a) (f s).1) ∧
      ∀ msg, (f s).2 = .error msg → C.panics msg) : C.Wp R (.atomic lbl f >>= k) s :=
  .bind (Q := fun a t => C.Wp R (k a) t) (.atomic h) fun _ _ ht => ht

theorem Wp.wait_bind {R : β → σ → Prop} {lbl : ℓ} {upd : σ → Option σ} {k : Unit → Prog σ ℓ β}
    {s : σ} (h : C.ok lbl s → C.must lbl s ∧ (upd s = none → C.waits) ∧
      ∀ t, upd s = some t → C.Wp R (k ()) t) :
    C.Wp R (.act lbl upd (fun _ => .ret ()) >>= k) s := h

theorem Wp.done {Q : α → σ → Prop} {m : Prog σ ℓ α} {s t : σ} {a : α} (h : C.Wp Q m s)
    (hok : ∀ e ∈ m.trace s, C.ok e.1 e.2) (hr : m.run s = .done t a) : Q a t := by
  induction m generalizing s with
  | ret b =>
    cases hr
    exact h
  | panic msg => cases hr
  | act lbl upd next ih =>
    rw [Prog.run] at hr
    cases hu : upd s with
    | none => simp [hu] at hr
    | some u =>
      rw [hu] at hr
      rw [Prog.trace, hu] at hok
      have hlbl := hok _ (List.mem_cons_self ..)
      exact ih s ((h hlbl).2.2 u hu) (fun e he => hok e (List.mem_cons_of_mem _ he)) hr

theorem Wp.panic {Q : α → σ → Prop} {m : Prog σ ℓ α} {s : σ} {msg : String}
    (h : C.Wp Q m s) (hok : ∀ e ∈ m.trace s, C.ok e.1 e.2) (hr : m.run s = .panic msg) :
    C.panics msg := by
  induction m generalizing s with
  | ret b => cases hr
  | panic msg' =>
    cases hr
    exact h
  | act lbl upd next ih =>
    rw [Prog.run] at hr
    cases hu : upd s with
    | none => simp [hu] at hr
    | some u =>
      rw [hu] at hr
      rw [Prog.trace, hu] at hok
      have hlbl := hok _ (List.mem_cons_self ..)
      exact ih s ((h hlbl).2.2 u hu) (fun e he => hok e (List.mem_cons_of_mem _ he)) hr

theorem Wp.must_of_first {Q : α → σ → Prop} {m : Prog σ ℓ α} {s : σ} {l : List (ℓ × σ)}
    (h : C.Wp Q m s) (hl : l <+: m.trace s) (hok : ∀ e ∈ l, C.ok e.1 e.2) :
    ∀ e ∈ l, C.must e.1 e.2 := by
  induction m generalizing s l with
  | ret b =>
    rw [List.prefix_nil.mp hl]
    simp
  | panic msg =>
    rw [List.prefix_nil.mp hl]
    simp
  | act lbl upd next ih =>
    cases l with
    | nil => simp
    | cons x rest =>
      rw [Prog.trace, List.cons_prefix_cons] at hl
      obtain ⟨rfl, hrest⟩ := hl
      have hlbl := h (hok _ (List.mem_cons_self ..))
      intro e he
      rcases List.mem_cons.mp he with rfl | he
      · exact hlbl.1
      · cases hu : upd s with
        | none =>
          rw [hu] at hrest
          rw [List.prefix_nil.mp hrest] at he
          cases he
        | some u =>
          rw [hu] at hrest
          exact ih s (hlbl.2.2 u hu) hrest (fun e he => hok e (List.mem_cons_of_mem _ he)) e he

theorem Wp.must {Q : α → σ → Prop} {m : Prog σ ℓ α} {s : σ} (h : C.Wp Q m s)
    (hok : ∀ e ∈ m.trace s, C.ok e.1 e.2) : ∀ e ∈ m.trace s, C.must e.1 e.2 :=
  h.must_of_first (List.prefix_refl _) hok

theorem Wp.returns {Q : α → σ → Prop} {m : Prog σ ℓ α} {s : σ}
    (h : (total σ ℓ).Wp Q m s) : ∃ t a, m.run s = .done t a ∧ Q a t := by
  induction m generalizing s with
  | ret a => exact ⟨s, a, rfl, h⟩
  | panic msg => exact h.elim
  | act lbl upd next ih =>
    obtain ⟨-, hwait, hnext⟩ := h trivial
    cases hu : upd s with
    | none => exact (hwait hu).elim
    | some t =>
      obtain ⟨u, a, hrun, hQ⟩ := ih s (hnext t hu)
      exact ⟨u, a, by rw [Prog.run, hu]; exact hrun, hQ⟩

theorem serial {calls : Nat → σ → Prog σ ℓ Unit → Prop} {inv : σ → Prop} {start s : σ}
    {hist : List (ℓ × σ)} (h : Serial calls start hist s)
    (hcall : ∀ p s q, inv s → calls p s q → C.Wp (fun _ => inv) q s) (hstart : inv start)
    (hok : ∀ e ∈ hist, C.ok e.1 e.2) : inv s ∧ ∀ e ∈ hist, C.must e.1 e.2 := by
  induction h with
  | init => exact ⟨hstart, by simp⟩
  | @call hist s t p q _ hq hr ih =>
    obtain ⟨hs, hmust⟩ := ih fun e he => hok e (List.mem_append_left _ he)
    have hok' : ∀ e ∈ q.trace s, C.ok e.1 e.2 := fun e he => hok e (List.mem_append_right _ he)
    have hwp := hcall p s q hs hq
    refine ⟨hwp.done hok' hr, fun e he => ?_⟩
    rcases List.mem_append.mp he with he | he
    · exact hmust e he
    · exact hwp.must hok' e he

end Spec

namespace Prog

-- What the program returns, whatever it finds, is one that P allows.
def Yields (P : α → Prop) : Prog σ ℓ α → Prop
  | ret a => P a
  | panic _ => True
  | act _ _ next => ∀ s, (next s).Yields P

theorem Yields.bind {Q : α → Prop} {P : β → Prop} {m : Prog σ ℓ α} {k : α → Prog σ ℓ β}
    (hm : m.Yields Q) (hk : ∀ a, Q a → (k a).Yields P) : (m >>= k).Yields P := by
  induction m with
  | ret a => exact hk a hm
  | panic msg => trivial
  | act lbl upd next ih => exact fun s => ih s (hm s)

theorem Yields.always (m : Prog σ ℓ α) : m.Yields fun _ => True := by
  induction m with
  | ret a => trivial
  | panic msg => trivial
  | act lbl upd next ih => exact ih

theorem Yields.wp {C : Spec σ ℓ} {P : α → Prop} {Q : α → σ → Prop} {m : Prog σ ℓ α} {s : σ}
    (hm : m.Yields P) (h : C.Wp Q m s) : C.Wp (fun a t => Q a t ∧ P a) m s := by
  induction m generalizing s with
  | ret a => exact ⟨h, hm⟩
  | panic msg => exact h
  | act lbl upd next ih =>
    exact fun hok => ⟨(h hok).1, (h hok).2.1, fun t ht => ih s (hm s) ((h hok).2.2 t ht)⟩

-- Every action of the program runs and is one that φ allows, and every panic is
-- one that ψ allows.
def Steady (φ : ℓ → σ → σ → Prop) (ψ : String → Prop) : Prog σ ℓ α → Prop
  | ret _ => True
  | panic msg => ψ msg
  | act lbl upd next => ∀ s, ∃ t, upd s = some t ∧ φ lbl s t ∧ (next s).Steady φ ψ

variable {φ : ℓ → σ → σ → Prop} {ψ : String → Prop}

theorem Steady.bind {m : Prog σ ℓ α} {k : α → Prog σ ℓ β} (hm : m.Steady φ ψ)
    (hk : ∀ a, (k a).Steady φ ψ) : (m >>= k).Steady φ ψ := by
  induction m with
  | ret a => exact hk a
  | panic msg => exact hm
  | act lbl upd next ih =>
    intro s
    obtain ⟨t, ht, hφ, hnext⟩ := hm s
    exact ⟨t, ht, hφ, ih s hnext⟩

theorem Steady.atomic {lbl : ℓ} {f : σ → σ × Except String α} (h : ∀ s, φ lbl s (f s).1)
    (hpanic : ∀ s msg, (f s).2 = .error msg → ψ msg) : (Prog.atomic lbl f).Steady φ ψ := by
  intro s
  refine ⟨(f s).1, rfl, h s, ?_⟩
  dsimp only
  split
  · trivial
  · rename_i msg hf
    exact hpanic s msg hf

theorem Steady.modify {lbl : ℓ} {f : σ → σ} (h : ∀ s, φ lbl s (f s)) :
    (Prog.modify lbl f).Steady φ ψ :=
  fun s => ⟨f s, rfl, h s, trivial⟩

theorem Steady.look {lbl : ℓ} {f : σ → α} (h : ∀ s, φ lbl s s) :
    (Prog.look lbl f).Steady φ ψ :=
  fun s => ⟨s, rfl, h s, trivial⟩

theorem Steady.wp {C : Spec σ ℓ} {m : Prog σ ℓ α} {P : σ → Prop} {s : σ} (hm : m.Steady φ ψ)
    (hpanic : ∀ msg, ψ msg → C.panics msg)
    (hP : ∀ lbl s t, P s → C.ok lbl s → φ lbl s t → C.must lbl s ∧ P t) (hs : P s) :
    C.Wp (fun _ => P) m s := by
  induction m generalizing s with
  | ret a => exact hs
  | panic msg => exact hpanic msg hm
  | act lbl upd next ih =>
    intro hok
    obtain ⟨t, ht, hφ, hnext⟩ := hm s
    obtain ⟨hmust, hPt⟩ := hP lbl s t hs hok hφ
    refine ⟨hmust, fun hnone => ?_, fun t' ht' => ?_⟩
    · rw [ht] at hnone
      cases hnone
    · rw [ht] at ht'
      cases ht'
      exact ih s hnext hPt

end Prog

end Xv6.Lib
