import Xv6.Lib.Monitor.Outline

namespace Xv6.Lib.Monitor

variable {σ L C α : Type}

-- The code pays its wakeups: a step that makes the condition of a channel
-- false leaves the process owing a wakeup on it, and the process gives the
-- lock up only when it owes none.
structure Pays (code : L → Instr σ L C α) (ok : L → α → Bool → Bool) (holds : L → Bool)
    (pre : L → σ → Prop) (cond : C → σ → Prop) (owes : L → C → Prop) : Prop where
  release : ∀ {l next}, code l = .release next → ∀ c, ¬ owes l c
  sleep : ∀ {l c next}, code l = .sleep c next → ∀ c', ¬ owes l c'
  act : ∀ {l f}, code l = .act f → holds l = true → ∀ {a k d d' next}, ok l a k → pre l d →
    f a d = some (d', next) → ∀ c, cond c d ∨ owes l c → cond c d' ∨ owes next c
  killed : ∀ {l yes no}, code l = .killed yes no → ∀ {a} c, owes l c →
    (ok l a true → owes yes c) ∧ (ok l a false → owes no c)
  wakeup : ∀ {l c next}, code l = .wakeup c next → ∀ c', owes l c' → c' = c ∨ owes next c'

namespace Proc

-- SLEEPING or about to be, without the lock.
def Waits (pr : Proc L C) (c : C) : Prop := ∃ next, pr = .sched c next ∨ pr = .asleep c next

-- Before it gives the lock up, pr wakes process q if q waits on c.
def Owes (owes : L → C → Prop) (q : Nat) (c : C) : Proc L C → Prop
  | run l => owes l c
  | wake c' k next => (c' = c ∧ k ≤ q) ∨ owes next c
  | _ => False

end Proc

-- A process that waits does so for good reason, or will be woken.
def Waking (cond : C → σ → Prop) (owes : L → C → Prop) (s : Sys σ L C) : Prop :=
  ∀ q c, (s.proc q).Waits c →
    cond c s.data ∨ ∃ p, s.lock = some p ∧ (s.proc p).Owes owes q c

section

variable {nproc : Nat} {holds : L → Bool} {inv : σ → Prop} {pre : L → σ → Prop}
  {cond : C → σ → Prop} {owes : L → C → Prop} {s : Sys σ L C} {p : Nat}

theorem Waking.cond_of_lock_none (h : Waking cond owes s) (hl : s.lock = none) {q : Nat} {c : C}
    (hw : (s.proc q).Waits c) : cond c s.data := by
  rcases h q c hw with hc | ⟨p, hp, -⟩
  · exact hc
  · rw [hl] at hp
    cases hp

theorem Waking.cond_or_owes (h : Waking cond owes s) (hl : s.lock = some p) {pr : Proc L C}
    (hp : s.proc p = pr) {q : Nat} {c : C} (hw : (s.proc q).Waits c) :
    cond c s.data ∨ pr.Owes owes q c := by
  rcases h q c hw with hc | ⟨p', hp', ho⟩
  · exact .inl hc
  · rw [hl] at hp'
    cases hp'
    exact .inr (hp ▸ ho)

theorem Waking.goto (h : Waking cond owes s) {pr : Proc L C} (hl : s.lock ≠ some p)
    (hw : ∀ c, pr.Waits c → (s.proc p).Waits c) : Waking cond owes (s.goto p pr) := by
  intro q c hq
  have hq' : (s.proc q).Waits c := by
    by_cases hqp : q = p
    · rw [hqp, Sys.goto_self] at hq
      exact hqp ▸ hw c hq
    · rwa [Sys.goto_other s pr hqp] at hq
  rcases h q c hq' with hc | ⟨p', hp', ho⟩
  · exact .inl hc
  · refine .inr ⟨p', hp', ?_⟩
    rw [Sys.goto_other s pr (fun he : p' = p => hl (he ▸ hp'))]
    exact ho

theorem Proc.not_waits_run (l : L) (c : C) : ¬ (Proc.run l : Proc L C).Waits c := by
  rintro ⟨next, h | h⟩ <;> cases h

theorem Proc.not_waits_unlock (c' : C) (next : L) (c : C) :
    ¬ (Proc.unlock c' next : Proc L C).Waits c := by
  rintro ⟨next, h | h⟩ <;> cases h

theorem Proc.not_waits_wake (c' : C) (k : Nat) (next : L) (c : C) :
    ¬ (Proc.wake c' k next : Proc L C).Waits c := by
  rintro ⟨next, h | h⟩ <;> cases h

theorem Proc.not_waits_rouse (pr : Proc L C) (hl : pr.locked = false) (c : C) :
    ¬ pr.rouse.Waits c := by
  cases pr with
  | unlock | sched => cases hl
  | _ => rintro ⟨next, h | h⟩ <;> cases h

theorem Waking.hold (hl : s.lock = some p) {pr : Proc L C} {d : σ} (hw : ∀ c, ¬ pr.Waits c)
    (h : ∀ q c, q ≠ p → (s.proc q).Waits c → cond c d ∨ pr.Owes owes q c) :
    Waking cond owes ((s.setData d).goto p pr) := by
  intro q c hq
  by_cases hqp : q = p
  · rw [hqp, Sys.goto_self] at hq
    exact absurd hq (hw c)
  · rw [Sys.goto_other _ pr hqp] at hq
    rcases h q c hqp hq with hc | ho
    · exact .inl hc
    · refine .inr ⟨p, hl, ?_⟩
      rw [Sys.goto_self]
      exact ho

theorem Waking.kill (h : Waking cond owes s) (hout : Outlined nproc holds inv pre cond s)
    (hl : (s.proc p).locked = false) : Waking cond owes (s.goto p (s.proc p).rouse) := by
  by_cases hlock : s.lock = some p
  · have hsame : (s.proc p).rouse = s.proc p := by
      have hi := (hout.lock p).mp hlock
      cases hpr : s.proc p with
      | asleep => rw [hpr] at hi; cases hi
      | _ => rfl
    have hs : s.goto p (s.proc p).rouse = s := by
      rw [hsame, Sys.goto, Function.update_eq_self]
    rw [hs]
    exact h
  · exact h.goto hlock fun c hw => absurd hw (Proc.not_waits_rouse _ hl c)

variable [DecidableEq C] {code : L → Instr σ L C α} {ok : L → α → Bool → Bool}

theorem Waking.stepped (ho : Outline code ok holds inv pre cond)
    (hpay : Pays code ok holds pre cond owes) (hout : Outlined nproc holds inv pre cond s)
    (h : Waking cond owes s) {a : α} {t : Sys σ L C}
    (hs : Stepped code nproc s p a t) (hok : s.allowed ok (.step p a) = true) : Waking cond owes t := by
  cases hs with
  | @acquire l next hpr hc hl | @woken next hpr hl =>
    intro q c hq
    refine .inl (h.cond_of_lock_none hl (q := q) ?_)
    by_cases hqp : q = p
    · rw [hqp, Sys.goto_self] at hq
      exact absurd hq (Proc.not_waits_run _ _)
    · rwa [Sys.goto_other _ _ hqp] at hq
  | @release l next hpr hc =>
    have hlock := hout.lock_of_inside hpr (ho.release hc).1
    intro q c hq
    by_cases hqp : q = p
    · rw [hqp, Sys.goto_self] at hq
      exact absurd hq (Proc.not_waits_run _ _)
    · rw [Sys.goto_other _ _ hqp] at hq
      exact .inl ((h.cond_or_owes hlock hpr hq).resolve_right (hpay.release hc c))
  | @act l next f d hpr hc hf =>
    by_cases hl : holds l = true
    · have hlock := hout.lock_of_inside hpr hl
      have hk := hout.knows p hlock
      rw [hpr] at hk
      refine Waking.hold hlock (Proc.not_waits_run _) fun q c _ hq => ?_
      exact hpay.act hc hl (Sys.allowed_run hpr hok) hk hf c (h.cond_or_owes hlock hpr hq)
    · obtain ⟨-, rfl⟩ := ho.outside hc (by simpa using hl) hf
      refine h.goto (hout.lock_ne hpr (by simpa [Proc.inside] using hl)) fun c hw => ?_
      exact absurd hw (Proc.not_waits_run _ _)
  | @killed l yes no hpr hc =>
    by_cases hlock : s.lock = some p
    · refine Waking.hold (d := s.data) hlock (Proc.not_waits_run _) fun q c _ hq => ?_
      refine (h.cond_or_owes hlock hpr hq).imp_right fun howe => ?_
      have hok := Sys.allowed_run hpr hok
      simp only [Proc.Owes]
      cases hkill : s.killed p with
      | true => exact (hpay.killed hc c howe).1 (hkill ▸ hok)
      | false => exact (hpay.killed hc c howe).2 (hkill ▸ hok)
    · exact h.goto hlock fun c hw => absurd hw (Proc.not_waits_run _ _)
  | @sleep l next c hpr hc =>
    have hlock := hout.lock_of_inside hpr (ho.sleep hc).1
    refine Waking.hold (d := s.data) hlock (Proc.not_waits_unlock _ _) fun q c' _ hq => .inl ?_
    exact (h.cond_or_owes hlock hpr hq).resolve_right (hpay.sleep hc c')
  | @wakeup l next c hpr hc =>
    have hlock := hout.lock_of_inside hpr (ho.wakeup hc).1
    refine Waking.hold (d := s.data) hlock (Proc.not_waits_wake _ _ _) fun q c' _ hq => ?_
    refine (h.cond_or_owes hlock hpr hq).imp_right fun howe => ?_
    exact (hpay.wakeup hc c' howe).imp_left fun he => ⟨he.symm, Nat.zero_le q⟩
  | @unlock next c hpr =>
    -- p now waits on c, whose condition it has seen to hold
    have hlock := hout.lock_of_inside hpr rfl
    have hk := hout.knows p hlock
    rw [hpr] at hk
    intro q c' hq
    by_cases hqp : q = p
    · rw [hqp, Sys.goto_self] at hq
      obtain ⟨next', he | he⟩ := hq <;> cases he
      exact .inl hk.2
    · rw [Sys.goto_other _ _ hqp] at hq
      exact .inl ((h.cond_or_owes hlock hpr hq).resolve_right id)
  | @sched next c hpr =>
    refine h.goto (hout.lock_ne hpr rfl) fun c' hw => ?_
    obtain ⟨next', he | he⟩ := hw <;> cases he
    exact ⟨next, .inl hpr⟩
  | @rouse next c k hpr hk hkp hsleep =>
    have hlock := hout.lock_of_inside hpr rfl
    have hlocked : (s.proc k).locked = false := by
      cases hprk : s.proc k with
      | unlock | sched => rw [hprk] at hsleep; cases hsleep
      | _ => rfl
    refine Waking.hold (s := s.goto k (s.proc k).rouse) (d := s.data) hlock
      (Proc.not_waits_wake _ _ _) fun q c' _ hq => ?_
    have hqk : q ≠ k := by
      rintro rfl
      rw [Sys.goto_self] at hq
      exact Proc.not_waits_rouse _ hlocked c' hq
    rw [Sys.goto_other _ _ hqk] at hq
    refine (h.cond_or_owes hlock hpr hq).imp_right fun howe => ?_
    exact howe.imp_left fun hk => ⟨hk.1, by have := hk.2; omega⟩
  | @pass next c k hpr hk hl =>
    have hlock := hout.lock_of_inside hpr rfl
    refine Waking.hold (d := s.data) hlock (Proc.not_waits_wake _ _ _) fun q c' hqp hq => ?_
    refine (h.cond_or_owes hlock hpr hq).imp_right fun howe => ?_
    refine howe.imp_left fun hk => ⟨hk.1, ?_⟩
    have hle := hk.2
    have hqk : q ≠ k := by
      rintro rfl
      obtain ⟨hlocked, hsleep⟩ := hl hqp
      obtain ⟨next', hq | hq⟩ := hq
      · rw [hq] at hlocked
        cases hlocked
      · rw [hq, Proc.sleepsOn, decide_eq_false_iff_not] at hsleep
        exact hsleep hk.1.symm
    omega
  | @done next c k hpr hk =>
    have hlock := hout.lock_of_inside hpr rfl
    refine Waking.hold (d := s.data) hlock (Proc.not_waits_run _) fun q c' _ hq => ?_
    refine (h.cond_or_owes hlock hpr hq).imp_right fun howe => ?_
    refine howe.resolve_left fun hle => ?_
    obtain ⟨l, hrun⟩ := hout.absent q (Nat.le_trans hk hle.2)
    rw [hrun] at hq
    exact Proc.not_waits_run _ _ hq

theorem Reach.waking {start : Sys σ L C} (ho : Outline code ok holds inv pre cond)
    (hpay : Pays code ok holds pre cond owes) (hstart : Outlined nproc holds inv pre cond start)
    (hfirst : Waking cond owes start) (h : Reach code nproc ok start s) : Waking cond owes s := by
  induction h with
  | init => exact hfirst
  | move m h hm hok ih =>
    have hout := h.outlined ho hstart
    rcases Sys.move_cases hm with ⟨q, a, rfl, hq, hs⟩ | ⟨q, rfl, hq, hl, rfl⟩
    · exact ih.stepped ho hpay hout hs hok
    · exact ih.kill hout hl

end

end Xv6.Lib.Monitor
