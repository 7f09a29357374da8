import Xv6.Lib.Monitor

namespace Xv6.Lib.Monitor

variable {σ L C α : Type}

-- A proof outline of the code: where the lock is held, what holds of the data
-- while it is free, what holds at each point where it is held, and when a
-- process may go to sleep on a channel.
structure Outline (code : L → Instr σ L C α) (ok : L → α → Bool → Bool) (holds : L → Bool)
    (inv : σ → Prop) (pre : L → σ → Prop) (cond : C → σ → Prop) : Prop where
  acquire : ∀ {l next}, code l = .acquire next →
    holds l = false ∧ holds next = true ∧ ∀ d, inv d → pre next d
  release : ∀ {l next}, code l = .release next →
    holds l = true ∧ holds next = false ∧ ∀ d, pre l d → inv d
  outside : ∀ {l f}, code l = .act f → holds l = false → ∀ {a d d' next},
    f a d = some (d', next) → holds next = false ∧ d' = d
  inside : ∀ {l f}, code l = .act f → holds l = true → ∀ {a k d d' next}, ok l a k → pre l d →
    f a d = some (d', next) → holds next = true ∧ pre next d'
  killed : ∀ {l yes no}, code l = .killed yes no →
    holds yes = holds l ∧ holds no = holds l ∧ ∀ d, pre l d → pre yes d ∧ pre no d
  sleep : ∀ {l c next}, code l = .sleep c next → holds l = true ∧ holds next = true ∧
    (∀ d, pre l d → inv d ∧ cond c d) ∧ ∀ d, inv d → pre next d
  wakeup : ∀ {l c next}, code l = .wakeup c next →
    holds l = true ∧ holds next = true ∧ ∀ d, pre l d → pre next d

namespace Proc

def inside (holds : L → Bool) : Proc L C → Bool
  | run l => holds l
  | unlock _ _ | wake _ _ _ => true
  | sched _ _ | asleep _ _ | woken _ => false

-- What the process that holds the lock knows of the data.
def Knows (inv : σ → Prop) (pre : L → σ → Prop) (cond : C → σ → Prop) (d : σ) : Proc L C → Prop
  | run l => pre l d
  | unlock c _ => inv d ∧ cond c d
  | wake _ _ next => pre next d
  | sched _ _ | asleep _ _ | woken _ => True

-- Where sleep() and wakeup() return to.
def Returns (holds : L → Bool) (inv : σ → Prop) (pre : L → σ → Prop) : Proc L C → Prop
  | run _ => True
  | wake _ _ next => holds next = true
  | unlock _ next | sched _ next | asleep _ next | woken next =>
    holds next = true ∧ ∀ d, inv d → pre next d

end Proc

structure Outlined (nproc : Nat) (holds : L → Bool) (inv : σ → Prop) (pre : L → σ → Prop)
    (cond : C → σ → Prop) (s : Sys σ L C) : Prop where
  absent : ∀ p, nproc ≤ p → ∃ l, s.proc p = .run l
  lock : ∀ p, s.lock = some p ↔ (s.proc p).inside holds = true
  free : s.lock = none → inv s.data
  knows : ∀ p, s.lock = some p → (s.proc p).Knows inv pre cond s.data
  returns : ∀ p, (s.proc p).Returns holds inv pre

theorem Sys.goto_self (s : Sys σ L C) (p : Nat) (pr : Proc L C) : (s.goto p pr).proc p = pr := by
  simp [Sys.goto]

theorem Sys.goto_other (s : Sys σ L C) {p q : Nat} (pr : Proc L C) (h : q ≠ p) :
    (s.goto p pr).proc q = s.proc q := by
  simp [Sys.goto, h]

theorem Sys.allowed_run {ok : L → α → Bool → Bool} {s : Sys σ L C} {p : Nat} {l : L} {a : α}
    (hp : s.proc p = .run l) (h : s.allowed ok (.step p a) = true) :
    ok l a (s.killed p) = true := by
  simpa [Sys.allowed, hp] using h

section

variable {nproc : Nat} {holds : L → Bool} {inv : σ → Prop} {pre : L → σ → Prop}
  {cond : C → σ → Prop} {s : Sys σ L C} {p : Nat}

theorem Outlined.goto (h : Outlined nproc holds inv pre cond s) (hp : p < nproc) {t : Sys σ L C}
    {pr : Proc L C} (hproc : t.proc = Function.update s.proc p pr)
    (hlock : t.lock = some p ↔ pr.inside holds = true)
    (hother : ∀ q, q ≠ p → (t.lock = some q ↔ s.lock = some q))
    (hdata : ∀ q, q ≠ p → s.lock = some q → t.data = s.data)
    (hfree : t.lock = none → inv t.data)
    (hknows : t.lock = some p → pr.Knows inv pre cond t.data)
    (hreturns : pr.Returns holds inv pre) : Outlined nproc holds inv pre cond t := by
  have hself : t.proc p = pr := by rw [hproc, Function.update_self]
  have hsame : ∀ q, q ≠ p → t.proc q = s.proc q := by
    intro q hq
    rw [hproc, Function.update_of_ne hq]
  refine ⟨?_, ?_, hfree, ?_, ?_⟩
  · intro q hq
    rw [hsame q (by omega)]
    exact h.absent q hq
  · intro q
    by_cases hq : q = p
    · rw [hq, hself]
      exact hlock
    · rw [hsame q hq, hother q hq]
      exact h.lock q
  · intro q hl
    by_cases hq : q = p
    · rw [hq, hself]
      exact hknows (hq ▸ hl)
    · have hl' := (hother q hq).mp hl
      rw [hsame q hq, hdata q hq hl']
      exact h.knows q hl'
  · intro q
    by_cases hq : q = p
    · rw [hq, hself]
      exact hreturns
    · rw [hsame q hq]
      exact h.returns q

theorem Proc.inside_rouse (holds : L → Bool) (pr : Proc L C) :
    pr.rouse.inside holds = pr.inside holds := by
  cases pr <;> rfl

theorem Outlined.rouse (h : Outlined nproc holds inv pre cond s) (hp : p < nproc)
    {t : Sys σ L C} (hproc : t.proc = Function.update s.proc p (s.proc p).rouse)
    (hlock : t.lock = s.lock) (hdata : t.data = s.data) : Outlined nproc holds inv pre cond t := by
  refine h.goto hp hproc ?_ (fun q _ => by rw [hlock]) (fun _ _ _ => hdata) ?_ ?_ ?_
  · rw [hlock, Proc.inside_rouse]
    exact h.lock p
  · intro hl
    rw [hdata]
    exact h.free (hlock ▸ hl)
  · intro hl
    have hk := h.knows p (hlock ▸ hl)
    rw [hdata]
    cases hpr : s.proc p <;> rw [hpr] at hk <;> exact hk
  · have hr := h.returns p
    cases hpr : s.proc p <;> rw [hpr] at hr <;> exact hr

theorem Outlined.lock_of_inside (h : Outlined nproc holds inv pre cond s) {pr : Proc L C}
    (hp : s.proc p = pr) (hi : pr.inside holds = true) : s.lock = some p :=
  (h.lock p).mpr (hp ▸ hi)

theorem Outlined.lock_ne (h : Outlined nproc holds inv pre cond s) {pr : Proc L C}
    (hp : s.proc p = pr) (hi : pr.inside holds = false) : s.lock ≠ some p := by
  intro hl
  have hi' := (h.lock p).mp hl
  rw [hp, hi] at hi'
  cases hi'

theorem Outlined.keep (h : Outlined nproc holds inv pre cond s) (hp : p < nproc) {pr : Proc L C}
    (hi : pr.inside holds = (s.proc p).inside holds)
    (hknows : s.lock = some p → pr.Knows inv pre cond s.data)
    (hreturns : pr.Returns holds inv pre) : Outlined nproc holds inv pre cond (s.goto p pr) := by
  refine h.goto hp rfl ?_ (fun _ _ => Iff.rfl) (fun _ _ _ => rfl) h.free hknows hreturns
  rw [hi]
  exact h.lock p

theorem Outlined.take (h : Outlined nproc holds inv pre cond s) (hp : p < nproc) {next : L}
    (hl : s.lock = none) (hn : holds next = true) (hpre : ∀ d, inv d → pre next d) :
    Outlined nproc holds inv pre cond ((s.setLock (some p)).goto p (.run next)) := by
  refine h.goto hp rfl ?_ ?_ (fun _ _ _ => rfl) ?_ ?_ trivial
  · exact ⟨fun _ => hn, fun _ => rfl⟩
  · intro q hq
    simp only [Sys.goto, Sys.setLock, hl, Option.some.injEq, reduceCtorEq, iff_false]
    exact fun he => hq he.symm
  · intro hl
    cases hl
  · intro _
    exact hpre _ (h.free hl)

theorem Outlined.give (h : Outlined nproc holds inv pre cond s) (hp : p < nproc) {pr : Proc L C}
    (hl : s.lock = some p) (hi : pr.inside holds = false) (hinv : inv s.data)
    (hreturns : pr.Returns holds inv pre) :
    Outlined nproc holds inv pre cond ((s.setLock none).goto p pr) := by
  refine h.goto hp rfl ?_ ?_ (fun _ _ _ => rfl) (fun _ => hinv) (fun hl => by cases hl) hreturns
  · simp [Sys.goto, Sys.setLock, hi]
  · intro q hq
    simp only [Sys.goto, Sys.setLock, hl, Option.some.injEq, reduceCtorEq, false_iff]
    exact fun he => hq he.symm

variable [DecidableEq C] {code : L → Instr σ L C α} {ok : L → α → Bool → Bool}

theorem Outlined.stepped (ho : Outline code ok holds inv pre cond)
    (h : Outlined nproc holds inv pre cond s) (hp : p < nproc) {a : α} {t : Sys σ L C}
    (hs : Stepped code nproc s p a t) (hok : s.allowed ok (.step p a) = true) :
    Outlined nproc holds inv pre cond t := by
  cases hs with
  | acquire hpr hc hl =>
    obtain ⟨-, hn, hpre⟩ := ho.acquire hc
    exact h.take hp hl hn hpre
  | woken hpr hl =>
    have hr := h.returns p
    rw [hpr] at hr
    exact h.take hp hl hr.1 hr.2
  | release hpr hc =>
    obtain ⟨hl, hn, hinv⟩ := ho.release hc
    have hlock := h.lock_of_inside hpr hl
    have hk := h.knows p hlock
    rw [hpr] at hk
    exact h.give hp hlock hn (hinv _ hk) trivial
  | unlock hpr =>
    have hlock := h.lock_of_inside hpr rfl
    have hk := h.knows p hlock
    have hr := h.returns p
    rw [hpr] at hk hr
    exact h.give hp hlock rfl hk.1 hr
  | @act l next f d hpr hc hf =>
    by_cases hl : holds l = true
    · have hlock := h.lock_of_inside hpr hl
      have hk := h.knows p hlock
      rw [hpr] at hk
      obtain ⟨hn, hpre⟩ := ho.inside hc hl (Sys.allowed_run hpr hok) hk hf
      refine h.goto hp rfl ?_ (fun _ _ => Iff.rfl) ?_ ?_ (fun _ => hpre) trivial
      · exact ⟨fun _ => hn, fun _ => hlock⟩
      · intro q hq hq'
        exact absurd (Option.some.inj (hq'.symm.trans hlock)) hq
      · intro hnone
        exact absurd (hnone.symm.trans hlock) (by simp)
    · obtain ⟨hn, rfl⟩ := ho.outside hc (by simpa using hl) hf
      refine h.keep hp ?_ ?_ trivial
      · rw [hpr]
        simpa [Proc.inside, hn] using hl
      · intro hlock
        exact absurd hlock (h.lock_ne hpr (by simpa [Proc.inside] using hl))
  | @killed l yes no hpr hc =>
    obtain ⟨hy, hn, hpre⟩ := ho.killed hc
    refine h.keep hp ?_ ?_ trivial
    · rw [hpr]
      simp only [Proc.inside]
      split
      · exact hy
      · exact hn
    · intro hlock
      have hk := h.knows p hlock
      rw [hpr] at hk
      simp only [Proc.Knows]
      split
      · exact (hpre _ hk).1
      · exact (hpre _ hk).2
  | sleep hpr hc =>
    obtain ⟨hl, hn, hinv, hpre⟩ := ho.sleep hc
    refine h.keep hp ?_ ?_ ⟨hn, hpre⟩
    · rw [hpr]
      exact hl.symm
    · intro hlock
      have hk := h.knows p hlock
      rw [hpr] at hk
      exact hinv _ hk
  | wakeup hpr hc =>
    obtain ⟨hl, hn, hpre⟩ := ho.wakeup hc
    refine h.keep hp ?_ ?_ hn
    · rw [hpr]
      exact hl.symm
    · intro hlock
      have hk := h.knows p hlock
      rw [hpr] at hk
      exact hpre _ hk
  | sched hpr =>
    have hr := h.returns p
    rw [hpr] at hr
    exact h.keep hp (by rw [hpr]; rfl) (fun _ => trivial) hr
  | @rouse next c k hpr hk hkp hsleep =>
    have hr := h.returns p
    rw [hpr] at hr
    have h' := h.rouse hk (t := s.goto k (s.proc k).rouse) rfl rfl rfl
    have hpr' : (s.goto k (s.proc k).rouse).proc p = .wake c k next := by
      rw [Sys.goto_other s _ (Ne.symm hkp), hpr]
    refine h'.keep hp (by rw [hpr']; rfl) ?_ hr
    intro hlock
    have hknows := h'.knows p hlock
    rw [hpr'] at hknows
    exact hknows
  | pass hpr hk hl =>
    have hr := h.returns p
    rw [hpr] at hr
    refine h.keep hp (by rw [hpr]; rfl) ?_ hr
    intro hlock
    have hknows := h.knows p hlock
    rw [hpr] at hknows
    exact hknows
  | done hpr hk =>
    have hr := h.returns p
    rw [hpr] at hr
    refine h.keep hp (by rw [hpr]; exact hr) ?_ trivial
    intro hlock
    have hknows := h.knows p hlock
    rw [hpr] at hknows
    exact hknows

theorem Sys.move_cases {t : Sys σ L C} {m : Move α} (h : s.move code nproc m = some t) :
    (∃ q a, m = .step q a ∧ q < nproc ∧ Stepped code nproc s q a t) ∨
    (∃ q, m = .kill q ∧ q < nproc ∧ (s.proc q).locked = false ∧
      t = { s.goto q (s.proc q).rouse with killed := Function.update s.killed q true }) := by
  cases m with
  | step q a =>
    simp only [Sys.move] at h
    split at h
    · rename_i hq
      exact .inl ⟨q, a, rfl, hq, Sys.step_stepped h⟩
    · cases h
  | kill q =>
    simp only [Sys.move, Sys.kill] at h
    split at h
    · rename_i hq
      split at h
      · cases h
      · rename_i hl
        exact .inr ⟨q, rfl, hq, by simpa using hl, (Option.some.inj h).symm⟩
    · cases h

theorem Reach.outlined {start : Sys σ L C} (ho : Outline code ok holds inv pre cond)
    (hstart : Outlined nproc holds inv pre cond start) (h : Reach code nproc ok start s) :
    Outlined nproc holds inv pre cond s := by
  induction h with
  | init => exact hstart
  | move m h hm hok ih =>
    rcases Sys.move_cases hm with ⟨q, a, rfl, hq, hs⟩ | ⟨q, rfl, hq, hl, rfl⟩
    · exact ih.stepped ho hq hs hok
    · exact ih.rouse hq rfl rfl rfl

end

end Xv6.Lib.Monitor
