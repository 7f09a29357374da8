import Xv6.Lib.Monitor.Outline

namespace Xv6.Lib.Monitor

variable {σ L C α : Type}

-- Where a process is in its code, or goes on after sleep() or wakeup().
def Proc.point : Proc L C → L
  | run l => l
  | unlock _ next | sched _ next | asleep _ next | woken next | wake _ _ next => next

theorem Proc.point_rouse (pr : Proc L C) : pr.rouse.point = pr.point := by
  cases pr <;> rfl

-- Where an instruction leads to, and what it makes of the data.
inductive Instr.Goes (a : α) (d : σ) : Instr σ L C α → σ → L → Prop
  | acquire {next : L} : Goes a d (.acquire next) d next
  | release {next : L} : Goes a d (.release next) d next
  | act {f : α → σ → Option (σ × L)} {d' : σ} {next : L} (hf : f a d = some (d', next)) :
      Goes a d (.act f) d' next
  | yes {yes no : L} : Goes a d (.killed yes no) d yes
  | no {yes no : L} : Goes a d (.killed yes no) d no
  | sleep {c : C} {next : L} : Goes a d (.sleep c next) d next
  | wakeup {c : C} {next : L} : Goes a d (.wakeup c next) d next

variable [DecidableEq C] {code : L → Instr σ L C α} {nproc : Nat} {s t : Sys σ L C} {p : Nat} {a : α}

-- A step takes process p along its code, if it leaves its point or changes the data.
theorem Stepped.point (h : Stepped code nproc s p a t) :
    (t.data = s.data ∧ ∀ q, (t.proc q).point = (s.proc q).point) ∨
    ∃ l, s.proc p = .run l ∧ (code l).Goes a s.data t.data (t.proc p).point ∧
      ∀ q, q ≠ p → t.proc q = s.proc q := by
  have hrun : ∀ {l d pr}, s.proc p = .run l → (code l).Goes a s.data d pr.point →
      ∀ {t : Sys σ L C}, t.data = d → t.proc = Function.update s.proc p pr →
      ∃ l, s.proc p = .run l ∧ (code l).Goes a s.data t.data (t.proc p).point ∧
        ∀ q, q ≠ p → t.proc q = s.proc q := by
    intro l d pr hp hg t hd ht
    refine ⟨l, hp, ?_, fun q hq => ?_⟩
    · rw [hd, ht, Function.update_self]
      exact hg
    · rw [ht, Function.update_of_ne hq]
  have hsame : ∀ {pr}, pr.point = (s.proc p).point → ∀ q,
      (Function.update s.proc p pr q).point = (s.proc q).point := by
    intro pr hpr q
    by_cases hq : q = p
    · rw [hq, Function.update_self, hpr]
    · rw [Function.update_of_ne hq]
  cases h with
  | acquire hp hc _ => exact .inr (hrun hp (hc ▸ .acquire) rfl rfl)
  | release hp hc => exact .inr (hrun hp (hc ▸ .release) rfl rfl)
  | act hp hc hf => exact .inr (hrun hp (hc ▸ .act hf) rfl rfl)
  | killed hp hc =>
    refine .inr (hrun hp ?_ rfl rfl)
    rw [hc]
    simp only [Proc.point]
    split
    · exact .yes
    · exact .no
  | sleep hp hc => exact .inr (hrun hp (hc ▸ .sleep) rfl rfl)
  | wakeup hp hc => exact .inr (hrun hp (hc ▸ .wakeup) rfl rfl)
  | unlock hp | sched hp | woken hp _ | pass hp _ _ | done hp _ =>
    exact .inl ⟨rfl, hsame (by rw [hp]; rfl)⟩
  | @rouse next c k hp _ hkp _ =>
    refine .inl ⟨rfl, fun q => ?_⟩
    by_cases hq : q = p
    · rw [hq, Sys.goto_self, hp]
      rfl
    · rw [Sys.goto_other _ _ hq]
      by_cases hk : q = k
      · rw [hk, Sys.goto_self, Proc.point_rouse]
      · rw [Sys.goto_other _ _ hk]

theorem Reach.absent {ok : L → α → Bool → Bool} {start : Sys σ L C}
    (h : Reach code nproc ok start s) {q : Nat} (hq : nproc ≤ q) : s.proc q = start.proc q := by
  induction h with
  | init => rfl
  | move m h hm hok ih =>
    rw [← ih]
    rcases Sys.move_cases hm with ⟨p, a, rfl, hp, hs⟩ | ⟨p, rfl, hp, -, rfl⟩
    · have hne : q ≠ p := by omega
      cases hs with
      | @rouse next c k _ hk _ _ =>
        rw [Sys.goto_other _ _ hne, Sys.goto_other _ _ (by omega)]
      | _ => exact Sys.goto_other _ _ hne
    · exact Sys.goto_other _ _ (by omega)

end Xv6.Lib.Monitor
