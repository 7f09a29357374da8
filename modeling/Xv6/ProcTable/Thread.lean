import Xv6.ProcTable.Cpu

namespace Xv6.ProcTable

open Lib

variable {σ L C K α : Type}

-- Where process p is in its code, on a CPU or switched out.
def Located (s : Machine (Kernel σ L C K) (CpuPc L C K)) (p : Nat) (pc : Pc L C K) : Prop :=
  (∃ c, s.pc c = .run p pc) ∨ (∀ c pc', s.pc c ≠ .run p pc') ∧ s.data.context p = pc

-- What the scheduler does to the kernel: nothing but to make a process RUNNING.
structure Switched (d d' : Kernel σ L C K) : Prop where
  lock : d'.lock = d.lock
  data : d'.data = d.data
  log : d'.log = d.log
  proc : ∀ j, d'.proc j = d.proc j ∨
    (d.proc j).state = .runnable ∧ d'.proc j = { d.proc j with state := .running }

variable [DecidableEq K]

-- Where a process that is at pc' after a step of CPU c comes from.
inductive Origin (s : Machine (Kernel σ L C K) (CpuPc L C K)) (c : Nat) (d' : Kernel σ L C K)
    (l' : CpuPc L C K) (q : Nat) (pc' : Pc L C K) : Prop
  | own {pc : Pc L C K} (h : s.pc c = .run q pc) (h' : l' = .run q pc')
  | saved {pc : Pc L C K} (h : s.pc c = .run q pc) (hs : pc.saved = some pc')
      (h' : l' = .sched (.back q))
  | other (h : Located s q pc') (hne : ∀ pc, s.pc c ≠ .run q pc)
  | fresh (h : pc' = .forkret) (hs : (d'.proc q).state = .used) (hne : ∀ pc, s.pc c ≠ .run q pc)

variable {S : Services σ L C K α} {s : Machine (Kernel σ L C K) (CpuPc L C K)} {c : Nat}
  {d' : Kernel σ L C K} {l' : CpuPc L C K}

theorem Stepped.context {d : Kernel σ L C K} {l : CpuPc L C K} (hst : Stepped S c d l d' l') {q : Nat}
    (hq : ∀ pc, l ≠ .run q pc) :
    d'.context q = d.context q ∨ d'.context q = .forkret ∧ (d'.proc q).state = .used := by
  cases hst with
  | sched hpc hs =>
    rename_i p pc saved
    have hqp : q ≠ p := fun heq => hq pc (heq ▸ rfl)
    exact .inl (Function.update_of_ne hqp _ _)
  | changed hc =>
    cases hc with
    | forkAlloc hk hl hs =>
      rename_i k
      by_cases hqk : q = k
      · subst hqk
        exact .inr ⟨Function.update_self .., by simp [Kernel.setContext]⟩
      · exact .inl (Function.update_of_ne hqk _ _)
    | _ => exact .inl rfl
  | _ => exact .inl rfl

theorem Stepped.enters {d : Kernel σ L C K} {l : CpuPc L C K} {q : Nat} {pc' : Pc L C K}
    (hst : Stepped S c d l d' (.run q pc')) :
    (∃ pc, l = .run q pc) ∨ l = .sched (.swtch q) ∧ d' = d ∧ pc' = d.context q := by
  cases hst with
  | swtch => exact .inr ⟨rfl, rfl, rfl⟩
  | timer hf => exact .inl ⟨_, rfl⟩
  | moved hm => exact .inl ⟨_, rfl⟩
  | changed hc => exact .inl ⟨_, rfl⟩

theorem Stepped.leaves {d : Kernel σ L C K} {q : Nat} {pc : Pc L C K}
    (hst : Stepped S c d (.run q pc) d' l') (hl : ∀ pc', l' ≠ .run q pc') :
    ∃ saved, pc.saved = some saved ∧ d' = d.setContext q saved ∧ l' = .sched (.back q) := by
  cases hst with
  | sched hpc hs => exact ⟨_, hpc, rfl, rfl⟩
  | timer hf => exact absurd rfl (hl _)
  | moved hm => exact absurd rfl (hl _)
  | changed hc => exact absurd rfl (hl _)

theorem Located.origin (hs : s.Outlined CpuInv CpuKnows) (hst : Stepped S c s.data (s.pc c) d' l')
    {q : Nat} {pc' : Pc L C K} (h : Located (s.goto c (d', l')) q pc') : Origin s c d' l' q pc' := by
  have hcpu : ∀ c' pc, s.pc c' = .run q pc → s.data.cpu c' = some q := by
    intro c' pc hpc
    have hk := hs.knows c'
    rw [hpc] at hk
    exact hk.1
  rcases h with ⟨c', hc'⟩ | ⟨hoff, hcontext⟩
  · by_cases hcc : c' = c
    · subst hcc
      rw [Machine.goto_pc_self] at hc'
      subst hc'
      rcases hst.enters with ⟨pc, hpc⟩ | ⟨hl, -, hpc⟩
      · exact .own hpc rfl
      · have hk := hs.knows c'
        rw [hl] at hk
        have hoff : ∀ c₁ pc, s.pc c₁ ≠ .run q pc := by
          intro c₁ pc hpc'
          rw [hs.inv.inj c₁ c' q (hcpu c₁ pc hpc') hk.1, hl] at hpc'
          cases hpc'
        exact .other (.inr ⟨hoff, hpc.symm⟩) (hoff c')
    · rw [Machine.goto_pc_other s _ hcc] at hc'
      refine .other (.inl ⟨c', hc'⟩) fun pc hpc => hcc ?_
      exact hs.inv.inj c' c q (hcpu c' _ hc') (hcpu c pc hpc)
  · have hl' : ∀ pc, l' ≠ .run q pc := by
      intro pc
      have hne := hoff c pc
      rwa [Machine.goto_pc_self] at hne
    by_cases hq : ∃ pc, s.pc c = .run q pc
    · obtain ⟨pc, hpc⟩ := hq
      rw [hpc] at hst
      obtain ⟨saved, hsaved, rfl, hback⟩ := hst.leaves hl'
      have hself : (s.data.setContext q saved).context q = saved := Function.update_self ..
      rw [Machine.goto_data, hself] at hcontext
      exact .saved hpc (hcontext ▸ hsaved) hback
    · have hne : ∀ pc, s.pc c ≠ .run q pc := fun pc hpc => hq ⟨pc, hpc⟩
      have hoff' : ∀ c' pc, s.pc c' ≠ .run q pc := by
        intro c' pc
        by_cases hcc : c' = c
        · rw [hcc]
          exact hne pc
        · have hne' := hoff c' pc
          rwa [Machine.goto_pc_other s _ hcc] at hne'
      rcases hst.context hne with heq | ⟨hfork, hused⟩
      · exact .other (.inr ⟨hoff', heq.symm.trans hcontext⟩) hne
      · exact .fresh (hcontext.symm.trans hfork) hused hne

omit [DecidableEq K] in
theorem switched_setProc {d : Kernel σ L C K} {k : Nat} (hs : (d.proc k).state = .runnable) :
    Switched d (d.setProc k fun pr => { pr with state := .running }) := by
  refine ⟨rfl, rfl, rfl, fun j => ?_⟩
  by_cases hj : j = k
  · subst hj
    exact .inr ⟨hs, Kernel.setProc_self ..⟩
  · exact .inl (Function.update_of_ne hj _ _)

theorem Stepped.split {d : Kernel σ L C K} {l : CpuPc L C K} (hst : Stepped S c d l d' l') :
    Switched d d' ∨
    ∃ p pc pc', l = .run p pc ∧ l' = .run p pc' ∧ Changed S c p d pc d' pc' := by
  cases hst with
  | choose hs => exact .inl (switched_setProc hs)
  | changed hc => exact .inr ⟨_, _, _, rfl, rfl, hc⟩
  | _ => exact .inl ⟨rfl, rfl, rfl, fun _ => .inl rfl⟩

-- A proof outline for the code of the processes: what holds of the kernel, and
-- what process p knows of it at each point of its code.
structure Rules (S : Services σ L C K α)
    (ok : Machine (Kernel σ L C K) (CpuPc L C K) → Nat → Choice α → Prop)
    (inv : Kernel σ L C K → Prop) (knows : Nat → Pc L C K → Kernel σ L C K → Prop) : Prop where
  switched : ∀ {d d'}, Switched d d' → inv d → inv d' ∧ ∀ q pc, knows q pc d → knows q pc d'
  fresh : ∀ {q d}, (d.proc q).state = .used → knows q .forkret d
  timer : ∀ {p pc d}, pc.unlocked S = true → knows p pc d → knows p (.yieldLock pc) d
  saved : ∀ {p pc pc' d}, pc.saved = some pc' → knows p pc d → knows p pc' d
  moved : ∀ {c p pc pc' d}, CpuKnows c (.run p pc) d → inv d → knows p pc d →
    Moved S c p d pc pc' → knows p pc' d
  changed : ∀ {s c a p pc pc' d'}, s.Outlined CpuInv CpuKnows → CpuKnows c (.run p pc) s.data →
    ok s c a → s.pc c = .run p pc → inv s.data → knows p pc s.data →
    Changed S c p s.data pc d' pc' →
    inv d' ∧ knows p pc' d' ∧ ∀ q l, q ≠ p → Located s q l → knows q l s.data → knows q l d'

section Run

variable {ok : Machine (Kernel σ L C K) (CpuPc L C K) → Nat → Choice α → Prop}
  {inv : Kernel σ L C K → Prop} {knows : Nat → Pc L C K → Kernel σ L C K → Prop}

theorem Rules.own (hr : Rules S ok inv knows) {d : Kernel σ L C K} {q : Nat} {pc pc' : Pc L C K}
    (hst : Stepped S c d (.run q pc) d' (.run q pc'))
    (hcpu : CpuKnows c (.run q pc) d) (hinv : inv d) (hk : knows q pc d)
    (hch : ¬ Changed S c q d pc d' pc') : knows q pc' d := by
  cases hst with
  | timer hf => exact hr.timer hf hk
  | moved hm => exact hr.moved hcpu hinv hk hm
  | changed hc => exact absurd hc hch

theorem Rules.next (hr : Rules S ok inv knows) {a : Choice α} (hs : s.Outlined CpuInv CpuKnows)
    (hok : ok s c a) (hst : Stepped S c s.data (s.pc c) d' l') (hinv : inv s.data)
    (hk : ∀ q pc, Located s q pc → knows q pc s.data) :
    inv d' ∧ ∀ q pc, Located (s.goto c (d', l')) q pc → knows q pc d' := by
  by_cases hch : ∃ p pc pc', s.pc c = .run p pc ∧ l' = .run p pc' ∧ Changed S c p s.data pc d' pc'
  · obtain ⟨p, pc, pc', hpc, hl', hch⟩ := hch
    have hcpu := hs.knows c
    rw [hpc] at hcpu
    obtain ⟨hinv', hown, hothers⟩ := hr.changed hs hcpu hok hpc hinv (hk p pc (.inl ⟨c, hpc⟩)) hch
    refine ⟨hinv', fun q l hq => ?_⟩
    cases hq.origin hs hst with
    | own h h' =>
      cases hl'.symm.trans h'
      exact hown
    | saved h hsaved h' => cases hl'.symm.trans h'
    | other h hne =>
      refine hothers q l (fun heq => hne pc (heq ▸ hpc)) h (hk q l h)
    | fresh h hused hne =>
      rw [h]
      exact hr.fresh hused
  · have hd := hst.split.resolve_right hch
    obtain ⟨hinv', hkept⟩ := hr.switched hd hinv
    refine ⟨hinv', fun q l hq => ?_⟩
    cases hq.origin hs hst with
    | own h h' =>
      rename_i pc
      have hcpu := hs.knows c
      have hq' := hk q pc (.inl ⟨c, h⟩)
      rw [h] at hcpu hst
      rw [h'] at hst
      exact hkept q l (hr.own hst hcpu hinv hq' fun hc => hch ⟨q, pc, l, h, h', hc⟩)
    | saved h hsaved h' => exact hkept q l (hr.saved hsaved (hk q _ (.inl ⟨c, h⟩)))
    | other h hne => exact hkept q l (hk q l h)
    | fresh h hused hne =>
      rw [h]
      exact hr.fresh hused

theorem Rules.reach [DecidableEq C] (hr : Rules S ok inv knows) {data : σ}
    (h : Machine.Reach (step S) ok (boot data) s) (hboot : inv (boot data).data)
    (hstart : ∀ q, knows q .forkret (boot data).data) :
    inv s.data ∧ ∀ q pc, Located s q pc → knows q pc s.data := by
  refine h.invariant (J := fun s => inv s.data ∧ ∀ q pc, Located s q pc → knows q pc s.data)
    ⟨hboot, fun q pc hq => ?_⟩ fun s t c a hs hj hok ht => ?_
  · rcases hq with ⟨c, hc⟩ | ⟨-, hc⟩
    · cases hc
    · cases hc
      exact hstart q
  · obtain ⟨d', l', hstep, rfl⟩ := Machine.next_eq ht
    exact hr.next (reach_outlined hs) hok (step_stepped hstep) hj.1 hj.2

end Run

end Xv6.ProcTable
