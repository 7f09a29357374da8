import Xv6.ProcTable.Step

namespace Xv6.ProcTable

open Lib

variable {σ L C K α : Type}

-- Whether the process holds its own p->lock.
def Pc.holds : Pc L C K → Bool
  | forkret | exitZombie _ | exitSched | yieldSched _ | yieldUnlock _ | sleepSet _ _ _
  | sleepSched _ _ | sleepTidy _ _ => true
  | _ => false

-- The state of a process that is at this point.
def Pc.procState : Pc L C K → ProcState
  | exitSched => .zombie
  | yieldSched _ => .runnable
  | sleepSched _ _ => .sleeping
  | _ => .running

-- Where the scheduler may switch to.
def Pc.resumes : Pc L C K → Bool
  | forkret | yieldUnlock _ | sleepTidy _ _ => true
  | _ => false

-- Where a call may return to.
def Pc.plain (pc : Pc L C K) : Bool :=
  !pc.holds && match pc with
    | dead => false
    | _ => true

-- Process p is in fork() for slot np.
structure Makes (d : Kernel σ L C K) (p np : Nat) : Prop where
  state : (d.proc np).state = .used
  maker : (d.proc np).maker = some p
  context : d.context np = .forkret

-- What process p relies on at a point of its code, whether it runs or not.
def Thread (d : Kernel σ L C K) (p : Nat) : Pc L C K → Prop
  | .forkParent np _ | .forkRun np _ => Makes d p np
  | .dead => False
  | .yieldLock ret | .yieldSched ret | .yieldUnlock ret | .sleepLock _ _ ret | .sleepSet _ _ ret
  | .sleepSched _ ret | .sleepTidy _ ret | .sleepRelock _ ret | .wake _ _ ret =>
    ret.plain = true ∧ Thread d p ret
  | _ => True

def Saved (d : Kernel σ L C K) (k : Nat) : Prop :=
  (d.context k).resumes = true ∧ Thread d k (d.context k)

structure CpuInv (d : Kernel σ L C K) : Prop where
  inj : ∀ c c' k, d.cpu c = some k → d.cpu c' = some k → c = c'
  run : ∀ k, d.plock k = none → ((d.proc k).state = .running ↔ ∃ c, d.cpu c = some k)
  saved : ∀ k, (∀ c, d.cpu c ≠ some k) →
    (d.proc k).state = .runnable ∨ (d.proc k).state = .sleeping → Saved d k

-- What CPU c knows at a point of its code.
def CpuKnows (c : Nat) (l : CpuPc L C K) (d : Kernel σ L C K) : Prop :=
  match l with
  | .sched (.scan _) => d.cpu c = none
  | .sched (.test k) => d.cpu c = none ∧ d.plock k = some c ∧
      ((d.proc k).state = .running ↔ ∃ c', d.cpu c' = some k)
  | .sched (.start k) => d.cpu c = none ∧ d.plock k = some c ∧ (d.proc k).state = .running ∧
      (∀ c', d.cpu c' ≠ some k) ∧ Saved d k
  | .sched (.swtch k) => d.cpu c = some k ∧ d.plock k = some c ∧ (d.proc k).state = .running ∧
      Saved d k
  | .sched (.back k) => d.cpu c = some k ∧ d.plock k = some c ∧ (d.proc k).state ≠ .running ∧
      ((d.proc k).state = .zombie ∨ Saved d k)
  | .sched (.release k) => d.cpu c = none ∧ d.plock k = some c ∧ (d.proc k).state ≠ .running ∧
      ∀ c', d.cpu c' ≠ some k
  | .run p pc => d.cpu c = some p ∧ (pc.holds = true → d.plock p = some c) ∧
      (d.proc p).state = pc.procState ∧ Thread d p pc

-- What a step of CPU c leaves alone.
structure CpuGuar (c : Nat) (d d' : Kernel σ L C K) : Prop where
  cpu : ∀ c', c' ≠ c → d'.cpu c' = d.cpu c'
  plock : ∀ c' k, c' ≠ c → d.plock k = some c' → d'.plock k = some c'
  slot : ∀ c' k, c' ≠ c → d.plock k = some c' → (d'.proc k).state = (d.proc k).state ∧
    d'.context k = d.context k ∧ (d'.cpu c = some k ↔ d.cpu c = some k)
  running : ∀ k, d.cpu c ≠ some k → (d.proc k).state = .running → (d'.proc k).state = .running
  makes : ∀ p np, d.cpu c ≠ some p → Makes d p np → Makes d' p np

section Stable

variable {c c' p k : Nat} {d d' : Kernel σ L C K}

theorem CpuGuar.refl (c : Nat) (d : Kernel σ L C K) : CpuGuar c d d :=
  ⟨fun _ _ => rfl, fun _ _ _ h => h, fun _ _ _ _ => ⟨rfl, rfl, Iff.rfl⟩, fun _ _ h => h,
    fun _ _ _ h => h⟩

theorem Thread.mono (hmakes : ∀ np, Makes d p np → Makes d' p np) {pc : Pc L C K}
    (h : Thread d p pc) : Thread d' p pc := by
  induction pc with
  | forkParent np pid => exact hmakes np h
  | forkRun np pid => exact hmakes np h
  | dead => exact h
  | yieldLock ret ih => exact ⟨h.1, ih h.2⟩
  | yieldSched ret ih => exact ⟨h.1, ih h.2⟩
  | yieldUnlock ret ih => exact ⟨h.1, ih h.2⟩
  | sleepLock ch lk ret ih => exact ⟨h.1, ih h.2⟩
  | sleepSet ch lk ret ih => exact ⟨h.1, ih h.2⟩
  | sleepSched lk ret ih => exact ⟨h.1, ih h.2⟩
  | sleepTidy lk ret ih => exact ⟨h.1, ih h.2⟩
  | sleepRelock lk ret ih => exact ⟨h.1, ih h.2⟩
  | wake ch k ret ih => exact ⟨h.1, ih h.2⟩
  | _ => trivial

theorem CpuGuar.saved (hg : CpuGuar c d d') (hk : d.cpu c ≠ some k)
    (hcontext : d'.context k = d.context k) (h : Saved d k) : Saved d' k := by
  grind [Thread.mono, makes, Saved]

theorem CpuGuar.not_on (hg : CpuGuar c d d') (hc : c' ≠ c) (hk : d.plock k = some c') :
    (∀ c₁, d'.cpu c₁ ≠ some k) ↔ ∀ c₁, d.cpu c₁ ≠ some k := by
  refine forall_congr' fun c₁ => not_congr ?_
  by_cases h : c₁ = c
  · rw [h]
    exact (hg.slot c' k hc hk).2.2
  · rw [hg.cpu c₁ h]

-- A step of one CPU leaves what another one knows.
theorem CpuGuar.knows (hg : CpuGuar c d d') (hinj : ∀ c c' k, d.cpu c = some k → d.cpu c' = some k →
    c = c') (hc : c' ≠ c) {l : CpuPc L C K} (h : CpuKnows c' l d) : CpuKnows c' l d' := by
  have hother : ∀ k, d.cpu c' = some k → d.cpu c ≠ some k := fun k h1 h2 => hc (hinj c' c k h1 h2)
  cases l with
  | run p pc =>
    obtain ⟨hcpu, hholds, hstate, hthread⟩ := h
    refine ⟨(hg.cpu c' hc).trans hcpu, fun hh => hg.plock c' p hc (hholds hh), ?_,
      hthread.mono fun np => hg.makes p np (hother p hcpu)⟩
    by_cases hrun : pc.procState = .running
    · grind [running]
    · have hh : pc.holds = true := by
        cases pc with
        | exitSched => rfl
        | yieldSched ret => rfl
        | sleepSched lk ret => rfl
        | _ => exact absurd rfl hrun
      rw [(hg.slot c' p hc (hholds hh)).1]
      exact hstate
  | sched pc =>
    cases pc with
    | scan k => exact (hg.cpu c' hc).trans h
    | test k =>
      obtain ⟨hcpu, hlock, hrun⟩ := h
      obtain ⟨hs, -, -⟩ := hg.slot c' k hc hlock
      refine ⟨(hg.cpu c' hc).trans hcpu, hg.plock c' k hc hlock, ?_⟩
      have hon := not_congr (hg.not_on hc hlock)
      grind
    | start k =>
      obtain ⟨hcpu, hlock, hrun, hnone, hsaved⟩ := h
      obtain ⟨hs, hcontext, -⟩ := hg.slot c' k hc hlock
      exact ⟨(hg.cpu c' hc).trans hcpu, hg.plock c' k hc hlock, hs.trans hrun,
        (hg.not_on hc hlock).mpr hnone, hg.saved (hnone c) hcontext hsaved⟩
    | swtch k =>
      obtain ⟨hcpu, hlock, hrun, hsaved⟩ := h
      obtain ⟨hs, hcontext, -⟩ := hg.slot c' k hc hlock
      exact ⟨(hg.cpu c' hc).trans hcpu, hg.plock c' k hc hlock, hs.trans hrun,
        hg.saved (hother k hcpu) hcontext hsaved⟩
    | back k =>
      obtain ⟨hcpu, hlock, hrun, hsaved⟩ := h
      obtain ⟨hs, hcontext, -⟩ := hg.slot c' k hc hlock
      rw [← hs] at hrun hsaved
      exact ⟨(hg.cpu c' hc).trans hcpu, hg.plock c' k hc hlock, hrun,
        hsaved.imp_right (hg.saved (hother k hcpu) hcontext)⟩
    | release k =>
      obtain ⟨hcpu, hlock, hrun, hnone⟩ := h
      obtain ⟨hs, -, -⟩ := hg.slot c' k hc hlock
      rw [← hs] at hrun
      exact ⟨(hg.cpu c' hc).trans hcpu, hg.plock c' k hc hlock, hrun,
        (hg.not_on hc hlock).mpr hnone⟩

end Stable

section Change

variable {c p k : Nat} {d d' : Kernel σ L C K}

-- A change of slot k only.
structure Only (k : Nat) (d d' : Kernel σ L C K) : Prop where
  cpu : d'.cpu = d.cpu
  plock : ∀ j, j ≠ k → d'.plock j = d.plock j
  proc : ∀ j, j ≠ k → d'.proc j = d.proc j
  context : ∀ j, j ≠ k → d'.context j = d.context j

theorem Makes.congr {np : Nat} (h : Makes d p np) (hproc : d'.proc np = d.proc np)
    (hcontext : d'.context np = d.context np) : Makes d' p np :=
  ⟨by rw [hproc]; exact h.state, by rw [hproc]; exact h.maker, hcontext.trans h.context⟩

theorem Only.guar (ho : Only k d d') (hfree : ∀ c', d.plock k = some c' → c' = c)
    (hrun : d.cpu c ≠ some k → (d.proc k).state = .running → (d'.proc k).state = .running)
    (hmakes : ∀ p, d.cpu c ≠ some p → Makes d p k → Makes d' p k) :
    CpuGuar c d d' := by
  have hne : ∀ c' j, c' ≠ c → d.plock j = some c' → j ≠ k := fun c' j hc hj hjk =>
    hc (hfree c' (hjk ▸ hj))
  refine ⟨fun c' _ => by rw [ho.cpu], fun c' j hc hj => ?_, fun c' j hc hj => ?_,
    fun j hj hs => ?_, fun q np hq hm => ?_⟩
  · rw [ho.plock j (hne c' j hc hj)]
    exact hj
  · rw [ho.proc j (hne c' j hc hj), ho.context j (hne c' j hc hj), ho.cpu]
    exact ⟨rfl, rfl, Iff.rfl⟩
  · by_cases hjk : j = k
    · subst hjk
      exact hrun hj hs
    · rw [ho.proc j hjk]
      exact hs
  · by_cases hnk : np = k
    · subst hnk
      exact hmakes q hq hm
    · exact hm.congr (ho.proc np hnk) (ho.context np hnk)

theorem Only.inv (ho : Only k d d') (hg : CpuGuar c d d') (h : CpuInv d)
    (hrun : d'.plock k = none → ((d'.proc k).state = .running ↔ ∃ c, d.cpu c = some k))
    (hsaved : (∀ c, d.cpu c ≠ some k) →
      (d'.proc k).state = .runnable ∨ (d'.proc k).state = .sleeping → Saved d' k) :
    CpuInv d' := by
  refine ⟨fun c c' j => ?_, fun j hj => ?_, fun j hnone hs => ?_⟩
  · rw [ho.cpu]
    exact h.inj c c' j
  · rw [ho.cpu]
    by_cases hjk : j = k
    · subst hjk
      exact hrun hj
    · rw [ho.plock j hjk] at hj
      rw [ho.proc j hjk]
      exact h.run j hj
  · rw [ho.cpu] at hnone
    by_cases hjk : j = k
    · subst hjk
      exact hsaved hnone hs
    · rw [ho.proc j hjk] at hs
      exact hg.saved (hnone c) (ho.context j hjk) (h.saved j hnone hs)

-- A change of what neither the states nor the CPUs depend on.
structure Aside (d d' : Kernel σ L C K) : Prop where
  cpu : d'.cpu = d.cpu
  plock : d'.plock = d.plock
  context : d'.context = d.context
  state : ∀ j, (d'.proc j).state = (d.proc j).state
  maker : ∀ j, (d'.proc j).maker = (d.proc j).maker

theorem Aside.makes (ha : Aside d d') {np : Nat} (h : Makes d p np) : Makes d' p np :=
  ⟨(ha.state np).trans h.state, (ha.maker np).trans h.maker, by rw [ha.context]; exact h.context⟩

theorem Aside.guar (ha : Aside d d') : CpuGuar c d d' := by
  refine ⟨fun _ _ => by rw [ha.cpu], fun _ _ _ hj => by rw [ha.plock]; exact hj, fun _ j _ _ => ?_,
    fun j _ hs => (ha.state j).trans hs, fun _ _ _ hm => ha.makes hm⟩
  grind [context, cpu, state]

theorem Aside.saved (ha : Aside d d') (h : Saved d k) : Saved d' k := by
  grind [context, Thread.mono, makes, Saved]

theorem Aside.inv (ha : Aside d d') (h : CpuInv d) : CpuInv d' := by
  refine ⟨fun c c' j => ?_, fun j hj => ?_, fun j hnone hs => ?_⟩
  · rw [ha.cpu]
    exact h.inj c c' j
  · rw [ha.cpu, ha.state]
    rw [ha.plock] at hj
    exact h.run j hj
  · rw [ha.cpu] at hnone
    rw [ha.state] at hs
    exact ha.saved (h.saved j hnone hs)

theorem Only.own (ho : Only p d d') (h : CpuInv d) (hcpu : d.cpu c = some p)
    (hfree : ∀ c', d.plock p = some c' → c' = c) (hused : (d.proc p).state ≠ .used)
    (hrun : d'.plock p = none → (d'.proc p).state = .running) :
    CpuInv d' ∧ CpuGuar c d d' ∧ ∀ q np, Makes d q np → Makes d' q np := by
  have hmakes : ∀ q np, Makes d q np → Makes d' q np := by
    grind [Makes.state, Makes.congr, proc, context]
  have hg : CpuGuar c d d' := ho.guar hfree (fun hne => absurd hcpu hne)
    fun q _ => hmakes q p
  refine ⟨ho.inv hg h (fun hl => ?_) (fun hnone => absurd hcpu (hnone c)), hg, hmakes⟩
  grind

theorem Only.other (ho : Only k d d') (h : CpuInv d) (hl : d.plock k = none)
    (hs : (d.proc k).state ≠ .running) (hs' : (d'.proc k).state ≠ .running)
    (hmakes : ∀ q, d.cpu c ≠ some q → Makes d q k → Makes d' q k)
    (hsaved : (d'.proc k).state = .runnable ∨ (d'.proc k).state = .sleeping →
      (∀ c, d.cpu c ≠ some k) → CpuGuar c d d' → Saved d' k) :
    CpuInv d' ∧ CpuGuar c d d' := by
  have hnone : ¬ ∃ c, d.cpu c = some k := fun hc => hs ((h.run k hl).mpr hc)
  have hg : CpuGuar c d d' := ho.guar (fun c' hc => by rw [hl] at hc; cases hc)
    (fun _ hr => absurd hr hs) hmakes
  exact ⟨ho.inv hg h (fun _ => iff_of_false hs' hnone) (fun hn hst => hsaved hst hn hg), hg⟩

end Change

theorem Pc.holds_of_plain {pc : Pc L C K} (h : pc.plain = true) : pc.holds = false := by
  grind [plain]

theorem Pc.procState_of_not_holds {pc : Pc L C K} (h : pc.holds = false) :
    pc.procState = .running := by
  cases pc with
  | exitSched => cases h
  | yieldSched ret => cases h
  | sleepSched lk ret => cases h
  | _ => rfl

section Step

variable {S : Services σ L C K α} {c p : Nat} {d d' : Kernel σ L C K} {pc pc' : Pc L C K}

theorem CpuKnows.goto (h : CpuKnows c (.run p pc) d) (hpc : pc.procState = .running)
    (hpc' : pc'.holds = false) (ht : Thread d p pc') : CpuKnows c (.run p pc') d := by
  obtain ⟨hcpu, -, hstate, -⟩ := h
  refine ⟨hcpu, fun hh => ?_, ?_, ht⟩
  · rw [hpc'] at hh
    cases hh
  grind [Pc.procState_of_not_holds]

theorem CpuKnows.moved (h : CpuKnows c (.run p pc) d) (hm : Moved S c p d pc pc') :
    CpuKnows c (.run p pc') d := by
  have ht := h.2.2.2
  cases hm with
  | waitSleep => exact h.goto rfl rfl ⟨rfl, trivial⟩
  | exitWake => exact h.goto rfl rfl ⟨rfl, trivial⟩
  | wakeSelf => exact h.goto rfl rfl ht
  | wakeNext => exact h.goto rfl rfl ht
  | wakeDone => exact h.goto rfl (Pc.holds_of_plain ht.1) ht.2
  | sleep => exact h.goto rfl rfl ⟨rfl, trivial⟩
  | wakeup => exact h.goto rfl rfl ⟨rfl, trivial⟩
  | _ => exact h.goto rfl rfl trivial

theorem only_setProc (k : Nat) (f : Proc C → Proc C) : Only k d (d.setProc k f) :=
  ⟨rfl, fun _ _ => rfl, fun _ hj => Function.update_of_ne hj _ _, fun _ _ => rfl⟩

theorem only_setPlock (k : Nat) (holder : Option Nat) : Only k d (d.setPlock k holder) :=
  ⟨rfl, fun _ hj => Function.update_of_ne hj _ _, fun _ _ => rfl, fun _ _ => rfl⟩

theorem only_setContext (k : Nat) (pc : Pc L C K) : Only k d (d.setContext k pc) :=
  ⟨rfl, fun _ _ => rfl, fun _ _ => rfl, fun _ hj => Function.update_of_ne hj _ _⟩

theorem Only.trans {k : Nat} {d'' : Kernel σ L C K} (h : Only k d d') (h' : Only k d' d'') :
    Only k d d'' :=
  ⟨h'.cpu.trans h.cpu, fun j hj => (h'.plock j hj).trans (h.plock j hj),
    fun j hj => (h'.proc j hj).trans (h.proc j hj),
    fun j hj => (h'.context j hj).trans (h.context j hj)⟩

@[simp] theorem Kernel.setProc_self (d : Kernel σ L C K) (k : Nat) (f : Proc C → Proc C) :
    (d.setProc k f).proc k = f (d.proc k) := Function.update_self ..

theorem aside_setProc (k : Nat) (f : Proc C → Proc C)
    (hs : (f (d.proc k)).state = (d.proc k).state) (hm : (f (d.proc k)).maker = (d.proc k).maker) :
    Aside d (d.setProc k f) := by
  refine ⟨rfl, rfl, rfl, fun j => ?_, fun j => ?_⟩
  all_goals grind [Kernel.setProc_self, Only.proc, only_setProc]

-- A step keeps the invariant, leads to what the CPU knows next and keeps the
-- guarantee.
def CpuOk (c : Nat) (d d' : Kernel σ L C K) (l : CpuPc L C K) : Prop :=
  CpuInv d' ∧ CpuKnows c l d' ∧ CpuGuar c d d'

theorem Aside.ok (ha : Aside d d') (h : CpuInv d) (hk : CpuKnows c (.run p pc) d)
    (hpc : pc.procState = .running) (hpc' : pc'.holds = false) (ht : Thread d p pc') :
    CpuOk c d d' (.run p pc') := by
  obtain ⟨hcpu, hholds, hstate, hthread⟩ := hk.goto hpc hpc' ht
  refine ⟨ha.inv h, ⟨?_, fun hh => ?_, (ha.state p).trans hstate, ht.mono fun _ => ha.makes⟩, ha.guar⟩
  · rw [ha.cpu]
    exact hcpu
  · rw [ha.plock]
    exact hholds hh

theorem Only.ok (ho : Only p d d') (h : CpuInv d) (hk : CpuKnows c (.run p pc) d)
    (hpc : pc.procState = .running) (hfree : ∀ c', d.plock p = some c' → c' = c)
    (hlock : d'.plock p = if pc'.holds then some c else none)
    (hstate : (d'.proc p).state = pc'.procState) (ht : Thread d p pc') :
    CpuOk c d d' (.run p pc') := by
  obtain ⟨hcpu, -, hs, -⟩ := hk
  have hused : (d.proc p).state ≠ .used := by
    rw [hs, hpc]
    decide
  obtain ⟨hinv, hg, hmakes⟩ := ho.own h hcpu hfree hused fun hl => by
    grind [Pc.procState_of_not_holds]
  refine ⟨hinv, ⟨?_, fun hh => ?_, hstate, ht.mono (hmakes p)⟩, hg⟩
  · rw [ho.cpu]
    exact hcpu
  · rw [hlock, if_pos hh]

theorem CpuKnows.lock (hk : CpuKnows c (.run p pc) d) (h : CpuInv d)
    (hpc : pc.procState = .running) (hholds : pc'.holds = true) (hpc' : pc'.procState = .running)
    (hl : d.plock p = none) (ht : Thread d p pc') :
    CpuOk c d (d.setPlock p (some c)) (.run p pc') := by
  refine (only_setPlock p _).ok h hk hpc (fun c' hc => ?_) ?_ ?_ ht
  · rw [hl] at hc
    cases hc
  · rw [if_pos hholds]
    exact Function.update_self ..
  · exact (hk.2.2.1.trans hpc).trans hpc'.symm

theorem CpuKnows.unlock (hk : CpuKnows c (.run p pc) d) (h : CpuInv d)
    (hpc : pc.procState = .running) (hholds : pc.holds = true) (hpc' : pc'.holds = false)
    (ht : Thread d p pc') : CpuOk c d (d.setPlock p none) (.run p pc') := by
  refine (only_setPlock p _).ok h hk hpc (fun c' hc => ?_) ?_ ?_ ht
  · exact Option.some.inj (hc.symm.trans (hk.2.1 hholds))
  · rw [hpc']
    exact Function.update_self ..
  · exact (hk.2.2.1.trans hpc).trans (Pc.procState_of_not_holds hpc').symm

theorem Only.elsewhere {k : Nat} (ho : Only k d d') (h : CpuInv d) (hk : CpuKnows c (.run p pc) d)
    (hpc : pc.procState = .running) (hl : d.plock k = none) (hs : (d.proc k).state ≠ .running)
    (hs' : (d'.proc k).state ≠ .running)
    (hmakes : ∀ q, d.cpu c ≠ some q → Makes d q k → Makes d' q k)
    (hsaved : (d'.proc k).state = .runnable ∨ (d'.proc k).state = .sleeping →
      (∀ c, d.cpu c ≠ some k) → CpuGuar c d d' → Saved d' k)
    (hpc' : pc'.holds = false) (ht : Thread d' p pc') : CpuOk c d d' (.run p pc') := by
  obtain ⟨hinv, hg⟩ := ho.other h hl hs hs' hmakes hsaved
  obtain ⟨hcpu, -, hstate, -⟩ := hk
  have hrun : (d.proc p).state = .running := hstate.trans hpc
  have hpk : p ≠ k := fun heq => hs (heq ▸ hrun)
  refine ⟨hinv, ⟨?_, fun hh => ?_, ?_, ht⟩, hg⟩
  · rw [ho.cpu]
    exact hcpu
  · rw [hpc'] at hh
    cases hh
  · rw [ho.proc p hpk, Pc.procState_of_not_holds hpc']
    exact hrun

theorem Only.woken {k : Nat} (ho : Only k d d') (h : CpuInv d) (hk : CpuKnows c (.run p pc) d)
    (hpc : pc.procState = .running) (hl : d.plock k = none) (hs : (d.proc k).state = .sleeping)
    (hs' : (d'.proc k).state = .runnable) (hcontext : d'.context k = d.context k)
    (hpc' : pc'.holds = false) (ht : Thread d p pc') : CpuOk c d d' (.run p pc') := by
  have hmakes : ∀ q np, Makes d q np → Makes d' q np := by
    grind [Makes.state, Makes.congr, proc, context]
  refine ho.elsewhere h hk hpc hl (by rw [hs]; decide) (by rw [hs']; decide) (fun q _ => hmakes q k)
    (fun _ hnone hg => ?_) hpc' (ht.mono (hmakes p))
  exact hg.saved (hnone c) hcontext (h.saved k hnone (.inr hs))

variable [DecidableEq K]

theorem aside_setLock (lk : LockId K) (holder : Option Nat) : Aside d (d.setLock lk holder) :=
  ⟨rfl, rfl, rfl, fun _ => rfl, fun _ => rfl⟩

omit [DecidableEq K] in
theorem Acquires.running {lk : LockId K} (ha : Acquires S pc lk pc') : pc.procState = .running := by
  cases ha <;> rfl

omit [DecidableEq K] in
theorem Acquires.thread {lk : LockId K} (ha : Acquires S pc lk pc') (ht : Thread d p pc) :
    pc'.holds = false ∧ Thread d p pc' := by
  cases ha with
  | sleep => exact ⟨Pc.holds_of_plain ht.1, ht.2⟩
  | _ => exact ⟨rfl, trivial⟩

omit [DecidableEq K] in
theorem Releases.running {lk : LockId K} (hr : Releases S pc lk pc') : pc.procState = .running := by
  cases hr <;> rfl

omit [DecidableEq K] in
theorem Releases.plain {lk : LockId K} (hr : Releases S pc lk pc') : pc'.holds = false := by
  cases hr <;> rfl

omit [DecidableEq K] in
theorem Releases.thread {lk : LockId K} (hr : Releases S pc lk pc') : Thread d p pc' := by
  cases hr <;> trivial

theorem Changed.ok (hch : Changed S c p d pc d' pc') (h : CpuInv d)
    (hk : CpuKnows c (.run p pc) d) : CpuOk c d d' (.run p pc') := by
  obtain ⟨hcpu, hholds, hstate, ht⟩ := id hk
  cases hch with
  | forkret => exact hk.unlock h rfl rfl rfl trivial
  | forkFail hk' hl hs =>
    rename_i k
    have ho := only_setProc (d := d) k fun _ => Proc.free
    refine Only.elsewhere (k := k) ⟨ho.cpu, ho.plock, ho.proc, ho.context⟩ h hk rfl hl
      (by rw [hs]; decide) ?_ (fun q _ hm => ?_) (fun hs' => ?_) rfl trivial
    · simp [Proc.free]
    · grind [Makes.state]
    · simp [Proc.free] at hs'
  | forkAlloc hk' hl hs =>
    rename_i k
    have ho := (only_setProc (d := d) k fun np =>
      { np with pid := d.nextpid, state := .used, maker := some p }).trans
        (only_setContext k .forkret)
    refine Only.elsewhere (k := k) ⟨ho.cpu, ho.plock, ho.proc, ho.context⟩ h hk rfl hl
      (by rw [hs]; decide) ?_ (fun q _ hm => ?_) (fun hs' => ?_) rfl ?_
    · simp [Kernel.setContext]
    · grind [Makes.state]
    · simp [Kernel.setContext] at hs'
    · refine ⟨?_, ?_, ?_⟩ <;> simp [Kernel.setContext]
  | forkParent hl => exact (aside_setProc _ _ rfl rfl).ok h hk rfl rfl ht
  | forkRun hl =>
    rename_i np pid
    have hm : Makes d p np := ht
    refine (only_setProc np _).elsewhere h hk rfl hl (by rw [hm.state]; decide) ?_
      (fun q hq hq' => ?_) (fun _ _ _ => ?_) rfl trivial
    · simp
    · rw [Option.some.inj (hq'.maker.symm.trans hm.maker)] at hq
      exact absurd hcpu hq
    · unfold Saved
      rw [show (d.setProc np _).context np = .forkret from hm.context]
      exact ⟨rfl, trivial⟩
  | acquire ha hl => exact (aside_setLock _ _).ok h hk ha.running (ha.thread ht).1 (ha.thread ht).2
  | release hr => exact (aside_setLock _ _).ok h hk hr.running hr.plain hr.thread
  | act hc hf =>
    rename_i data
    have ha : Aside d { d with data := data } := ⟨rfl, rfl, rfl, fun _ => rfl, fun _ => rfl⟩
    exact ha.ok h hk rfl rfl trivial
  | exitReparent hk' hp => exact (aside_setProc _ _ rfl rfl).ok h hk rfl rfl ⟨rfl, trivial⟩
  | exitSelf hl => exact hk.lock h rfl rfl rfl hl trivial
  | exitZombie =>
    rename_i status
    have ho := only_setProc (d := d) p fun pr => { pr with xstate := status, state := .zombie }
    refine Only.ok ⟨ho.cpu, ho.plock, ho.proc, ho.context⟩ h hk rfl (fun c' hl => ?_) (hholds rfl)
      ?_ trivial
    · exact Option.some.inj (hl.symm.trans (hholds rfl))
    · simp [Kernel.exitZombie, Kernel.record, Kernel.setLock, Pc.procState]
  | reap hk' hp hl hs =>
    rename_i k _
    have ho := only_setProc (d := d) k fun _ => Proc.free
    refine Only.elsewhere (k := k) ⟨ho.cpu, ho.plock, ho.proc, ho.context⟩ h hk rfl hl
      (by rw [hs]; decide) ?_ (fun q _ hm => ?_) (fun hs' => ?_) rfl trivial
    · simp [Kernel.record, Proc.free]
    · grind [Makes.state]
    · simp [Kernel.record, Proc.free] at hs'
  | kill hk' hl hp =>
    rename_i k
    by_cases hs : (d.proc k).state = .sleeping
    · exact (only_setProc k _).woken h hk rfl hl hs (by simp [hs]) rfl rfl trivial
    · exact (aside_setProc k _ (if_neg hs) rfl).ok h hk rfl rfl trivial
  | yieldLock hl =>
    refine ((only_setPlock p _).trans (only_setProc p _)).ok h hk rfl (fun c' hc => ?_) ?_ ?_ ht
    · rw [hl] at hc
      cases hc
    · exact Function.update_self ..
    · simp [Pc.procState]
  | yieldUnlock => exact hk.unlock h rfl rfl (Pc.holds_of_plain ht.1) ht.2
  | sleepLock hl => exact hk.lock h rfl rfl rfl hl ht
  | sleepSet =>
    rename_i ch lk ret
    have ho := only_setProc (d := d) p fun pr => { pr with chan := some ch, state := .sleeping }
    refine Only.ok ⟨ho.cpu, ho.plock, ho.proc, ho.context⟩ h hk rfl (fun c' hl => ?_) (hholds rfl)
      ?_ ht
    · exact Option.some.inj (hl.symm.trans (hholds rfl))
    · simp [Kernel.sleepSet, Kernel.setLock, Pc.procState]
  | sleepTidy =>
    refine ((only_setProc p _).trans (only_setPlock p _)).ok h hk rfl (fun c' hl => ?_) ?_ ?_ ht
    · exact Option.some.inj (hl.symm.trans (hholds rfl))
    · exact Function.update_self ..
    · simpa [Kernel.setPlock, Pc.procState] using hstate
  | wake hk' hc hl hs hch =>
    exact (only_setProc _ _).woken h hk rfl hl hs (by simp) rfl rfl ht

section Scheduler

omit [DecidableEq K]

variable {k : Nat}

theorem Only.held (ho : Only k d d') (hl : d.plock k = some c)
    (hrun : (d.proc k).state = .running → (d'.proc k).state = .running)
    (hmakes : ∀ q, Makes d q k → Makes d' q k) : CpuGuar c d d' :=
  ho.guar (fun _ hc => Option.some.inj (hc.symm.trans hl)) (fun _ => hrun) fun q _ => hmakes q

theorem CpuKnows.scan (hk : CpuKnows c (.sched (.scan k)) d) (h : CpuInv d)
    (hl : d.plock k = none) : CpuOk c d (d.setPlock k (some c)) (.sched (.test k)) := by
  have hself : (d.setPlock k (some c)).plock k = some c := Function.update_self ..
  have ho := only_setPlock (d := d) k (some c)
  have hg : CpuGuar c d (d.setPlock k (some c)) := by
    refine ho.guar (fun c' hc => ?_) (fun _ hs => hs) fun _ _ hm => hm.congr rfl rfl
    rw [hl] at hc
    cases hc
  refine ⟨ho.inv hg h (fun hn => ?_) (fun hnone hs => ?_), ⟨hk, hself, h.run k hl⟩, hg⟩
  · rw [hself] at hn
    cases hn
  · exact hg.saved (hnone c) rfl (h.saved k hnone hs)

theorem CpuKnows.choose (hk : CpuKnows c (.sched (.test k)) d) (h : CpuInv d)
    (hs : (d.proc k).state = .runnable) :
    CpuOk c d (d.setProc k fun pr => { pr with state := .running }) (.sched (.start k)) := by
  obtain ⟨hcpu, hl, hrun⟩ := hk
  have hnone : ∀ c', d.cpu c' ≠ some k := fun c' hc =>
    absurd (hs.symm.trans (hrun.mpr ⟨c', hc⟩)) (by decide)
  have ho := only_setProc (d := d) k fun pr => { pr with state := .running }
  have hg : CpuGuar c d (d.setProc k fun pr => { pr with state := .running }) := by
    refine ho.held hl (fun _ => by simp) fun q hm => ?_
    grind [Makes.state]
  refine ⟨ho.inv hg h (fun hn => ?_) (fun _ hs' => ?_), ⟨hcpu, hl, by simp, hnone, ?_⟩, hg⟩
  · exact absurd (hl.symm.trans hn) (by simp)
  · simp at hs'
  · exact hg.saved (hnone c) rfl (h.saved k hnone (.inl hs))

theorem CpuInv.release (h : CpuInv d) (hl : d.plock k = some c)
    (hrun : (d.proc k).state = .running ↔ ∃ c', d.cpu c' = some k) :
    CpuInv (d.setPlock k none) ∧ CpuGuar c d (d.setPlock k none) := by
  have ho := only_setPlock (d := d) k none
  have hg : CpuGuar c d (d.setPlock k none) :=
    ho.held hl (fun hs => hs) fun _ hm => hm.congr rfl rfl
  exact ⟨ho.inv hg h (fun _ => hrun) fun hnone hs => hg.saved (hnone c) rfl (h.saved k hnone hs), hg⟩

theorem setCpu_guar {v : Option Nat} (hl : d.plock k = some c)
    (hv : ∀ j, j ≠ k → d.cpu c ≠ some j ∧ v ≠ some j) : CpuGuar c d (d.setCpu c v) := by
  refine ⟨fun c' hc => Function.update_of_ne hc _ _, fun _ _ _ hj => hj, fun c' j hc hj => ?_,
    fun _ _ hs => hs, fun _ _ _ hm => hm.congr rfl rfl⟩
  have hjk : j ≠ k := fun heq => hc (Option.some.inj (hj.symm.trans (heq ▸ hl)))
  have hself : (d.setCpu c v).cpu c = v := Function.update_self ..
  rw [hself]
  exact ⟨rfl, rfl, iff_of_false (hv j hjk).2 (hv j hjk).1⟩

theorem setCpu_on {v : Option Nat} (hv : ∀ j, j ≠ k → d.cpu c ≠ some j ∧ v ≠ some j) {j : Nat}
    (hj : j ≠ k) (c' : Nat) : (d.setCpu c v).cpu c' = some j ↔ d.cpu c' = some j := by
  by_cases hc : c' = c
  · subst hc
    rw [show (d.setCpu c' v).cpu c' = v from Function.update_self ..]
    grind
  · rw [show (d.setCpu c v).cpu c' = d.cpu c' from Function.update_of_ne hc _ _]

theorem Saved.setCpu {j : Nat} (h : Saved d j) (c : Nat) (v : Option Nat) :
    Saved (d.setCpu c v) j := by
  have hmakes : ∀ np, Makes d j np → Makes (d.setCpu c v) j np := fun _ hm => hm.congr rfl rfl
  exact ⟨h.1, h.2.mono hmakes⟩

theorem CpuInv.setCpu {v : Option Nat} (h : CpuInv d) (hl : d.plock k = some c)
    (hv : ∀ j, j ≠ k → d.cpu c ≠ some j ∧ v ≠ some j)
    (honly : ∀ c', c' ≠ c → d.cpu c' ≠ some k)
    (hsaved : (d.proc k).state = .runnable ∨ (d.proc k).state = .sleeping → Saved d k) :
    CpuInv (d.setCpu c v) ∧ CpuGuar c d (d.setCpu c v) := by
  have hg := setCpu_guar hl hv
  have hk : ∀ c', (d.setCpu c v).cpu c' = some k → c' = c := by
    intro c' hc'
    by_contra hne
    rw [hg.cpu c' hne] at hc'
    exact honly c' hne hc'
  refine ⟨⟨fun c₁ c₂ j h₁ h₂ => ?_, fun j hj => ?_, fun j hnone hs => ?_⟩, hg⟩
  · by_cases hjk : j = k
    · grind
    · rw [setCpu_on hv hjk] at h₁ h₂
      exact h.inj c₁ c₂ j h₁ h₂
  · have hjk : j ≠ k := fun heq => absurd (hl.symm.trans (heq ▸ hj)) (by simp)
    rw [exists_congr (setCpu_on hv hjk)]
    exact h.run j hj
  · by_cases hjk : j = k
    · subst hjk
      exact (hsaved hs).setCpu c v
    · have hnone' : ∀ c', d.cpu c' ≠ some j := fun c' hc' =>
        hnone c' ((setCpu_on hv hjk c').mpr hc')
      exact (h.saved j hnone' hs).setCpu c v

theorem CpuKnows.start (hk : CpuKnows c (.sched (.start k)) d) (h : CpuInv d) :
    CpuOk c d (d.setCpu c (some k)) (.sched (.swtch k)) := by
  obtain ⟨hcpu, hl, hs, hnone, hsaved⟩ := hk
  obtain ⟨hinv, hg⟩ := h.setCpu (v := some k) hl
    (fun j hj => ⟨by simp [hcpu], fun heq => hj (Option.some.inj heq).symm⟩) (fun c' _ => hnone c')
    (fun _ => hsaved)
  exact ⟨hinv, ⟨Function.update_self .., hl, hs, hg.saved (hnone c) rfl hsaved⟩, hg⟩

theorem Pc.of_resumes {pc : Pc L C K} (h : pc.resumes = true) :
    pc.holds = true ∧ pc.procState = .running := by
  cases pc with
  | forkret => exact ⟨rfl, rfl⟩
  | yieldUnlock ret => exact ⟨rfl, rfl⟩
  | sleepTidy lk ret => exact ⟨rfl, rfl⟩
  | _ => cases h

theorem CpuKnows.swtch (hk : CpuKnows c (.sched (.swtch k)) d) :
    CpuKnows c (.run k (d.context k)) d := by
  obtain ⟨hcpu, hl, hs, hresumes, ht⟩ := hk
  exact ⟨hcpu, fun _ => hl, hs.trans (Pc.of_resumes hresumes).2.symm, ht⟩

theorem CpuKnows.back (hk : CpuKnows c (.sched (.back k)) d) (h : CpuInv d) :
    CpuOk c d (d.setCpu c none) (.sched (.release k)) := by
  obtain ⟨hcpu, hl, hs, hsaved⟩ := hk
  have honly : ∀ c', c' ≠ c → d.cpu c' ≠ some k := fun c' hne hc' => hne (h.inj c' c k hc' hcpu)
  have hv : ∀ j, j ≠ k → d.cpu c ≠ some j ∧ none ≠ some j := by
    grind
  have hkept : (d.proc k).state = .runnable ∨ (d.proc k).state = .sleeping → Saved d k := by
    grind
  obtain ⟨hinv, hg⟩ := h.setCpu hl hv honly hkept
  have hself : (d.setCpu c none).cpu c = none := Function.update_self ..
  refine ⟨hinv, ⟨hself, hl, hs, fun c' hc' => ?_⟩, hg⟩
  by_cases hne : c' = c
  · grind
  · rw [hg.cpu c' hne] at hc'
    exact honly c' hne hc'

theorem Pc.plain_of_unlocked {pc : Pc L C K} (h : pc.unlocked S = true) : pc.plain = true := by
  cases pc <;> first | rfl | cases h

theorem CpuKnows.sched {saved : Pc L C K} (hk : CpuKnows c (.run p pc) d) (h : CpuInv d)
    (hpc : pc.saved = some saved) (hs : (d.proc p).state ≠ .running) :
    CpuOk c d (d.setContext p saved) (.sched (.back p)) := by
  obtain ⟨hcpu, hholds, hstate, ht⟩ := hk
  have hp : pc.holds = true ∧ pc.procState ≠ .used := by
    cases pc with
    | exitSched => exact ⟨rfl, by simp [Pc.procState]⟩
    | yieldSched ret => exact ⟨rfl, by simp [Pc.procState]⟩
    | sleepSched lk ret => exact ⟨rfl, by simp [Pc.procState]⟩
    | _ => cases hpc
  have hl := hholds hp.1
  obtain ⟨hinv, hg, hmakes⟩ := (only_setContext (d := d) p saved).own h hcpu
    (fun c' hc' => Option.some.inj (hc'.symm.trans hl)) (hstate ▸ hp.2)
    fun hn => absurd (hl.symm.trans hn) (by simp)
  refine ⟨hinv, ⟨hcpu, hl, hs, ?_⟩, hg⟩
  have hself : (d.setContext p saved).context p = saved := Function.update_self ..
  unfold Saved
  rw [hself]
  cases pc with
  | exitSched => exact .inl hstate
  | yieldSched ret =>
    cases hpc
    exact .inr ⟨rfl, ht.1, ht.2.mono (hmakes p)⟩
  | sleepSched lk ret =>
    cases hpc
    exact .inr ⟨rfl, ht.1, ht.2.mono (hmakes p)⟩
  | _ => cases hpc

end Scheduler

theorem Stepped.ok {l l' : CpuPc L C K} (hst : Stepped S c d l d' l') (h : CpuInv d)
    (hk : CpuKnows c l d) : CpuOk c d d' l' := by
  cases hst with
  | wrap hk' => exact ⟨h, hk, .refl c d⟩
  | scan hk' hl => exact hk.scan h hl
  | choose hs => exact hk.choose h hs
  | pass hs =>
    obtain ⟨hcpu, hl, hrun⟩ := hk
    obtain ⟨hinv, hg⟩ := h.release hl hrun
    exact ⟨hinv, hcpu, hg⟩
  | start => exact hk.start h
  | swtch => exact ⟨h, hk.swtch, .refl c d⟩
  | back => exact hk.back h
  | release =>
    obtain ⟨hcpu, hl, hs, hnone⟩ := hk
    obtain ⟨hinv, hg⟩ := h.release hl (iff_of_false hs (by simpa using hnone))
    exact ⟨hinv, hcpu, hg⟩
  | timer hf =>
    have hplain := Pc.plain_of_unlocked hf
    have hrun := Pc.procState_of_not_holds (Pc.holds_of_plain hplain)
    exact ⟨h, hk.goto hrun rfl ⟨hplain, hk.2.2.2⟩, .refl c d⟩
  | sched hpc hs => exact hk.sched h hpc hs
  | moved hm => exact ⟨h, hk.moved hm, .refl c d⟩
  | changed hch => exact hch.ok h hk

end Step

theorem boot_outlined (data : σ) :
    (boot data).Outlined (CpuInv (L := L) (C := C) (K := K)) CpuKnows := by
  have hnot : ∀ k, ((boot (L := L) (C := C) (K := K) data).data.proc k).state ≠ .running := by
    grind [boot, Proc.free]
  refine ⟨⟨fun c c' k hc => ?_, fun k _ => iff_of_false (hnot k) ?_, fun k _ _ => ⟨rfl, trivial⟩⟩,
    fun c => rfl⟩
  · cases hc
  · simp [boot]

variable [DecidableEq C] [DecidableEq K] {S : Services σ L C K α} {data : σ}
  {s : Machine (Kernel σ L C K) (CpuPc L C K)}
  {ok : Machine (Kernel σ L C K) (CpuPc L C K) → Nat → Choice α → Prop}

theorem reach_outlined (h : Machine.Reach (step S) ok (boot data) s) :
    s.Outlined CpuInv CpuKnows := by
  refine h.invariant (boot_outlined data) fun s t c a _ hs _ ht => ?_
  obtain ⟨d', l', hstep, rfl⟩ := Machine.next_eq ht
  obtain ⟨hinv, hown, hg⟩ := (step_stepped hstep).ok hs.inv (hs.knows c)
  exact hs.goto hinv hown fun c' hc => hg.knows hs.inv.inj hc

-- While nobody holds p->lock, a process is RUNNING exactly if it is c->proc of
-- one CPU, and a slot that is UNUSED or ZOMBIE is c->proc of none.
theorem running_iff_on_one_cpu (h : Machine.Reach (step S) ok (boot data) s) (p : Nat) :
    (s.data.plock p = none →
      ((s.data.proc p).state = .running ↔ ∃! c, s.data.cpu c = some p) ∧
      ((s.data.proc p).state = .unused ∨ (s.data.proc p).state = .zombie →
        ∀ c, s.data.cpu c ≠ some p)) ∧
    ∀ c c', s.data.cpu c = some p → s.data.cpu c' = some p → c = c' := by
  have hinv := (reach_outlined h).inv
  have hinj := fun c c' => hinv.inj c c' p
  refine ⟨fun hl => ⟨?_, fun hs c hc => ?_⟩, hinj⟩
  · rw [hinv.run p hl]
    exact ⟨fun ⟨c, hc⟩ => ⟨c, hc, fun c' hc' => hinj c' c hc' hc⟩, ExistsUnique.exists⟩
  · have hrun := (hinv.run p hl).mpr ⟨c, hc⟩
    rw [hrun] at hs
    rcases hs with hs | hs <;> cases hs

-- The first process, once CPU 1 has started it.
theorem init_on_one_cpu :
    ∃ s : Machine (Kernel Unit Unit Unit Unit) (CpuPc Unit Unit Unit),
      Machine.Reach (step bare) (fun _ _ _ => True) (boot ()) s ∧
      s.data.cpu 1 = some initproc ∧ ∃! c, s.data.cpu c = some initproc := by
  have hrun : ∃ s, Machine.Reach (step bare) (fun _ _ _ => True) (boot ()) s ∧
      decide (s.data.plock initproc = none ∧ s.data.cpu 1 = some initproc ∧
        (s.data.proc initproc).state = .running) = true :=
    Machine.Reach.exists_run (fun _ _ _ => true) (List.replicate 5 (1, .go)) (fun _ _ _ _ _ => trivial)
      (by decide +kernel)
  obtain ⟨s, hr, hlast⟩ := hrun
  obtain ⟨hl, hcpu, hs⟩ := of_decide_eq_true hlast
  exact ⟨s, hr, hcpu, ((running_iff_on_one_cpu hr initproc).1 hl).1.mp hs⟩

-- p->lock goes with the CPU: at swtch() the scheduler holds it, and the process goes on at a
-- point that has it, and wherever a process has it, its own CPU holds it.
theorem plock_handed_over (h : Machine.Reach (step S) ok (boot data) s) (c p : Nat) :
    (s.pc c = .sched (.swtch p) → s.data.plock p = some c ∧ (s.data.proc p).state = .running ∧
      (s.data.context p).resumes = true ∧ (s.data.context p).holds = true) ∧
    ∀ pc, s.pc c = .run p pc → s.data.cpu c = some p ∧ (s.data.proc p).state = pc.procState ∧
      (pc.holds = true → s.data.plock p = some c) := by
  have hk := (reach_outlined h).knows c
  refine ⟨fun hc => ?_, fun pc hc => ?_⟩
  · rw [hc] at hk
    obtain ⟨-, hl, hs, hr, -⟩ := hk
    refine ⟨hl, hs, hr, ?_⟩
    cases hx : s.data.context p <;> simp_all [Pc.resumes, Pc.holds]
  · rw [hc] at hk
    exact ⟨hk.1, hk.2.2.1, hk.2.1⟩

-- CPU 1 is about to switch to the first process.
theorem plock_handed_over_init : ∃ s : Machine (Kernel Unit Unit Unit Unit) (CpuPc Unit Unit Unit),
    s.pc 1 = .sched (.swtch initproc) ∧ s.data.plock initproc = some 1 := by
  have hrun : ∃ s, Machine.Reach (step bare) (fun _ _ _ => True) (boot ()) s ∧
      decide (s.pc 1 = .sched (.swtch initproc)) = true :=
    Machine.Reach.exists_run (fun _ _ _ => true) (List.replicate 3 (1, .go)) (fun _ _ _ _ _ => trivial)
      (by decide +kernel)
  obtain ⟨s, hr, hlast⟩ := hrun
  have hpc := of_decide_eq_true hlast
  exact ⟨s, hpc, ((plock_handed_over hr 1 initproc).1 hpc).1⟩

end Xv6.ProcTable
