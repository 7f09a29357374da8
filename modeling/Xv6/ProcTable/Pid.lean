import Xv6.ProcTable.Slot

namespace Xv6.ProcTable

open Lib

variable {σ L C K α : Type}

-- The turn of allocproc() that finds an UNUSED slot, and so calls allocpid(), finds nextpid
-- positive: it has not wrapped yet.
def pidsLeft (s : Machine (Kernel σ L C K) (CpuPc L C K)) (c : Nat) (_ : Choice α) : Prop :=
  ∀ p k, s.pc c = .run p (.forkAlloc k) → k < NPROC → (s.data.proc k).state = .unused →
    0 < s.data.nextpid

structure PidInv (d : Kernel σ L C K) : Prop where
  unique : ∀ j k, (d.proc j).state ≠ .unused → (d.proc k).state ≠ .unused →
    (d.proc j).pid = (d.proc k).pid → j = k
  pos : ∀ j, (d.proc j).state ≠ .unused → 0 < (d.proc j).pid
  next : 0 < d.nextpid → ∀ j, (d.proc j).state ≠ .unused → (d.proc j).pid < d.nextpid
  bound : d.nextpid < 0x80000000

-- The pid that fork() is to return.
def Pc.Positive : Pc L C K → Prop
  | forkParent _ pid | forkRun _ pid => 0 < pid
  | yieldLock ret | yieldSched ret | yieldUnlock ret | sleepLock _ _ ret | sleepSet _ _ ret
  | sleepSched _ ret | sleepTidy _ ret | sleepRelock _ ret | wake _ _ ret => ret.Positive
  | _ => True

theorem bmod_succ_of_lt {n : Int} (hpos : 0 < n) (h : n + 1 < 0x80000000) :
    Int.bmod (n + 1) 0x100000000 = n + 1 := by
  rw [Int.bmod_eq_of_le_mul_two] <;> omega

theorem bmod_succ_pos {n : Int} (hpos : 0 < n) (h : n < 0x80000000)
    (hnext : 0 < Int.bmod (n + 1) 0x100000000) : Int.bmod (n + 1) 0x100000000 = n + 1 := by
  by_cases hlt : n + 1 < 0x80000000
  · exact bmod_succ_of_lt hpos hlt
  · rw [show n = 0x7fffffff by omega] at hnext
    exact absurd hnext (by decide)

theorem bmod_lt_int (n : Int) : Int.bmod n 0x100000000 < 0x80000000 := by
  have h := Int.bmod_lt (x := n) (m := 0x100000000) (by decide)
  omega

section Step

variable {d d' : Kernel σ L C K}

theorem PidInv.same (h : PidInv d) (hpid : ∀ j, (d'.proc j).state ≠ .unused →
      (d.proc j).state ≠ .unused ∧ (d'.proc j).pid = (d.proc j).pid)
    (hnext : d'.nextpid = d.nextpid) : PidInv d' := by
  refine ⟨fun j k hj hk heq => ?_, fun j hj => ?_, fun hpos j hj => ?_, ?_⟩
  · obtain ⟨hj, hpj⟩ := hpid j hj
    obtain ⟨hk, hpk⟩ := hpid k hk
    rw [hpj, hpk] at heq
    exact h.unique j k hj hk heq
  · obtain ⟨hj, hpj⟩ := hpid j hj
    rw [hpj]
    exact h.pos j hj
  · obtain ⟨hj, hpj⟩ := hpid j hj
    rw [hpj, hnext]
    exact h.next (hnext ▸ hpos) j hj
  · rw [hnext]
    exact h.bound

theorem PidInv.proc (h : PidInv d) (hproc : d'.proc = d.proc) (hnext : d'.nextpid = d.nextpid) :
    PidInv d' := by
  refine h.same (fun j hj => ?_) hnext
  rw [hproc] at hj ⊢
  exact ⟨hj, rfl⟩

theorem PidInv.update (h : PidInv d) {k : Nat} {pr : Proc C}
    (hproc : d'.proc = Function.update d.proc k pr) (hnext : d'.nextpid = d.nextpid)
    (hpr : pr.state ≠ .unused → (d.proc k).state ≠ .unused ∧ pr.pid = (d.proc k).pid) :
    PidInv d' := by
  refine h.same (fun j hj => ?_) hnext
  by_cases hjk : j = k
  · rw [hjk, hproc, Function.update_self] at hj ⊢
    exact hpr hj
  · rw [hproc, Function.update_of_ne hjk] at hj ⊢
    exact ⟨hj, rfl⟩

-- allocpid() for slot k, which is freed again if there is no memory.
theorem PidInv.alloc (h : PidInv d) (hpos : 0 < d.nextpid) {k : Nat} {pr : Proc C}
    (hproc : d'.proc = Function.update d.proc k pr)
    (hnext : d'.nextpid = Int.bmod (d.nextpid + 1) 0x100000000)
    (hpr : pr.state ≠ .unused → pr.pid = d.nextpid) : PidInv d' := by
  have hslot : ∀ j, (d'.proc j).state ≠ .unused → j = k ∧ (d'.proc j).pid = d.nextpid ∨
      j ≠ k ∧ (d.proc j).state ≠ .unused ∧ (d'.proc j).pid = (d.proc j).pid := by
    intro j hj
    by_cases hjk : j = k
    · rw [hjk, hproc, Function.update_self] at hj ⊢
      exact .inl ⟨rfl, hpr hj⟩
    · rw [hproc, Function.update_of_ne hjk] at hj ⊢
      exact .inr ⟨hjk, hj, rfl⟩
  refine ⟨fun j i hj hi heq => ?_, fun j hj => ?_, fun hpos' j hj => ?_, ?_⟩
  · rcases hslot j hj with ⟨hjk, hpj⟩ | ⟨-, hj, hpj⟩ <;>
      rcases hslot i hi with ⟨hik, hpi⟩ | ⟨-, hi, hpi⟩
    · exact hjk.trans hik.symm
    · have hlt := h.next hpos i hi
      omega
    · have hlt := h.next hpos j hj
      omega
    · exact h.unique j i hj hi (by omega)
  · rcases hslot j hj with ⟨-, hpj⟩ | ⟨-, hj, hpj⟩
    · omega
    · have hlt := h.pos j hj
      omega
  · rw [hnext] at hpos' ⊢
    rw [bmod_succ_pos hpos h.bound hpos']
    rcases hslot j hj with ⟨-, hpj⟩ | ⟨-, hj, hpj⟩
    · omega
    · have hlt := h.next hpos j hj
      omega
  · rw [hnext]
    exact bmod_lt_int _

variable [DecidableEq K] {S : Services σ L C K α} {c p : Nat} {pc pc' : Pc L C K}

theorem Changed.pid_inv (hch : Changed S c p d pc d' pc') (hcpu : CpuKnows c (.run p pc) d)
    (hok : ∀ k, pc = .forkAlloc k → k < NPROC → (d.proc k).state = .unused → 0 < d.nextpid)
    (h : PidInv d) : PidInv d' := by
  have hrun : (d.proc p).state = .running := hcpu.2.2.1.trans hch.running
  have ht := hcpu.2.2.2
  cases hch with
  | forkret | exitSelf | yieldUnlock | sleepLock | acquire | release | act => exact h.proc rfl rfl
  | forkFail hk hl hs => exact h.alloc (hok _ rfl hk hs) rfl rfl fun hu => absurd rfl hu
  | forkAlloc hk hl hs => exact h.alloc (hok _ rfl hk hs) rfl rfl fun _ => rfl
  | forkParent => exact h.update rfl rfl fun hu => ⟨hu, rfl⟩
  | forkRun => exact h.update rfl rfl fun _ => ⟨by simp [ht.state], rfl⟩
  | exitReparent => exact h.update rfl rfl fun hu => ⟨hu, rfl⟩
  | exitZombie | yieldLock | sleepSet | sleepTidy =>
    exact h.update rfl rfl fun _ => ⟨by simp [hrun], rfl⟩
  | reap => exact h.update rfl rfl fun hu => absurd rfl hu
  | kill =>
    refine h.update rfl rfl fun hu => ⟨fun hs => hu ?_, rfl⟩
    simp [hs]
  | wake hk hc hl hs => exact h.update rfl rfl fun _ => ⟨by simp [hs], rfl⟩

omit [DecidableEq K] in
theorem Pc.Positive.moved (hm : Moved S c p d pc pc') (h : pc.Positive) : pc'.Positive := by
  cases hm with
  | wakeSelf | wakeNext | wakeDone => exact h
  | _ => trivial

theorem Pc.Positive.changed (hch : Changed S c p d pc d' pc')
    (hok : ∀ k, pc = .forkAlloc k → k < NPROC → (d.proc k).state = .unused → 0 < d.nextpid)
    (h : pc.Positive) : pc'.Positive := by
  cases hch with
  | forkAlloc hk hl hs => exact hok _ rfl hk hs
  | forkParent | yieldLock | yieldUnlock | sleepLock | sleepSet | sleepTidy | wake => exact h
  | acquire ha =>
    cases ha with
    | sleep => exact h
    | _ => trivial
  | release hr => cases hr <;> trivial
  | _ => trivial

omit [DecidableEq K] in
theorem Pc.Positive.saved (hpc : pc.saved = some pc') (h : pc.Positive) : pc'.Positive := by
  cases pc with
  | yieldSched ret | sleepSched lk ret =>
    cases hpc
    exact h
  | exitSched =>
    cases hpc
    trivial
  | _ => cases hpc

theorem Stepped.pid_inv {l l' : CpuPc L C K} (hst : Stepped S c d l d' l') (hk : CpuKnows c l d)
    (hok : ∀ p k, l = .run p (.forkAlloc k) → k < NPROC → (d.proc k).state = .unused →
      0 < d.nextpid) (h : PidInv d) : PidInv d' := by
  cases hst with
  | choose hs => exact h.update rfl rfl fun _ => ⟨by simp [hs], rfl⟩
  | @changed p pc pc' d' hch => exact hch.pid_inv hk (fun k hpc => hok p k (by rw [hpc])) h
  | _ => exact h.proc rfl rfl

theorem positiveRules (S : Services σ L C K α) :
    Rules S pidsLeft (fun _ => True) fun _ pc _ => pc.Positive where
  switched _ _ := ⟨trivial, fun _ _ => id⟩
  fresh _ := trivial
  timer _ hk := hk
  saved hpc hk := hk.saved hpc
  moved _ _ hk hm := hk.moved hm
  changed _ _ hok hpc _ hk hch := by
    refine ⟨trivial, hk.changed hch fun k heq => ?_, fun _ _ _ _ => id⟩
    rw [heq] at hpc
    exact hok _ k hpc

end Step

theorem boot_pidInv (data : σ) : PidInv (boot (L := L) (C := C) (K := K) data).data := by
  have hslot : ∀ j, ((boot (L := L) (C := C) (K := K) data).data.proc j).state ≠ .unused →
      j = initproc ∧ ((boot (L := L) (C := C) (K := K) data).data.proc j).pid = 1 := by
    intro j hj
    by_cases hinit : j = initproc
    · exact ⟨hinit, by simp [boot, hinit]⟩
    · exact absurd (by simp [boot, hinit, Proc.free]) hj
  refine ⟨fun j k hj hk _ => ?_, fun j hj => ?_, fun _ j hj => ?_, by simp [boot]⟩
  · rw [(hslot j hj).1, (hslot k hk).1]
  · rw [(hslot j hj).2]
    decide
  · rw [(hslot j hj).2]
    simp [boot]

section Run

variable [DecidableEq C] [DecidableEq K] {S : Services σ L C K α} {data : σ}
  {s : Machine (Kernel σ L C K) (CpuPc L C K)}

theorem reach_pidInv (h : Machine.Reach (step S) pidsLeft (boot data) s) : PidInv s.data := by
  refine h.invariant (J := fun s => PidInv s.data) (boot_pidInv data) fun s t c a hs hinv hok ht => ?_
  obtain ⟨d', l', hst, rfl⟩ := Machine.next_eq ht
  exact (step_stepped hst).pid_inv ((reach_outlined hs).knows c) hok hinv

-- As long as nextpid does not wrap, no two slots in use have the same pid, their
-- pids are positive, and so is what fork() returns for a child.
theorem pids_unique_until_wrap (h : Machine.Reach (step S) pidsLeft (boot data) s) :
    (∀ j k, (s.data.proc j).state ≠ .unused → (s.data.proc k).state ≠ .unused →
      (s.data.proc j).pid = (s.data.proc k).pid → j = k) ∧
    (∀ j, (s.data.proc j).state ≠ .unused → 0 < (s.data.proc j).pid) ∧
    (∀ t c a p np pid r, s.next (step S) c a = some t → s.pc c = .run p (.forkRun np pid) →
      t.pc c = .run p (.sysret r) → 0 < r) := by
  have hinv := reach_pidInv h
  refine ⟨hinv.unique, hinv.pos, fun t c a p np pid r ht hpc hpc' => ?_⟩
  obtain ⟨-, hpos⟩ := (positiveRules S).reach h trivial fun _ => trivial
  have hpid : 0 < pid := hpos p _ (.inl ⟨c, hpc⟩)
  obtain ⟨d', l', hst, rfl⟩ := Machine.next_eq ht
  have hpc' : l' = .run p (.sysret r) := (Machine.goto_pc_self s c (d', l')).symm.trans hpc'
  have hst := step_stepped hst
  rw [hpc, hpc'] at hst
  cases hst with
  | moved hm => cases hm
  | changed hch =>
    cases hch with
    | forkRun => exact hpid
    | acquire ha => cases ha
    | release hr => cases hr

end Run

-- The first process makes another one.
theorem pids_unique_until_wrap_fork :
    ∃ s : Machine (Kernel Unit Unit Unit Unit) (CpuPc Unit Unit Unit),
      Machine.Reach (step bare) pidsLeft (boot ()) s ∧ (s.data.proc 0).state ≠ .unused ∧
      (s.data.proc 1).state ≠ .unused ∧ (s.data.proc 0).pid ≠ (s.data.proc 1).pid := by
  have hrun : ∃ s, Machine.Reach (step bare) pidsLeft (boot ()) s ∧
      decide ((s.data.proc 0).state ≠ .unused ∧ (s.data.proc 1).state ≠ .unused) = true :=
    Machine.Reach.exists_run (fun s _ _ => decide (0 < s.data.nextpid)) (startInit ++ forkCall)
      (fun s c a _ hpos p k _ _ _ => of_decide_eq_true hpos) (by decide +kernel)
  obtain ⟨s, hr, hlast⟩ := hrun
  obtain ⟨hzero, hone⟩ := of_decide_eq_true hlast
  refine ⟨s, hr, hzero, hone, fun heq => ?_⟩
  exact absurd ((pids_unique_until_wrap hr).1 0 1 hzero hone heq) (by decide)

section Wrap

-- Process 0 is in user space on CPU 0, slot 1 is UNUSED, and n is the next pid.
structure Ready (n : Int) (s : Machine (Kernel Unit Unit Unit Unit) (CpuPc Unit Unit Unit)) :
    Prop where
  reach : Machine.Reach (step bare) (fun _ _ _ => True) (boot ()) s
  pc : s.pc 0 = .run 0 .user
  plock : s.data.plock 0 = none ∧ s.data.plock 1 = none
  lock : s.data.lock .wait = none
  zero : (s.data.proc 0).state ≠ .unused
  one : (s.data.proc 1).state = .unused
  nextpid : s.data.nextpid = n

variable {n : Int} {s t u : Machine (Kernel Unit Unit Unit Unit) (CpuPc Unit Unit Unit)}

theorem ready_start : ∃ s, Ready 2 s := by
  have hrun : ∃ s, Machine.Reach (step bare) (fun _ _ _ => True) (boot ()) s ∧
      decide (s.pc 0 = .run 0 .user ∧ (s.data.plock 0 = none ∧ s.data.plock 1 = none) ∧
        s.data.lock .wait = none ∧ (s.data.proc 0).state ≠ .unused ∧
        (s.data.proc 1).state = .unused ∧ s.data.nextpid = 2) = true :=
    Machine.Reach.exists_run (fun _ _ _ => true) startInit (fun _ _ _ _ _ => trivial)
      (by decide +kernel)
  obtain ⟨s, hr, hlast⟩ := hrun
  obtain ⟨hpc, hplock, hlock, hzero, hone, hnextpid⟩ := of_decide_eq_true hlast
  exact ⟨s, hr, hpc, hplock, hlock, hzero, hone, hnextpid⟩

theorem Ready.found (h : Ready n s) :
    ∃ t, Machine.Reach (step bare) (fun _ _ _ => True) (boot ()) t ∧ t.data = s.data ∧
      t.pc 0 = .run 0 (.forkAlloc 1) := by
  have hcall : step bare 0 (.run 0 .user) .fork s.data = some (s.data, .run 0 (.forkAlloc 0)) := rfl
  have hnext : step bare 0 (.run 0 (.forkAlloc 0)) .go s.data =
      some (s.data, .run 0 (.forkAlloc 1)) := by
    simp [step, procStep, Pc.saved, Kernel.forkAlloc, Kernel.locked, h.plock.1, h.zero, NPROC]
  have hreach := h.reach.goto trivial (by rw [h.pc]; exact hcall)
  have hreach := hreach.goto trivial (by rw [Machine.goto_pc_self]; exact hnext)
  exact ⟨_, hreach, rfl, Machine.goto_pc_self ..⟩

theorem Ready.fail (h : Ready n s) : ∃ t, Ready (Int.bmod (n + 1) 0x100000000) t := by
  obtain ⟨u, hreach, hdata, hpc⟩ := h.found
  have hfail : step bare 0 (.run 0 (.forkAlloc 1)) (.memory false) s.data =
      some ({ s.data.setProc 1 fun _ => .free with
        nextpid := Int.bmod (s.data.nextpid + 1) 0x100000000 }, .run 0 (.sysret (-1))) := by
    simp [step, procStep, Pc.saved, Kernel.forkAlloc, Kernel.locked, h.plock.2, h.one, NPROC]
  have hreach := hreach.goto trivial (by rw [hpc, hdata]; exact hfail)
  have hreach := hreach.goto trivial (a := .go) (r := (_, .run 0 .user))
    (by rw [Machine.goto_pc_self]; rfl)
  refine ⟨_, hreach, Machine.goto_pc_self .., h.plock, h.lock, h.zero, rfl, ?_⟩
  show Int.bmod (s.data.nextpid + 1) 0x100000000 = _
  rw [h.nextpid]

theorem ready_of_lt (m : Nat) (hm : m < 0x7ffffffe) : ∃ s, Ready (2 + m) s := by
  induction m with
  | zero => exact ready_start
  | succ m ih =>
    obtain ⟨s, hs⟩ := ih (by omega)
    obtain ⟨t, ht⟩ := hs.fail
    have hnext : Int.bmod (2 + (m : Int) + 1) 0x100000000 = 2 + ((m + 1 : Nat) : Int) := by
      rw [bmod_succ_of_lt (by omega) (by omega)]
      omega
    exact ⟨t, hnext ▸ ht⟩

theorem ready_wrapped : ∃ s, Ready (-0x80000000) s := by
  obtain ⟨s, hs⟩ := ready_of_lt 0x7ffffffd (by decide)
  obtain ⟨t, ht⟩ := hs.fail
  have hnext : Int.bmod (2 + ((0x7ffffffd : Nat) : Int) + 1) 0x100000000 = -0x80000000 := by
    decide
  exact ⟨t, hnext ▸ ht⟩

-- A fork() of process 0 that makes a process in slot 1 and returns its pid.
theorem Ready.fork (h : Ready n s) :
    ∃ t, Machine.Reach (step bare) (fun _ _ _ => True) (boot ()) t ∧
      (t.data.proc 1).state = .runnable ∧ (t.data.proc 1).pid = n ∧
      t.pc 0 = .run 0 (.sysret n) := by
  obtain ⟨u, hreach, hdata, hpc⟩ := h.found
  have halloc : step bare 0 (.run 0 (.forkAlloc 1)) (.memory true) s.data =
      some ({ (s.data.setProc 1 fun np =>
          { np with pid := s.data.nextpid, state := .used, maker := some 0 }).setContext 1 .forkret
          with nextpid := Int.bmod (s.data.nextpid + 1) 0x100000000 },
        .run 0 (.forkParent 1 s.data.nextpid)) := by
    simp [step, procStep, Pc.saved, Kernel.forkAlloc, Kernel.locked, h.plock.2, h.one, NPROC]
  have hparent : ∀ d : Kernel Unit Unit Unit Unit, d.lock .wait = none →
      step bare 0 (.run 0 (.forkParent 1 n)) .go d =
        some (d.setProc 1 fun pr => { pr with parent := some 0 }, .run 0 (.forkRun 1 n)) := by
    intro d hl
    simp [step, procStep, Pc.saved, Kernel.forkParent, hl]
  have hrun : ∀ d : Kernel Unit Unit Unit Unit, d.plock 1 = none →
      step bare 0 (.run 0 (.forkRun 1 n)) .go d =
        some (d.setProc 1 fun pr => { pr with state := .runnable, maker := none },
          .run 0 (.sysret n)) := by
    intro d hl
    simp [step, procStep, Pc.saved, Kernel.forkRun, Kernel.locked, hl]
  rw [h.nextpid] at halloc
  have hreach := hreach.goto trivial (by rw [hpc, hdata]; exact halloc)
  have hreach := hreach.goto trivial (by rw [Machine.goto_pc_self]; exact hparent _ h.lock)
  have hreach := hreach.goto trivial (by rw [Machine.goto_pc_self]; exact hrun _ h.plock.2)
  exact ⟨_, hreach, rfl, rfl, Machine.goto_pc_self ..⟩

-- After enough calls of fork() a process has a negative pid, and fork() returns it.
theorem pid_negative_after_wrap :
    ∃ t : Machine (Kernel Unit Unit Unit Unit) (CpuPc Unit Unit Unit),
      Machine.Reach (step bare) (fun _ _ _ => True) (boot ()) t ∧
      (t.data.proc 1).state = .runnable ∧ (t.data.proc 1).pid < 0 ∧
      t.pc 0 = .run 0 (.sysret (t.data.proc 1).pid) := by
  obtain ⟨s, hs⟩ := ready_wrapped
  obtain ⟨t, ht, hstate, hpid, hpc⟩ := hs.fork
  exact ⟨t, ht, hstate, by rw [hpid]; decide, by rw [hpid]; exact hpc⟩

end Wrap

end Xv6.ProcTable
