import Xv6.ProcTable.Slot

namespace Xv6.ProcTable

open Lib

variable {σ L C K α : Type} [DecidableEq C] [DecidableEq K] {S : Services σ L C K α} {data : σ}

-- kill() is never called for pid 0, and finds no process that fork() still makes.
def killsMade (s : Machine (Kernel σ L C K) (CpuPc L C K)) (c : Nat) (_ : Choice α) : Prop :=
  ∀ p pid k, s.pc c = .run p (.kill pid k) →
    pid ≠ 0 ∧ ((s.data.proc k).pid = pid → (s.data.proc k).state ≠ .used)

omit [DecidableEq C] [DecidableEq K] in
theorem killed_of_update {d d' : Kernel σ L C K} {j k : Nat} {pr : Proc C}
    (hk : (d'.proc j).killed = true) (hproc : d'.proc = Function.update d.proc k pr)
    (hpr : pr.killed = true → (d.proc k).killed = true) : (d.proc j).killed = true := by
  rw [hproc] at hk
  by_cases hj : j = k
  · subst hj
    rw [Function.update_self] at hk
    exact hpr hk
  · rwa [Function.update_of_ne hj] at hk

-- Only kill() sets killed, in the slot whose pid it is called with.
omit [DecidableEq C] in
theorem Stepped.killed {c : Nat} {d d' : Kernel σ L C K} {l l' : CpuPc L C K}
    (hst : Stepped S c d l d' l') {j : Nat} (hk : (d'.proc j).killed = true) :
    (d.proc j).killed = true ∨ ∃ p, l = .run p (.kill (d.proc j).pid j) := by
  cases hst with
  | choose hs => exact .inl (killed_of_update hk rfl id)
  | changed hch =>
    cases hch with
    | kill hk' hl hp =>
      rename_i p pid k
      by_cases hj : j = k
      · subst hj
        exact .inr ⟨p, by rw [hp]⟩
      · rw [(only_setProc k _).proc j hj] at hk
        exact .inl hk
    | forkFail hk' hl hs => exact .inl (killed_of_update hk rfl fun h => by cases h)
    | reap hk' hp hl hs => exact .inl (killed_of_update hk rfl fun h => by cases h)
    | forkAlloc hk' hl hs => exact .inl (killed_of_update hk rfl id)
    | forkParent hl => exact .inl (killed_of_update hk rfl id)
    | forkRun hl => exact .inl (killed_of_update hk rfl id)
    | exitReparent hk' hp => exact .inl (killed_of_update hk rfl id)
    | exitZombie => exact .inl (killed_of_update hk rfl id)
    | yieldLock hl => exact .inl (killed_of_update hk rfl id)
    | sleepSet => exact .inl (killed_of_update hk rfl id)
    | sleepTidy => exact .inl (killed_of_update hk rfl id)
    | wake hk' hc hl hs hch => exact .inl (killed_of_update hk rfl id)
    | _ => exact .inl hk
  | _ => exact .inl hk

-- A slot that no process has, or one that fork() still makes.
def Proc.unmade (pr : Proc C) : Prop := pr.state = .unused ∨ pr.state = .used

omit [DecidableEq C] in
theorem SlotStep.unmade {pr pr' : Proc C} (h : SlotStep pr pr') (hk : pr'.killed = true)
    (hu : pr'.unmade) : pr.unmade := by
  unfold Proc.unmade at *
  cases h with
  | same => exact hu
  | fail hs => exact .inl hs
  | alloc hs => exact .inl hs
  | parent hs => exact hu
  | reap hs => cases hk
  | tidy hs => exact hu
  | kill =>
    by_cases hs : pr.state = .sleeping
    · simp [hs] at hu
    · simpa [hs] using hu
  | _ => simp at hu

theorem reach_unmade {s : Machine (Kernel σ L C K) (CpuPc L C K)}
    (h : Machine.Reach (step S) killsMade (boot data) s) (j : Nat)
    (hu : (s.data.proc j).unmade) : (s.data.proc j).killed = false := by
  refine h.invariant (J := fun s => ∀ j, (s.data.proc j).unmade → (s.data.proc j).killed = false)
    (fun j _ => ?_) (fun s t c a hs hj hok ht j hu => ?_) j hu
  · simp only [boot]
    split <;> rfl
  · obtain ⟨d', l', hst, rfl⟩ := Machine.next_eq ht
    have hst := step_stepped hst
    by_contra hk
    have hk : (d'.proc j).killed = true := by simpa using hk
    have hun := (hst.slot ((reach_outlined hs).knows c) j).unmade hk hu
    rcases hst.killed hk with hkilled | ⟨p, hp⟩
    · exact absurd (hkilled.symm.trans (hj j hun)) (by decide)
    · obtain ⟨hpid, hused⟩ := hok p _ j hp
      rcases hun with hun | hun
      · exact hpid (reach_unused hs j hun).1
      · exact hused rfl hun

omit [DecidableEq C] in
theorem Stepped.kill_found {c p k : Nat} {pid : Int} {d d' : Kernel σ L C K} {l' : CpuPc L C K}
    (hst : Stepped S c d (.run p (.kill pid k)) d' l') (hl : l' = .run p (.sysret 0)) :
    (d.proc k).pid = pid ∧ d' = d.setProc k fun pr =>
      { pr with
        killed := true
        state := if pr.state = .sleeping then .runnable else pr.state } := by
  cases hst with
  | timer hf => cases hl
  | sched hpc hs => cases hl
  | moved hm => cases hm <;> simp at hl
  | changed hch =>
    cases hch with
    | kill hk' hl' hp => exact ⟨hp, rfl⟩
    | acquire ha => cases ha
    | release hr => cases hr

omit [DecidableEq C] in
theorem Stepped.fork_made {c p np : Nat} {pid : Int} {d d' : Kernel σ L C K} {l' : CpuPc L C K}
    (hst : Stepped S c d (.run p (.forkRun np pid)) d' l') (hl : l' = .run p (.sysret pid)) :
    d' = d.setProc np fun pr => { pr with state := .runnable, maker := none } := by
  cases hst with
  | timer hf => cases hl
  | sched hpc hs => cases hl
  | moved hm => cases hm
  | changed hch =>
    cases hch with
    | forkRun hl' => rfl
    | acquire ha => cases ha
    | release hr => cases hr

-- kill(pid) for a pid other than 0 returns 0 only for a process that has this
-- pid, whose slot alone it changes, and if it is not called for pid 0 and finds no slot
-- that fork() still makes, a process that fork() has made is not killed when it becomes RUNNABLE.
theorem kill_changes_owner :
    (∀ (ok : Machine (Kernel σ L C K) (CpuPc L C K) → Nat → Choice α → Prop) (s t) (c : Nat)
      (a : Choice α) (p : Nat) (pid : Int) (k : Nat),
      Machine.Reach (step S) ok (boot data) s → s.next (step S) c a = some t →
      s.pc c = .run p (.kill pid k) → t.pc c = .run p (.sysret 0) → pid ≠ 0 →
      (s.data.proc k).pid = pid ∧ (s.data.proc k).state ≠ .unused ∧
      t.data = s.data.setProc k fun pr =>
        { pr with
          killed := true
          state := if pr.state = .sleeping then .runnable else pr.state }) ∧
    (∀ (s t) (c : Nat) (a : Choice α) (p np : Nat) (pid : Int),
      Machine.Reach (step S) killsMade (boot data) s → s.next (step S) c a = some t →
      s.pc c = .run p (.forkRun np pid) → t.pc c = .run p (.sysret pid) →
      (t.data.proc np).state = .runnable ∧ (t.data.proc np).killed = false) := by
  refine ⟨fun ok s t c a p pid k hs ht hpc hpc' hpid => ?_,
    fun s t c a p np pid hs ht hpc hpc' => ?_⟩
  · obtain ⟨d', l', hst, rfl⟩ := Machine.next_eq ht
    rw [Machine.goto_pc_self] at hpc'
    obtain ⟨hp, hd⟩ := ((hpc ▸ step_stepped hst : Stepped S c s.data _ d' l')).kill_found hpc'
    refine ⟨hp, fun hu => hpid ?_, hd⟩
    rw [← hp]
    exact (reach_unused hs k hu).1
  · obtain ⟨d', l', hst, rfl⟩ := Machine.next_eq ht
    rw [Machine.goto_pc_self] at hpc'
    have hk := (reach_outlined hs).knows c
    rw [hpc] at hk
    have hd := ((hpc ▸ step_stepped hst : Stepped S c s.data _ d' l')).fork_made hpc'
    have hkilled := reach_unmade hs np (.inr hk.2.2.2.state)
    rw [Machine.goto_data, hd, Kernel.setProc_self]
    exact ⟨rfl, hkilled⟩

section Runs

def killsMadeCheck (s : Machine (Kernel Unit Unit Unit Unit) (CpuPc Unit Unit Unit)) (c : Nat)
    (_ : Choice Unit) : Bool :=
  match s.pc c with
  | .run _ (.kill pid k) => decide (pid ≠ 0 ∧ (s.data.proc k).state ≠ .used)
  | _ => true

theorem killsMade_of_check {s : Machine (Kernel Unit Unit Unit Unit) (CpuPc Unit Unit Unit)} {c : Nat}
    {a : Choice Unit} (h : killsMadeCheck s c a = true) : killsMade s c a := by
  intro p pid k hpc
  unfold killsMadeCheck at h
  rw [hpc] at h
  obtain ⟨hpid, hused⟩ := of_decide_eq_true h
  exact ⟨hpid, fun _ => hused⟩

-- The first process calls kill() for itself, or for a pid that no process has and
-- then fork().
theorem kill_changes_owner_init :
    (∃ s t : Machine (Kernel Unit Unit Unit Unit) (CpuPc Unit Unit Unit),
      s.next (step bare) 0 .go = some t ∧ (s.data.proc 0).pid = 1 ∧
      (s.data.proc 0).state ≠ .unused ∧ (t.data.proc 0).killed = true) ∧
    ∃ s t : Machine (Kernel Unit Unit Unit Unit) (CpuPc Unit Unit Unit),
      s.next (step bare) 0 .go = some t ∧ (t.data.proc 1).state = .runnable ∧
      (t.data.proc 1).killed = false := by
  have hkill : ∃ s, Machine.Reach (step bare) (fun _ _ _ => True) (boot ()) s ∧
      decide (s.pc 0 = .run 0 (.kill 1 0) ∧ ((s.next (step bare) 0 .go).any fun t =>
        decide (t.pc 0 = .run 0 (.sysret 0) ∧ (t.data.proc 0).killed = true)) = true) = true :=
    Machine.Reach.exists_run (fun _ _ _ => true) (startInit ++ [(0, .kill 1)])
      (fun _ _ _ _ _ => trivial) (by decide +kernel)
  have hfork : ∃ s, Machine.Reach (step bare) killsMade (boot ()) s ∧
      decide (s.pc 0 = .run 0 (.forkRun 1 2) ∧
        ((s.next (step bare) 0 .go).any fun t => decide (t.pc 0 = .run 0 (.sysret 2))) = true) =
        true :=
    Machine.Reach.exists_run killsMadeCheck
      (startInit ++ [(0, .kill 7)] ++ List.replicate (NPROC + 2) (0, .go) ++ forkCall)
      (fun _ _ _ _ h => killsMade_of_check h) (by decide +kernel)
  obtain ⟨s, hr, hlast⟩ := hkill
  obtain ⟨hpc, hnext⟩ := of_decide_eq_true hlast
  obtain ⟨t, ht, hlast⟩ := (Option.any_eq_true _ _).mp hnext
  obtain ⟨hpc', hkilled⟩ := of_decide_eq_true hlast
  obtain ⟨hpid, hstate, -⟩ := kill_changes_owner.1 _ s t 0 .go 0 1 0 hr ht hpc hpc' (by decide)
  refine ⟨⟨s, t, ht, hpid, hstate, hkilled⟩, ?_⟩
  obtain ⟨s, hr, hlast⟩ := hfork
  obtain ⟨hpc, hnext⟩ := of_decide_eq_true hlast
  obtain ⟨t, ht, hlast⟩ := (Option.any_eq_true _ _).mp hnext
  exact ⟨s, t, ht, kill_changes_owner.2 s t 0 .go 0 1 2 hr ht hpc (of_decide_eq_true hlast)⟩

-- kill(0) finds the first slot that is UNUSED, and the process that fork() then
-- makes there is killed when it becomes RUNNABLE.
theorem kill_zero_marks_unused :
    (∃ s t : Machine (Kernel Unit Unit Unit Unit) (CpuPc Unit Unit Unit),
      Machine.Reach (step bare) (fun _ _ _ => True) (boot ()) s ∧
      s.next (step bare) 0 .go = some t ∧ s.pc 0 = .run 0 (.kill 0 1) ∧
      t.pc 0 = .run 0 (.sysret 0) ∧
      ∀ j < NPROC, (s.data.proc j).pid = 0 → (s.data.proc j).state = .unused) ∧
    ∃ s : Machine (Kernel Unit Unit Unit Unit) (CpuPc Unit Unit Unit),
      Machine.Reach (step bare) (fun _ _ _ => True) (boot ()) s ∧ s.pc 0 = .run 0 (.sysret 2) ∧
      (s.data.proc 1).pid = 2 ∧ (s.data.proc 1).state = .runnable ∧
      (s.data.proc 1).killed = true := by
  have hkill : ∃ s, Machine.Reach (step bare) (fun _ _ _ => True) (boot ()) s ∧
      decide (s.pc 0 = .run 0 (.kill 0 1) ∧
        (∀ j < NPROC, (s.data.proc j).pid = 0 → (s.data.proc j).state = .unused) ∧
        ((s.next (step bare) 0 .go).any fun t => decide (t.pc 0 = .run 0 (.sysret 0))) = true) =
        true :=
    Machine.Reach.exists_run (fun _ _ _ => true) (startInit ++ [(0, .kill 0), (0, .go)])
      (fun _ _ _ _ _ => trivial) (by decide +kernel)
  have hfork : ∃ s, Machine.Reach (step bare) (fun _ _ _ => True) (boot ()) s ∧
      decide (s.pc 0 = .run 0 (.sysret 2) ∧ (s.data.proc 1).pid = 2 ∧
        (s.data.proc 1).state = .runnable ∧ (s.data.proc 1).killed = true) = true :=
    Machine.Reach.exists_run (fun _ _ _ => true)
      (startInit ++ [(0, .kill 0), (0, .go), (0, .go), (0, .go)] ++ forkCall ++ [(0, .go)])
      (fun _ _ _ _ _ => trivial) (by decide +kernel)
  obtain ⟨s, hr, hlast⟩ := hkill
  obtain ⟨hpc, hpid, hnext⟩ := of_decide_eq_true hlast
  obtain ⟨t, ht, hpc'⟩ := (Option.any_eq_true _ _).mp hnext
  obtain ⟨u, hu, hlast⟩ := hfork
  exact ⟨⟨s, t, hr, ht, hpc, of_decide_eq_true hpc', hpid⟩, u, hu, of_decide_eq_true hlast⟩

end Runs

end Xv6.ProcTable
