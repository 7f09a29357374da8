import Xv6.ProcTable.Thread

namespace Xv6.ProcTable

open Lib

variable {σ L C K α : Type}

-- What a step can do to a slot of the table.
inductive SlotStep (pr : Proc C) : Proc C → Prop
  | same : SlotStep pr pr
  | fail (hs : pr.state = .unused) : SlotStep pr .free
  | alloc {pid : Int} {p : Nat} (hs : pr.state = .unused) :
      SlotStep pr { pr with pid := pid, state := .used, maker := some p }
  | parent {q : Nat} (hs : pr.state = .used ∨ pr.parent.isSome = true) :
      SlotStep pr { pr with parent := some q }
  | run (hs : pr.state = .used) : SlotStep pr { pr with state := .runnable, maker := none }
  | exit {status : Int} (hs : pr.state = .running) :
      SlotStep pr { pr with xstate := status, state := .zombie }
  | reap (hs : pr.state = .zombie) : SlotStep pr .free
  | kill :
      SlotStep pr
        { pr with
          killed := true
          state := if pr.state = .sleeping then .runnable else pr.state }
  | yield (hs : pr.state = .running) : SlotStep pr { pr with state := .runnable }
  | sleep {ch : Chan C} (hs : pr.state = .running) :
      SlotStep pr { pr with chan := some ch, state := .sleeping }
  | tidy (hs : pr.state = .running) : SlotStep pr { pr with chan := none }
  | wake (hs : pr.state = .sleeping) : SlotStep pr { pr with state := .runnable }
  | choose (hs : pr.state = .runnable) : SlotStep pr { pr with state := .running }

theorem SlotStep.only {d d' : Kernel σ L C K} {k : Nat} {pr : Proc C} (h : SlotStep (d.proc k) pr)
    (hproc : d'.proc = Function.update d.proc k pr) (j : Nat) :
    SlotStep (d.proc j) (d'.proc j) := by
  rw [hproc]
  by_cases hj : j = k
  · subst hj
    rw [Function.update_self]
    exact h
  · rw [Function.update_of_ne hj]
    exact .same

variable [DecidableEq K] {S : Services σ L C K α} {c p : Nat} {d d' : Kernel σ L C K}
  {pc pc' : Pc L C K} {l l' : CpuPc L C K}

theorem Changed.running (hch : Changed S c p d pc d' pc') : pc.procState = .running := by
  cases hch with
  | acquire ha hl => exact ha.running
  | release hr => exact hr.running
  | _ => rfl

theorem Changed.slot (hch : Changed S c p d pc d' pc') (hk : CpuKnows c (.run p pc) d) (j : Nat) :
    SlotStep (d.proc j) (d'.proc j) := by
  obtain ⟨-, -, hstate, ht⟩ := hk
  cases hch with
  | forkFail hk' hl hs => exact SlotStep.only (.fail hs) rfl j
  | forkAlloc hk' hl hs => exact SlotStep.only (.alloc hs) rfl j
  | forkParent hl => exact SlotStep.only (.parent (.inl ht.state)) rfl j
  | forkRun hl => exact SlotStep.only (.run ht.state) rfl j
  | exitReparent hk' hp => exact SlotStep.only (.parent (.inr (by simp [hp]))) rfl j
  | exitZombie => exact SlotStep.only (.exit hstate) rfl j
  | reap hk' hp hl hs => exact SlotStep.only (.reap hs) rfl j
  | kill hk' hl hp => exact SlotStep.only .kill rfl j
  | yieldLock hl => exact SlotStep.only (.yield hstate) rfl j
  | sleepSet => exact SlotStep.only (.sleep hstate) rfl j
  | sleepTidy => exact SlotStep.only (.tidy hstate) rfl j
  | wake hk' hc hl hs hch => exact SlotStep.only (.wake hs) rfl j
  | _ => exact .same

theorem Stepped.slot (hst : Stepped S c d l d' l') (hk : CpuKnows c l d) (j : Nat) :
    SlotStep (d.proc j) (d'.proc j) := by
  cases hst with
  | choose hs => exact SlotStep.only (.choose hs) rfl j
  | changed hch => exact hch.slot hk j
  | _ => exact .same

omit [DecidableEq K] in
theorem asleep_of_update {j k : Nat} {pr : Proc C} (hs : (d'.proc j).state = .sleeping)
    (hproc : d'.proc = Function.update d.proc k pr)
    (hpr : j = k → pr.state = .sleeping →
      (d.proc k).state = .sleeping ∧ pr.chan = (d.proc k).chan) :
    (d.proc j).state = .sleeping ∧ (d'.proc j).chan = (d.proc j).chan := by
  rw [hproc] at hs ⊢
  by_cases hj : j = k
  · subst hj
    rw [Function.update_self] at hs ⊢
    exact hpr rfl hs
  · rw [Function.update_of_ne hj] at hs ⊢
    exact ⟨hs, rfl⟩

theorem Changed.asleep (hch : Changed S c p d pc d' pc') {j : Nat} (hj : j ≠ p)
    (hs : (d'.proc j).state = .sleeping) :
    (d.proc j).state = .sleeping ∧ (d'.proc j).chan = (d.proc j).chan := by
  cases hch with
  | forkFail hk hl hu => exact asleep_of_update hs rfl fun _ h => by cases h
  | forkAlloc hk hl hu => exact asleep_of_update hs rfl fun _ h => by cases h
  | forkParent hl => exact asleep_of_update hs rfl fun _ h => ⟨h, rfl⟩
  | forkRun hl => exact asleep_of_update hs rfl fun _ h => by cases h
  | exitReparent hk hp => exact asleep_of_update hs rfl fun _ h => ⟨h, rfl⟩
  | exitZombie => exact asleep_of_update hs rfl fun _ h => by cases h
  | reap hk hp hl hz => exact asleep_of_update hs rfl fun _ h => by cases h
  | kill hk hl hp =>
    refine asleep_of_update hs rfl fun _ h => ?_
    dsimp only at h
    split at h
    · cases h
    · exact ⟨h, rfl⟩
  | yieldLock hl => exact asleep_of_update hs rfl fun _ h => by cases h
  | sleepSet => exact asleep_of_update hs rfl fun heq => absurd heq hj
  | sleepTidy => exact asleep_of_update hs rfl fun heq => absurd heq hj
  | wake hk hc hl hs' hch => exact asleep_of_update hs rfl fun _ h => by cases h
  | _ => exact ⟨hs, rfl⟩

variable [DecidableEq C] {data : σ} {s : Machine (Kernel σ L C K) (CpuPc L C K)}
  {ok : Machine (Kernel σ L C K) (CpuPc L C K) → Nat → Choice α → Prop}

theorem reach_slot {P : Proc C → Prop} (h : Machine.Reach (step S) ok (boot data) s)
    (hfree : P .free) (hinit : P { Proc.free with state := .runnable, pid := 1 })
    (hstep : ∀ pr pr', SlotStep pr pr' → P pr → P pr') (j : Nat) : P (s.data.proc j) := by
  refine h.invariant (J := fun s => ∀ j, P (s.data.proc j)) (fun j => ?_)
    (fun s t c a hs hj _ ht j => ?_) j
  · simp only [boot]
    split
    · exact hinit
    · exact hfree
  · obtain ⟨d', l', hst, rfl⟩ := Machine.next_eq ht
    exact hstep _ _ ((step_stepped hst).slot ((reach_outlined hs).knows c) j) (hj j)

theorem reach_unused (h : Machine.Reach (step S) ok (boot data) s) (j : Nat)
    (hs : (s.data.proc j).state = .unused) :
    (s.data.proc j).pid = 0 ∧ (s.data.proc j).parent = none := by
  refine reach_slot (P := fun pr => pr.state = .unused → pr.pid = 0 ∧ pr.parent = none) h
    (fun _ => ⟨rfl, rfl⟩) (by simp) (fun pr pr' hst hp hu => ?_) j hs
  cases hst with
  | same => exact hp hu
  | fail hs => exact ⟨rfl, rfl⟩
  | reap hs => exact ⟨rfl, rfl⟩
  | parent hs =>
    rcases hs with hs | hs
    · exact absurd (hs.symm.trans hu) (by decide)
    · rw [(hp hu).2] at hs
      cases hs
  | kill =>
    by_cases hs : pr.state = .sleeping
    · simp [hs] at hu
    · simp only [hs, if_false] at hu
      exact hp hu
  | tidy hs => exact absurd (hs.symm.trans hu) (by decide)
  | _ => simp at hu

end Xv6.ProcTable
