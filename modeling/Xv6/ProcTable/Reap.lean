import Xv6.ProcTable.Wait

namespace Xv6.ProcTable

open Lib

variable {σ L C K α : Type}

section Step

variable {S : Services σ L C K α} {c : Nat} {d d' : Kernel σ L C K} {l l' : CpuPc L C K}

variable [DecidableEq K]

end Step

theorem SlotStep.unused {pr pr' : Proc C} (h : SlotStep pr pr') (hs' : pr'.state = .unused) :
    pr.state = .unused ∨ pr.state = .zombie := by
  cases h with
  | same => exact .inl hs'
  | fail hs => exact .inl hs
  | reap hs => exact .inr hs
  | parent hs => exact .inl hs'
  | tidy hs => exact .inl hs'
  | kill =>
    by_cases hs : pr.state = .sleeping
    · simp [hs] at hs'
    · simp only [hs, if_false] at hs'
      exact .inl hs'
  | _ => cases hs'

theorem boot_waitInv (data : σ) : WaitInv (boot (L := L) (C := C) (K := K) data).data := by
  have hparent : ∀ j, ((boot (L := L) (C := C) (K := K) data).data.proc j).parent = none := by
    intro j
    simp only [boot]
    split <;> rfl
  have hother : ∀ j, j ≠ initproc → (boot (L := L) (C := C) (K := K) data).data.proc j = .free :=
    fun j hj => if_neg hj
  refine ⟨fun _ q _ _ j hj => ?_, fun j hj => ?_, fun j _ => hparent j, fun j q hj => ?_, ?_,
    fun j => ?_⟩
  · rw [hparent j] at hj
    cases hj
  · have hne : j ≠ initproc := by
      simp only [initproc, NPROC] at *
      omega
    rw [hother j hne]
    rfl
  · rw [hparent j] at hj
    cases hj
  · simp [boot]
  · by_cases hj : j = initproc
    · subst hj
      rfl
    · rw [hother j hj]
      rfl

section Run

variable [DecidableEq C] [DecidableEq K] {S : Services σ L C K α} {data : σ}
  {s : Machine (Kernel σ L C K) (CpuPc L C K)}
  {ok : Machine (Kernel σ L C K) (CpuPc L C K) → Nat → Choice α → Prop}

end Run

end Xv6.ProcTable
