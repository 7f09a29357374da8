import Xv6.Mkfs
import Xv6.Lib.Serial

namespace Xv6.Fs

open Lib

variable {sb : Superblock}

-- The calls of a list, one after the other, as long as they return.
def session (sb : Superblock) :
    List (Nat × Syscall) → Sys → Option (List (Label × Sys) × Sys)
  | [], s => some ([], s)
  | (p, call) :: rest, s =>
    if (s.proc p).cwd = none then none
    else
      match (syscall sb p call).run s with
      | .done t _ => (session sb rest t).map fun r => ((syscall sb p call).trace s ++ r.1, r.2)
      | _ => none

theorem serial_of_session {calls : List (Nat × Syscall)} {start s t : Sys}
    {hist hist' : List (Label × Sys)} (h : Serial (Calls sb) start hist s)
    (hs : session sb calls s = some (hist', t)) : Serial (Calls sb) start (hist ++ hist') t := by
  induction calls generalizing s hist hist' with
  | nil =>
    cases hs
    rw [List.append_nil]
    exact h
  | cons c rest ih =>
    obtain ⟨p, call⟩ := c
    rw [session] at hs
    split at hs
    · cases hs
    · rename_i hlive
      cases hr : (syscall sb p call).run s with
      | done u a =>
        rw [hr] at hs
        obtain ⟨⟨hist₂, t₂⟩, hrest, heq⟩ := Option.map_eq_some_iff.mp hs
        cases heq
        have hrun : (syscall sb p call >>= fun _ => Prog.ret ()).run s = .done u () := by
          rw [Prog.run_bind, hr]
          rfl
        have htrace := Prog.trace_bind_ret (syscall sb p call) (fun _ => ()) s
        have hcall := h.call ⟨hlive, call, rfl⟩ hrun
        rw [Prog.pure_eq, htrace] at hcall
        rw [← List.append_assoc]
        exact ih hcall hrest
      | panic msg =>
        rw [hr] at hs
        cases hs
      | blocked =>
        rw [hr] at hs
        cases hs

theorem exists_serial {calls : List (Nat × Syscall)} {start : Sys}
    {check : List (Label × Sys) × Sys → Bool} (h : (session sb calls start).any check = true) :
    ∃ hist s, Serial (Calls sb) start hist s ∧ check (hist, s) = true := by
  obtain ⟨r, hr, hcheck⟩ := (Option.any_eq_true _ _).mp h
  exact ⟨r.1, r.2, serial_of_session .init hr, hcheck⟩

-- The message of a panic.
def message {α : Type} : Res Sys α → Option String
  | .panic msg => some msg
  | _ => none

theorem eq_panic {α : Type} {r : Res Sys α} {msg : String} (h : message r = some msg) :
    r = .panic msg := by
  cases r with
  | panic msg' =>
    cases h
    rfl
  | done t a => cases h
  | blocked => cases h

-- What a program returns.
def answer {α : Type} : Res Sys α → Option α
  | .done _ a => some a
  | _ => none

theorem exists_answer {α : Type} {r : Res Sys α} {a : α} (h : answer r = some a) :
    ∃ t, r = .done t a := by
  cases r with
  | done t b =>
    cases h
    exact ⟨t, rfl⟩
  | panic msg => cases h
  | blocked => cases h

-- The image of mkfs without files.
def emptyImage : Image :=
  (Mkfs.main []).getD ⟨fun _ => Dinode.zero, fun _ => false, fun _ => Block.zero⟩

example : (Mkfs.main []).isSome := by decide +kernel

end Xv6.Fs
