import Xv6.Pipe.Fifo
import Xv6.Lib.Monitor.Wakeup

namespace Xv6.Pipe

open Lib Lib.Monitor

-- When a process may sleep on a channel.
def mayWait : Chan → Data → Prop
  | .nread, d => d.pi.nread = d.pi.nwrite ∧ d.pi.writeopen = true
  | .nwrite, d => d.pi.nwrite = d.pi.nread + BitVec.ofNat 32 PIPESIZE ∧ d.pi.readopen = true

-- The wakeup that a process owes at each point. In the loop of pipewrite() it
-- owes one only if it has put bytes since it last acquired pi->lock.
def owes : Pc → Chan → Prop
  | .writeLoop _ i first, .nread | .writeKilled _ i first, .nread | .writeFull _ i first, .nread
  | .writeCopy _ i first, .nread => first < i
  | .writeSignal _ _, .nread | .writeWake _, .nread => True
  | .readTest _ _, .nwrite | .readCopy _ _, .nwrite | .readWake _ _, .nwrite => True
  | .closeWake writable, c => c = if writable then .nread else .nwrite
  | _, _ => False

def wakePre : Pc → Data → Prop
  | .writeLoop _ i first, d => first ≤ i ∧ (first < i → d.pi.readopen = true)
  | .writeKilled _ i first, d | .writeFull _ i first, d => first ≤ i ∧ d.pi.readopen = true
  | .writeCopy _ i first, d => first ≤ i ∧ d.pi.readopen = true ∧ d.full = false
  | .writeSignal _ _, d | .writeSleep _ _, d => mayWait .nwrite d
  | .readKilled _, d | .readSleep _, d => mayWait .nread d
  | .readCopy _ _, d => d.empty = false
  | _, _ => True

-- pipewrite() is not killed between putting a byte and giving up pi->lock.
def finishes : Pc → Choice → Bool → Bool
  | .writeKilled _ i first, _, killed => !(killed && decide (first < i))
  | _, _, _ => true

theorem wake_inside {l : Pc} {f : Choice → Data → Option (Data × Pc)} (hc : code l = .act f)
    (hl : holds l = true) {a : Choice} {d d' : Data} {next : Pc} (hd : wakePre l d)
    (hf : f a d = some (d', next)) : holds next = true ∧ wakePre next d' ∧
      ∀ c, mayWait c d ∨ owes l c → mayWait c d' ∨ owes next c := by
  cases l with
  | writeLoop n i first =>
    cases hc
    cases hf
    split
    · split
      · rename_i hopen
        exact ⟨rfl, ⟨hd.1, hopen⟩, fun c h => by cases c <;> exact h⟩
      · rename_i hclosed
        refine ⟨rfl, trivial, fun c h => h.imp_right fun howe => ?_⟩
        cases c with
        | nread => exact hclosed (hd.2 howe)
        | nwrite => exact howe
    · refine ⟨rfl, trivial, fun c h => h.imp_right fun howe => ?_⟩
      cases c with
      | nread => trivial
      | nwrite => exact howe
  | writeFull n i first =>
    cases hc
    cases hf
    split
    · rename_i hfull
      refine ⟨rfl, ⟨of_decide_eq_true hfull, hd.2⟩, fun c h => h.imp_right fun howe => ?_⟩
      cases c with
      | nread => trivial
      | nwrite => exact howe
    · rename_i hfull
      exact ⟨rfl, ⟨hd.1, hd.2, by simpa using hfull⟩, fun c h => by cases c <;> exact h⟩
  | writeCopy n i first =>
    cases hc
    cases a with
    | copyin ch =>
      cases ch with
      | none =>
        cases hf
        refine ⟨rfl, trivial, fun c h => h.imp_right fun howe => ?_⟩
        cases c with
        | nread => trivial
        | nwrite => exact howe
      | some ch =>
        cases hf
        obtain ⟨hle, hopen, hfull⟩ := hd
        refine ⟨rfl, ⟨by omega, fun _ => hopen⟩, fun c h => ?_⟩
        cases c with
        | nread => exact .inr (Nat.lt_succ_of_le hle)
        | nwrite =>
          -- the ring was not full, so nobody waits for room
          rcases h with hwait | howe
          · exact absurd hwait.1 (of_decide_eq_false hfull)
          · exact absurd howe id
    | _ => cases hf
  | readLoop n =>
    cases hc
    cases hf
    split
    · rename_i hwait
      obtain ⟨hempty, hopen⟩ := Bool.and_eq_true_iff.mp hwait
      exact ⟨rfl, ⟨of_decide_eq_true hempty, hopen⟩, fun c h => h⟩
    · refine ⟨rfl, trivial, fun c h => h.imp_right fun howe => ?_⟩
      cases c <;> exact howe.elim
  | readTest n out =>
    cases hc
    dsimp only at hf
    split at hf
    · rename_i hmore
      cases hf
      refine ⟨rfl, hmore.2, fun c h => ?_⟩
      cases c <;> exact h
    · cases hf
      refine ⟨rfl, trivial, fun c h => ?_⟩
      cases c <;> exact h
  | readCopy n out =>
    cases hc
    -- the ring was not empty, so nobody waits for bytes
    have hpay : ∀ (d' : Data) (next : Pc), owes next .nwrite → ∀ c,
        mayWait c d ∨ owes (.readCopy n out) c → mayWait c d' ∨ owes next c := by
      intro d' next howe c h
      cases c with
      | nwrite => exact .inr howe
      | nread =>
        rcases h with hwait | h
        · exact absurd hwait.1 (of_decide_eq_false hd)
        · exact absurd h id
    cases a with
    | copyout ok =>
      cases ok <;> cases hf
      · exact ⟨rfl, trivial, hpay _ _ trivial⟩
      · exact ⟨rfl, trivial, hpay _ _ trivial⟩
    | _ => cases hf
  | closeSet writable =>
    cases hc
    cases hf
    refine ⟨rfl, trivial, fun c h => ?_⟩
    cases writable <;> cases c
    · exact .inl (h.resolve_right id)
    · exact .inr rfl
    · exact .inr rfl
    · exact .inl (h.resolve_right id)
  | closeTest =>
    cases hc
    cases hf
    exact ⟨rfl, trivial, fun c h => h⟩
  | idle | closeFree => cases hl
  | _ => cases hc

theorem wake_outline : Outline code finishes holds (fun _ => True) wakePre mayWait where
  acquire {l next} hc := by
    cases l with
    | write n =>
      cases hc
      exact ⟨rfl, rfl, fun _ _ => ⟨le_refl 0, fun h => absurd h (lt_irrefl 0)⟩⟩
    | read | close =>
      cases hc
      exact ⟨rfl, rfl, fun _ _ => trivial⟩
    | _ => cases hc
  release {l next} hc := by
    cases l with
    | closeReturn free =>
      cases hc
      exact ⟨rfl, by split <;> rfl, fun _ _ => trivial⟩
    | writeReturn | readReturn | readFail =>
      cases hc
      exact ⟨rfl, rfl, fun _ _ => trivial⟩
    | _ => cases hc
  outside := act_outside
  inside hc hl _ _ _ _ _ _ hd hf := by
    obtain ⟨hn, hpre, -⟩ := wake_inside hc hl hd hf
    exact ⟨hn, hpre⟩
  killed {l yes no} hc := by
    cases l with
    | writeKilled n i first =>
      cases hc
      exact ⟨rfl, rfl, fun _ h => ⟨trivial, h⟩⟩
    | readKilled n =>
      cases hc
      exact ⟨rfl, rfl, fun _ h => ⟨trivial, h⟩⟩
    | _ => cases hc
  sleep {l c next} hc := by
    cases l with
    | writeSleep n i =>
      cases hc
      exact ⟨rfl, rfl, fun _ h => ⟨trivial, h⟩, fun _ _ => ⟨le_refl i, fun h => absurd h (lt_irrefl i)⟩⟩
    | readSleep n =>
      cases hc
      exact ⟨rfl, rfl, fun _ h => ⟨trivial, h⟩, fun _ _ => trivial⟩
    | _ => cases hc
  wakeup {l c next} hc := by
    cases l <;> cases hc <;> exact ⟨rfl, rfl, fun _ h => h⟩

theorem wake_pays : Pays code finishes holds wakePre mayWait owes where
  release {l next} hc c := by
    cases l <;> cases hc <;> cases c <;> exact id
  sleep {l c next} hc c' := by
    cases l <;> cases hc <;> cases c' <;> exact id
  act hc hl _ _ _ _ _ _ hd hf := (wake_inside hc hl hd hf).2.2
  killed {l yes no} hc a c howe := by
    cases l with
    | writeKilled n i first =>
      cases hc
      cases c with
      | nread =>
        refine ⟨fun hok => ?_, fun _ => howe⟩
        have hlt : first < i := howe
        simp [finishes, hlt] at hok
      | nwrite => exact howe.elim
    | readKilled n =>
      cases hc
      cases c <;> exact howe.elim
    | _ => cases hc
  wakeup {l c next} hc c' howe := by
    cases l with
    | closeWake writable =>
      cases hc
      exact .inl howe
    | writeSignal | writeWake | readWake =>
      cases hc
      cases c'
      · first | exact .inl rfl | exact howe.elim
      · first | exact .inl rfl | exact howe.elim
    | _ => cases hc

-- No process sleeps on the pipe while what it waits for is there.
def NoLostWakeup (s : Sys Data Pc Chan) : Prop :=
  (∀ p next, s.proc p = .asleep .nread next →
    ¬ (s.data.pi.nread ≠ s.data.pi.nwrite ∨ s.data.pi.writeopen = false)) ∧
  (∀ p next, s.proc p = .asleep .nwrite next →
    ¬ (s.data.pi.nwrite ≠ s.data.pi.nread + BitVec.ofNat 32 PIPESIZE ∨
      s.data.pi.readopen = false))

-- The early return of pipewrite() for a killed process is its only way out
-- that leaves readers asleep: in every run in which no writer takes it with
-- bytes put since it last acquired pi->lock, no wakeup is lost.
theorem pipe_wakeup {nproc : Nat} {data : Fin PIPESIZE → UInt8} {s : Sys Data Pc Chan}
    (h : Reach code nproc finishes (start data) s) (hl : s.lock = none) : NoLostWakeup s := by
  have hfirst : Waking mayWait owes (start data) := by
    rintro q c ⟨next, hq | hq⟩ <;> cases hq
  have hw := h.waking wake_outline wake_pays (start_outlined nproc data trivial) hfirst
  constructor
  · intro p next hp
    obtain ⟨hempty, hopen⟩ := hw.cond_of_lock_none hl (q := p) (c := .nread) ⟨next, .inr hp⟩
    simp [hempty, hopen]
  · intro p next hp
    obtain ⟨hfull, hopen⟩ := hw.cond_of_lock_none hl (q := p) (c := .nwrite) ⟨next, .inr hp⟩
    simp [hfull, hopen]

-- A reader waits. A writer puts one byte of two and is killed.
def killedWriter : List (Move Choice) :=
  [.step 0 (.read 1)] ++ List.replicate 6 (.step 0 .next) ++
    [.step 1 (.write 2)] ++ List.replicate 4 (.step 1 .next) ++
    [.step 1 (.copyin (some 7)), .kill 1] ++ List.replicate 3 (.step 1 .next)

theorem killedWriter_loses_wakeup :
    ¬ ∀ (nproc : Nat) (data : Fin PIPESIZE → UInt8) (s : Sys Data Pc Chan),
      Reach code nproc (fun _ _ _ => true) (start data) s → s.lock = none → NoLostWakeup s := by
  intro h
  refine (h 2 (fun _ => 5) _ (Reach.run code 2 (fun _ _ _ => true) (start fun _ => 5) killedWriter
    (by decide +kernel)) (by decide +kernel)).1 0 (.readLoop 1) (by decide +kernel) (.inl ?_)
  decide +kernel

-- A reader waits on the empty pipe, with its writer open.
theorem pipe_wakeup_reader :
    ∃ s, Reach code 2 finishes (start fun _ => 5) s ∧ s.proc 0 = .asleep .nread (.readLoop 1) ∧
      NoLostWakeup s := by
  refine ⟨_, Reach.run code 2 finishes (start fun _ => 5) (killedWriter.take 7) (by decide +kernel),
    by decide +kernel, ?_⟩
  exact pipe_wakeup (Reach.run code 2 finishes (start fun _ => 5) (killedWriter.take 7)
    (by decide +kernel)) (by decide +kernel)

end Xv6.Pipe
