import Xv6.Pipe
import Xv6.Lib.Monitor.Outline

namespace Xv6.Pipe

open Lib Lib.Monitor

-- Where pi->lock is held.
def holds : Pc → Bool
  | .idle | .write _ | .read _ | .close _ | .closeFree => false
  | _ => true

-- The bytes accepted are those returned, those a reader has copied so far and
-- those in the ring, in that order.
structure Fifo (out : List UInt8) (d : Data) : Prop where
  fits : d.pi.count ≤ PIPESIZE
  order : d.accepted = d.returned ++ out ++ d.pi.contents

namespace Data

theorem empty_iff (d : Data) : d.empty = true ↔ d.pi.count = 0 := by
  rw [empty, decide_eq_true_iff, Ring.count_eq_zero_iff]

theorem full_iff (d : Data) : d.full = true ↔ d.pi.count = PIPESIZE := by
  rw [full, decide_eq_true_iff]
  exact Ring.full_iff (by decide) d.pi.toRing

end Data

theorem Fifo.put {d : Data} (h : Fifo [] d) (hroom : d.pi.count < PIPESIZE) (ch : UInt8) :
    Fifo [] (d.put ch) := by
  have hcount : (d.put ch).pi.count = d.pi.count + 1 := Ring.count_put (by decide) hroom ch
  have hcontents : (d.put ch).pi.contents = d.pi.contents ++ [ch] :=
    Ring.contents_put (by decide) (by decide) hroom ch
  refine ⟨by omega, ?_⟩
  rw [hcontents, ← List.append_assoc]
  exact congrArg (· ++ [ch]) h.order

theorem Fifo.drop {d : Data} {out : List UInt8} (h : Fifo out d) (hd : d.empty = false) :
    Fifo (out ++ [d.pi.front]) d.drop := by
  have hpos : 0 < d.pi.count := by
    have hne := mt (Data.empty_iff d).mpr (by simp [hd])
    omega
  have hcount : d.drop.pi.count + 1 = d.pi.count := Ring.count_drop hpos
  have hcontents : d.pi.contents = d.pi.front :: d.drop.pi.contents := Ring.contents_drop hpos
  have horder := h.order
  rw [hcontents] at horder
  refine ⟨by have := h.fits; omega, ?_⟩
  simpa [Data.drop] using horder

theorem Fifo.deliver {d : Data} {out : List UInt8} (h : Fifo out d) : Fifo [] (d.deliver out) where
  fits := h.fits
  order := by simpa [Data.deliver] using h.order

theorem Fifo.shut {d : Data} (h : Fifo [] d) (writable : Bool) : Fifo [] (d.shut writable) := by
  cases writable <;> exact ⟨h.fits, h.order⟩

-- What holds of the pipe at each point where pi->lock is held.
def fifoPre : Pc → Data → Prop
  | .writeCopy _ _ _, d => Fifo [] d ∧ d.pi.count < PIPESIZE
  | .readTest _ out, d => Fifo out d ∧ (out = [] → d.empty = true → d.pi.writeopen = false)
  | .readCopy _ out, d => Fifo out d ∧ d.empty = false
  | .readWake n out, d | .readReturn n out, d =>
    Fifo [] d ∧ (out = [] → 0 < n → d.empty = true ∧ d.pi.writeopen = false)
  | _, d => Fifo [] d

-- Every copy between kernel and user memory succeeds.
def copies (_ : Pc) (a : Choice) (_ : Bool) : Bool :=
  match a with
  | .copyin none | .copyout false => false
  | _ => true

theorem fifo_inside {l : Pc} {f : Choice → Data → Option (Data × Pc)} (hc : code l = .act f)
    (hl : holds l = true) {a : Choice} {k : Bool} {d d' : Data} {next : Pc} (hok : copies l a k = true)
    (hd : fifoPre l d) (hf : f a d = some (d', next)) : holds next = true ∧ fifoPre next d' := by
  cases l with
  | writeLoop n i first =>
    cases hc
    cases hf
    split
    · split
      · exact ⟨rfl, hd⟩
      · exact ⟨rfl, hd⟩
    · exact ⟨rfl, hd⟩
  | writeFull n i first =>
    cases hc
    cases hf
    split
    · exact ⟨rfl, hd⟩
    · rename_i hfull
      have hne := mt d.full_iff.mpr hfull
      exact ⟨rfl, hd, lt_of_le_of_ne hd.fits hne⟩
  | writeCopy n i first =>
    cases hc
    cases a with
    | copyin ch =>
      cases ch with
      | none => cases hok
      | some ch =>
        cases hf
        exact ⟨rfl, hd.1.put hd.2 ch⟩
    | _ => cases hf
  | readLoop n =>
    cases hc
    cases hf
    split
    · exact ⟨rfl, hd⟩
    · rename_i hwait
      refine ⟨rfl, hd, fun _ hempty => ?_⟩
      simpa [hempty] using hwait
  | readTest n out =>
    cases hc
    dsimp only at hf
    split at hf
    · rename_i hmore
      cases hf
      exact ⟨rfl, hd.1, hmore.2⟩
    · rename_i hmore
      cases hf
      refine ⟨rfl, hd.1.deliver, fun hout hn => ?_⟩
      have hempty : d.empty = true := by
        simpa [hout, hn] using hmore
      exact ⟨hempty, hd.2 hout hempty⟩
  | readCopy n out =>
    cases hc
    cases a with
    | copyout ok =>
      cases ok with
      | false => cases hok
      | true =>
        cases hf
        exact ⟨rfl, hd.1.drop hd.2, fun h => absurd h (by simp)⟩
    | _ => cases hf
  | closeSet writable =>
    cases hc
    cases hf
    exact ⟨rfl, hd.shut writable⟩
  | closeTest =>
    cases hc
    cases hf
    exact ⟨rfl, hd⟩
  | idle | closeFree => cases hl
  | _ => cases hc

theorem act_outside {l : Pc} {f : Choice → Data → Option (Data × Pc)} (hc : code l = .act f)
    (hl : holds l = false) {a : Choice} {d d' : Data} {next : Pc} (hf : f a d = some (d', next)) :
    holds next = false ∧ d' = d := by
  cases l with
  | idle =>
    cases hc
    cases a with
    | write | read | close =>
      cases hf
      exact ⟨rfl, rfl⟩
    | _ => cases hf
  | closeFree =>
    cases hc
    cases hf
    exact ⟨rfl, rfl⟩
  | write | read | close => cases hc
  | _ => cases hl

theorem fifo_outline : Outline code copies holds (Fifo []) fifoPre (fun _ _ => True) where
  acquire {l next} hc := by
    cases l <;> cases hc <;> exact ⟨rfl, rfl, fun _ h => h⟩
  release {l next} hc := by
    cases l with
    | readReturn n out =>
      cases hc
      exact ⟨rfl, rfl, fun _ h => h.1⟩
    | closeReturn free =>
      cases hc
      exact ⟨rfl, by split <;> rfl, fun _ h => h⟩
    | writeReturn | readFail =>
      cases hc
      exact ⟨rfl, rfl, fun _ h => h⟩
    | _ => cases hc
  outside := act_outside
  inside := fifo_inside
  killed {l yes no} hc := by
    cases l <;> cases hc <;> exact ⟨rfl, rfl, fun _ h => ⟨h, h⟩⟩
  sleep {l c next} hc := by
    cases l <;> cases hc <;> exact ⟨rfl, rfl, fun _ h => ⟨h, trivial⟩, fun _ h => h⟩
  wakeup {l c next} hc := by
    cases l <;> cases hc <;> exact ⟨rfl, rfl, fun _ h => h⟩

theorem start_outlined {inv : Data → Prop} {pre : Pc → Data → Prop} {cond : Chan → Data → Prop}
    (nproc : Nat) (data : Fin PIPESIZE → UInt8) (hinv : inv (start data).data) :
    Outlined nproc holds inv pre cond (start data) where
  absent _ _ := ⟨.idle, rfl⟩
  lock _ := by simp [start, Proc.inside, holds]
  free _ := hinv
  knows _ h := by cases h
  returns _ := trivial

theorem Fifo.isPrefix {out : List UInt8} {d : Data} (h : Fifo out d) : d.returned <+: d.accepted :=
  ⟨out ++ d.pi.contents, by rw [h.order, List.append_assoc]⟩

theorem fifo_of_pre {l : Pc} {d : Data} (h : fifoPre l d) : ∃ out, Fifo out d := by
  cases l with
  | writeCopy | readWake | readReturn => exact ⟨_, h.1⟩
  | readTest | readCopy => exact ⟨_, h.1⟩
  | _ => exact ⟨_, h⟩

theorem fifo_of_outlined {nproc : Nat} {s : Sys Data Pc Chan}
    (h : Outlined nproc holds (Fifo []) fifoPre (fun _ _ => True) s) : ∃ out, Fifo out s.data := by
  cases hl : s.lock with
  | none => exact ⟨[], h.free hl⟩
  | some p =>
    have hk := h.knows p hl
    have hi := (h.lock p).mp hl
    cases hp : s.proc p with
    | run l =>
      rw [hp] at hk
      exact fifo_of_pre hk
    | unlock c next =>
      rw [hp] at hk
      exact ⟨[], hk.1⟩
    | wake c k next =>
      rw [hp] at hk
      exact fifo_of_pre hk
    | _ =>
      rw [hp] at hi
      cases hi

theorem fifo_start (data : Fin PIPESIZE → UInt8) : Fifo [] (start data).data := by
  constructor
  · simp [start, Ring.count]
  · simp [start, Ring.contents, Ring.count]

-- For any number of processes and any interleaving in which the copies
-- succeed: what piperead() calls return is a prefix of what pipewrite() calls
-- have put, the rest is what the ring holds, at most PIPESIZE bytes, and a call
-- returns 0 only at the end of the pipe.
theorem pipe_fifo {nproc : Nat} {data : Fin PIPESIZE → UInt8} {s : Sys Data Pc Chan}
    (h : Reach code nproc copies (start data) s) :
    s.data.returned <+: s.data.accepted ∧
    (s.data.pi.nwrite - s.data.pi.nread).toNat ≤ PIPESIZE ∧
    (s.lock = none → s.data.accepted = s.data.returned ++ s.data.pi.contents ∧
      s.data.pi.contents.length = (s.data.pi.nwrite - s.data.pi.nread).toNat) ∧
    (∀ p n out, s.proc p = .run (.readReturn n out) → out.length = 0 → 0 < n →
      s.data.pi.nread = s.data.pi.nwrite ∧ s.data.pi.writeopen = false) := by
  have hout := h.outlined fifo_outline (start_outlined nproc data (fifo_start data))
  obtain ⟨out, hfifo⟩ := fifo_of_outlined hout
  refine ⟨hfifo.isPrefix, hfifo.fits, fun hl => ?_, fun p n out hp hlen hn => ?_⟩
  · refine ⟨?_, Ring.length_contents _⟩
    simpa using (hout.free hl).order
  · have hk := hout.knows p (hout.lock_of_inside hp rfl)
    rw [hp] at hk
    obtain ⟨hempty, hclosed⟩ := hk.2 (List.length_eq_zero_iff.mp hlen) hn
    exact ⟨of_decide_eq_true hempty, hclosed⟩

-- One process writes three bytes, another asks for two.
def threeBytes : List (Move Choice) :=
  [.step 0 (.write 3), .step 0 .next] ++
    [7, 8, 9].flatMap (fun ch => [.step 0 .next, .step 0 .next, .step 0 .next,
      .step 0 (.copyin (some ch))]) ++
    List.replicate 6 (.step 0 .next) ++
    [.step 1 (.read 2), .step 1 .next, .step 1 .next, .step 1 .next, .step 1 (.copyout true),
      .step 1 .next, .step 1 (.copyout true)] ++
    List.replicate 6 (.step 1 .next)

theorem pipe_fifo_threeBytes :
    ∃ s, Reach code 2 copies (start fun _ => 5) s ∧ s.data.accepted = [7, 8, 9] ∧
      s.data.returned = [7, 8] ∧ s.data.accepted = s.data.returned ++ s.data.pi.contents := by
  refine ⟨_, Reach.run code 2 copies (start fun _ => 5) threeBytes (by decide +kernel), ?_, ?_, ?_⟩
  · decide +kernel
  · decide +kernel
  · exact ((pipe_fifo (Reach.run code 2 copies (start fun _ => 5) threeBytes
      (by decide +kernel))).2.2.1 (by decide +kernel)).1

end Xv6.Pipe
