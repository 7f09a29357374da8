import Xv6.Log
import Mathlib.Data.Finset.Card

namespace Xv6.Log

-- Where a process that runs commit() stands. Each stage is one disk write or
-- one change of log.lh, all made without log.lock.
inductive CommitPc where
  | test
  | writeLog (tail : Nat)
  | writeHead
  | installTrans (tail : Nat)
  | erase
  | writeErased
  | finish
  deriving DecidableEq

-- Where a process stands in begin_op() ... end_op().
inductive Pc where
  | idle
  | beginOp
  | sleeping
  | inOp
  | commit (stage : CommitPc)
  deriving DecidableEq

inductive Event where
  | begin (p : Nat)
  | logWrite (p b : Nat)
  | endOp (p : Nat)
  | commit (blocks : List Nat)
  deriving DecidableEq

structure Sys where
  st : State
  pc : Nat → Pc
  panicked : Option String

def Sys.init : Sys := ⟨⟨0, false, []⟩, fun _ => .idle, none⟩

-- What a process may do next: call a function, pass one critical section of
-- it, or make the next step of commit(). kill() may wake a sleeper.
inductive Act where
  | call
  | tryBegin
  | kill
  | logWrite (b : Nat)
  | endOp
  | commit
  deriving DecidableEq

namespace Sys

def goto (s : Sys) (p : Nat) (pc : Pc) : Sys := { s with pc := Function.update s.pc p pc }

-- wakeup(&log)
def wakeup (s : Sys) : Sys :=
  { s with pc := fun q => if s.pc q = .sleeping then .beginOp else s.pc q }

def commitStep (s : Sys) (p : Nat) : CommitPc → List Event × Sys
  | .test => ([], s.goto p (.commit (if 0 < s.st.lh.length then .writeLog 0 else .finish)))
  | .writeLog tail =>
    ([], s.goto p (.commit (if tail < s.st.lh.length then .writeLog (tail + 1) else .writeHead)))
  | .writeHead => ([.commit s.st.lh], s.goto p (.commit (.installTrans 0)))
  | .installTrans tail =>
    ([], s.goto p (.commit (if tail < s.st.lh.length then .installTrans (tail + 1) else .erase)))
  | .erase => ([], { s with st := { s.st with lh := [] } }.goto p (.commit .writeErased))
  | .writeErased => ([], s.goto p (.commit .finish))
  | .finish => ([], ({ s with st := { s.st with committing := false } }.goto p .idle).wakeup)

-- One step of process p, with the events it shows. A call of log_write() or
-- end_op() shows even when it panics.
def step (dev : Dev) (s : Sys) (p : Nat) (act : Act) : Option (List Event × Sys) :=
  if s.panicked.isSome then none
  else match act, s.pc p with
    | .call, .idle => some ([], s.goto p .beginOp)
    | .tryBegin, .beginOp =>
      if s.st.admits then
        some ([.begin p],
          { s with st := { s.st with outstanding := s.st.outstanding + 1 } }.goto p .inOp)
      else some ([], s.goto p .sleeping)
    | .kill, .sleeping => some ([], s.goto p .beginOp)
    | .logWrite b, .inOp =>
      match s.st.logWrite dev b with
      | .ok st => some ([.logWrite p b], { s with st := st })
      | .error msg => some ([.logWrite p b], { s with panicked := some msg })
    | .endOp, .inOp =>
      match s.st.endOp with
      | .ok (st, true) => some ([.endOp p], { s with st := st }.goto p (.commit .test))
      | .ok (st, false) => some ([.endOp p], ({ s with st := st }.goto p .idle).wakeup)
      | .error msg => some ([.endOp p], { s with panicked := some msg })
    | .commit, .commit stage => some (s.commitStep p stage)
    | _, _ => none

-- A whole run given by who does what.
def runActs (dev : Dev) : List (Nat × Act) → List Event × Sys → Option (List Event × Sys)
  | [], s => some s
  | (p, act) :: rest, (hist, s) =>
    match s.step dev p act with
    | some (events, t) => runActs dev rest (hist ++ events, t)
    | none => none

end Sys

-- The states that some interleaving reaches, with the events on the way.
inductive Reach (dev : Dev) : List Event → Sys → Prop
  | init : Reach dev [] Sys.init
  | step {hist events : List Event} {s t : Sys} {p : Nat} {act : Act} (h : Reach dev hist s)
      (hs : s.step dev p act = some (events, t)) : Reach dev (hist ++ events) t

theorem Reach.of_runActs {dev : Dev} (acts : List (Nat × Act)) {hist hist' : List Event}
    {s s' : Sys} (h : Reach dev hist s) (hr : Sys.runActs dev acts (hist, s) = some (hist', s')) :
    Reach dev hist' s' := by
  induction acts generalizing hist s with
  | nil =>
    simp only [Sys.runActs, Option.some.injEq, Prod.mk.injEq] at hr
    obtain ⟨rfl, rfl⟩ := hr
    exact h
  | cons move rest ih =>
    obtain ⟨p, act⟩ := move
    simp only [Sys.runActs] at hr
    cases hs : s.step dev p act with
    | none => simp [hs] at hr
    | some next =>
      simp only [hs] at hr
      exact ih (h.step hs) hr

theorem Reach.run (dev : Dev) (acts : List (Nat × Act))
    (h : (Sys.runActs dev acts ([], Sys.init)).isSome) :
    Reach dev ((Sys.runActs dev acts ([], Sys.init)).get h).1
      ((Sys.runActs dev acts ([], Sys.init)).get h).2 :=
  Reach.of_runActs acts .init (by simp)

@[simp] theorem Sys.goto_st (s : Sys) (p : Nat) (pc : Pc) : (s.goto p pc).st = s.st := rfl

@[simp] theorem Sys.goto_panicked (s : Sys) (p : Nat) (pc : Pc) :
    (s.goto p pc).panicked = s.panicked := rfl

@[simp] theorem Sys.wakeup_st (s : Sys) : s.wakeup.st = s.st := rfl

@[simp] theorem Sys.wakeup_panicked (s : Sys) : s.wakeup.panicked = s.panicked := rfl

theorem Sys.goto_pc (s : Sys) (p q : Nat) (pc : Pc) :
    (s.goto p pc).pc q = if q = p then pc else s.pc q := by
  simp [Sys.goto, Function.update_apply]

theorem Sys.wakeup_inOp (s : Sys) (q : Nat) : s.wakeup.pc q = .inOp ↔ s.pc q = .inOp := by
  simp only [Sys.wakeup]
  split <;> simp_all

theorem Sys.wakeup_commit (s : Sys) (q : Nat) (stage : CommitPc) :
    s.wakeup.pc q = .commit stage ↔ s.pc q = .commit stage := by
  simp only [Sys.wakeup]
  split <;> simp_all

-- What one step can do. The committer's own stages are kept together.
inductive Move (dev : Dev) (s : Sys) (p : Nat) : List Event → Sys → Prop
  | call (hp : s.pc p = .idle) : Move dev s p [] (s.goto p .beginOp)
  | begin (hp : s.pc p = .beginOp) (ha : s.st.admits = true) : Move dev s p [.begin p]
      ({ s with st := { s.st with outstanding := s.st.outstanding + 1 } }.goto p .inOp)
  | sleep (hp : s.pc p = .beginOp) (ha : s.st.admits = false) :
      Move dev s p [] (s.goto p .sleeping)
  | kill (hp : s.pc p = .sleeping) : Move dev s p [] (s.goto p .beginOp)
  | logWrite (b : Nat) (hp : s.pc p = .inOp) {st : State} (hst : s.st.logWrite dev b = .ok st) :
      Move dev s p [.logWrite p b] { s with st := st }
  | logWritePanic (b : Nat) (hp : s.pc p = .inOp) {msg : String}
      (hst : s.st.logWrite dev b = .error msg) :
      Move dev s p [.logWrite p b] { s with panicked := some msg }
  | endOpCommit (hp : s.pc p = .inOp) {st : State} (hst : s.st.endOp = .ok (st, true)) :
      Move dev s p [.endOp p] ({ s with st := st }.goto p (.commit .test))
  | endOp (hp : s.pc p = .inOp) {st : State} (hst : s.st.endOp = .ok (st, false)) :
      Move dev s p [.endOp p] ({ s with st := st }.goto p .idle).wakeup
  | endOpPanic (hp : s.pc p = .inOp) {msg : String} (hst : s.st.endOp = .error msg) :
      Move dev s p [.endOp p] { s with panicked := some msg }
  | commit (stage : CommitPc) (hp : s.pc p = .commit stage) :
      Move dev s p (s.commitStep p stage).1 (s.commitStep p stage).2

theorem Sys.step_move {dev : Dev} {s t : Sys} {p : Nat} {act : Act} {events : List Event}
    (h : s.step dev p act = some (events, t)) :
    s.panicked = none ∧ Move dev s p events t := by
  unfold Sys.step at h
  split at h
  · cases h
  rename_i hpanic
  refine ⟨by simpa using hpanic, ?_⟩
  split at h
  · rename_i hp
    cases h
    exact .call hp
  · rename_i hp
    split at h
    · rename_i ha
      cases h
      exact .begin hp ha
    · rename_i ha
      cases h
      exact .sleep hp (by simpa using ha)
  · rename_i hp
    cases h
    exact .kill hp
  · rename_i b hp
    split at h
    · rename_i st hst
      cases h
      exact .logWrite b hp hst
    · rename_i msg hst
      cases h
      exact .logWritePanic b hp hst
  · rename_i hp
    split at h
    · rename_i st hst
      cases h
      exact .endOpCommit hp hst
    · rename_i st hst
      cases h
      exact .endOp hp hst
    · rename_i msg hst
      cases h
      exact .endOpPanic hp hst
  · rename_i stage hp
    rw [Option.some.injEq] at h
    rw [show events = (s.commitStep p stage).1 by rw [h], show t = (s.commitStep p stage).2 by rw [h]]
    exact .commit stage hp
  · cases h

end Xv6.Log
