import Mathlib.Logic.Function.Basic

namespace Xv6.Lib.Monitor

-- Processes that share data under one spinlock lk and wait for each other with
-- sleep(chan, lk) and wakeup(chan). A point of the code does one of these.
inductive Instr (σ L C α : Type) where
  | acquire (next : L)
  | release (next : L)
  | act (f : α → σ → Option (σ × L))
  | killed (yes no : L)
  | sleep (c : C) (next : L)
  | wakeup (c : C) (next : L)

-- A process at a point of its code, on its way through sleep() or in the loop
-- of wakeup(). It holds its own p->lock at unlock and sched, and is SLEEPING at
-- asleep.
inductive Proc (L C : Type) where
  | run (l : L)
  | unlock (c : C) (next : L)
  | sched (c : C) (next : L)
  | asleep (c : C) (next : L)
  | woken (next : L)
  | wake (c : C) (k : Nat) (next : L)
  deriving DecidableEq

variable {σ L C α : Type}

namespace Proc

def locked : Proc L C → Bool
  | unlock _ _ | sched _ _ => true
  | _ => false

-- SLEEPING becomes RUNNABLE
def rouse : Proc L C → Proc L C
  | asleep _ next => woken next
  | pr => pr

def sleepsOn [DecidableEq C] (c : C) : Proc L C → Bool
  | asleep c' _ => decide (c' = c)
  | _ => false

end Proc

structure Sys (σ L C : Type) where
  data : σ
  lock : Option Nat
  proc : Nat → Proc L C
  killed : Nat → Bool

-- A process makes a step, with what its environment chooses, or some process
-- is killed.
inductive Move (α : Type) where
  | step (p : Nat) (a : α)
  | kill (p : Nat)

namespace Sys

def goto (s : Sys σ L C) (p : Nat) (pr : Proc L C) : Sys σ L C :=
  { s with proc := Function.update s.proc p pr }

def setLock (s : Sys σ L C) (lock : Option Nat) : Sys σ L C := { s with lock := lock }

def setData (s : Sys σ L C) (data : σ) : Sys σ L C := { s with data := data }

def acquire (s : Sys σ L C) (p : Nat) (next : L) : Option (Sys σ L C) :=
  if s.lock = none then some ((s.setLock (some p)).goto p (.run next)) else none

theorem acquire_eq {s t : Sys σ L C} {p : Nat} {next : L} (h : s.acquire p next = some t) :
    s.lock = none ∧ t = (s.setLock (some p)).goto p (.run next) := by
  unfold acquire at h
  split at h
  · exact ⟨by assumption, (Option.some.inj h).symm⟩
  · cases h

variable [DecidableEq C]

-- One turn of the loop of wakeup(c), at process k.
def wakeProc (s : Sys σ L C) (p : Nat) (c : C) (k : Nat) : Option (Sys σ L C) :=
  if k = p then some s
  else if (s.proc k).locked then none
  else if (s.proc k).sleepsOn c then some (s.goto k (s.proc k).rouse)
  else some s

def step (code : L → Instr σ L C α) (nproc : Nat) (s : Sys σ L C) (p : Nat) (a : α) :
    Option (Sys σ L C) :=
  match s.proc p with
  | .run l =>
    match code l with
    | .acquire next => s.acquire p next
    | .release next => some ((s.setLock none).goto p (.run next))
    | .act f => (f a s.data).map fun r => (s.setData r.1).goto p (.run r.2)
    | .killed yes no => some (s.goto p (.run (if s.killed p then yes else no)))
    | .sleep c next => some (s.goto p (.unlock c next))
    | .wakeup c next => some (s.goto p (.wake c 0 next))
  | .unlock c next => some ((s.setLock none).goto p (.sched c next))
  | .sched c next => some (s.goto p (.asleep c next))
  | .asleep _ _ => none
  | .woken next => s.acquire p next
  | .wake c k next =>
    if k < nproc then (s.wakeProc p c k).map fun t => t.goto p (.wake c (k + 1) next)
    else some (s.goto p (.run next))

def kill (s : Sys σ L C) (p : Nat) : Option (Sys σ L C) :=
  if (s.proc p).locked then none
  else some { s.goto p (s.proc p).rouse with killed := Function.update s.killed p true }

def move (code : L → Instr σ L C α) (nproc : Nat) (s : Sys σ L C) : Move α → Option (Sys σ L C)
  | .step p a => if p < nproc then s.step code nproc p a else none
  | .kill p => if p < nproc then s.kill p else none

-- A move in which the code goes only where ok lets it.
def allowed (ok : L → α → Bool → Bool) (s : Sys σ L C) : Move α → Bool
  | .step p a =>
    match s.proc p with
    | .run l => ok l a (s.killed p)
    | _ => true
  | .kill _ => true

def run (code : L → Instr σ L C α) (nproc : Nat) (ok : L → α → Bool → Bool) :
    List (Move α) → Sys σ L C → Option (Sys σ L C)
  | [], s => some s
  | m :: rest, s =>
    if s.allowed ok m then (s.move code nproc m).bind (run code nproc ok rest) else none

end Sys

variable [DecidableEq C]

-- The states that the interleavings allowed by ok reach from start.
inductive Reach (code : L → Instr σ L C α) (nproc : Nat) (ok : L → α → Bool → Bool)
    (start : Sys σ L C) : Sys σ L C → Prop
  | init : Reach code nproc ok start start
  | move {s t : Sys σ L C} (m : Move α) (h : Reach code nproc ok start s)
      (hm : s.move code nproc m = some t) (hok : s.allowed ok m = true) : Reach code nproc ok start t

theorem Reach.of_run {code : L → Instr σ L C α} {nproc : Nat} {ok : L → α → Bool → Bool}
    {start s t : Sys σ L C} (moves : List (Move α)) (h : Reach code nproc ok start s)
    (hr : s.run code nproc ok moves = some t) : Reach code nproc ok start t := by
  induction moves generalizing s with
  | nil =>
    cases hr
    exact h
  | cons m rest ih =>
    rw [Sys.run] at hr
    split at hr
    · rename_i hok
      obtain ⟨u, hu, hr⟩ := Option.bind_eq_some_iff.mp hr
      exact ih (h.move m hu hok) hr
    · cases hr

theorem Reach.run (code : L → Instr σ L C α) (nproc : Nat) (ok : L → α → Bool → Bool)
    (start : Sys σ L C) (moves : List (Move α)) (h : (start.run code nproc ok moves).isSome) :
    Reach code nproc ok start ((start.run code nproc ok moves).get h) :=
  Reach.of_run moves .init (by simp)

-- What a step of process p can do.
inductive Stepped (code : L → Instr σ L C α) (nproc : Nat) (s : Sys σ L C) (p : Nat) (a : α) :
    Sys σ L C → Prop
  | acquire {l next : L} (hp : s.proc p = .run l) (hc : code l = .acquire next)
      (hl : s.lock = none) : Stepped code nproc s p a ((s.setLock (some p)).goto p (.run next))
  | release {l next : L} (hp : s.proc p = .run l) (hc : code l = .release next) :
      Stepped code nproc s p a ((s.setLock none).goto p (.run next))
  | act {l next : L} {f : α → σ → Option (σ × L)} {d : σ} (hp : s.proc p = .run l)
      (hc : code l = .act f) (hf : f a s.data = some (d, next)) :
      Stepped code nproc s p a ((s.setData d).goto p (.run next))
  | killed {l yes no : L} (hp : s.proc p = .run l) (hc : code l = .killed yes no) :
      Stepped code nproc s p a (s.goto p (.run (if s.killed p then yes else no)))
  | sleep {l next : L} {c : C} (hp : s.proc p = .run l) (hc : code l = .sleep c next) :
      Stepped code nproc s p a (s.goto p (.unlock c next))
  | wakeup {l next : L} {c : C} (hp : s.proc p = .run l) (hc : code l = .wakeup c next) :
      Stepped code nproc s p a (s.goto p (.wake c 0 next))
  | unlock {next : L} {c : C} (hp : s.proc p = .unlock c next) :
      Stepped code nproc s p a ((s.setLock none).goto p (.sched c next))
  | sched {next : L} {c : C} (hp : s.proc p = .sched c next) :
      Stepped code nproc s p a (s.goto p (.asleep c next))
  | woken {next : L} (hp : s.proc p = .woken next) (hl : s.lock = none) :
      Stepped code nproc s p a ((s.setLock (some p)).goto p (.run next))
  | rouse {next : L} {c : C} {k : Nat} (hp : s.proc p = .wake c k next) (hk : k < nproc)
      (hkp : k ≠ p) (hs : (s.proc k).sleepsOn c = true) :
      Stepped code nproc s p a ((s.goto k (s.proc k).rouse).goto p (.wake c (k + 1) next))
  | pass {next : L} {c : C} {k : Nat} (hp : s.proc p = .wake c k next) (hk : k < nproc)
      (hl : k ≠ p → (s.proc k).locked = false ∧ (s.proc k).sleepsOn c = false) :
      Stepped code nproc s p a (s.goto p (.wake c (k + 1) next))
  | done {next : L} {c : C} {k : Nat} (hp : s.proc p = .wake c k next) (hk : nproc ≤ k) :
      Stepped code nproc s p a (s.goto p (.run next))

theorem Sys.step_stepped {code : L → Instr σ L C α} {nproc : Nat} {s t : Sys σ L C} {p : Nat}
    {a : α} (h : s.step code nproc p a = some t) : Stepped code nproc s p a t := by
  unfold Sys.step at h
  split at h
  · rename_i l hp
    split at h
    · rename_i next hc
      obtain ⟨hl, rfl⟩ := Sys.acquire_eq h
      exact .acquire hp hc hl
    · rename_i next hc
      cases h
      exact .release hp hc
    · rename_i f hc
      obtain ⟨⟨d, next⟩, hf, rfl⟩ := Option.map_eq_some_iff.mp h
      exact .act hp hc hf
    · rename_i yes no hc
      cases h
      exact .killed hp hc
    · rename_i c next hc
      cases h
      exact .sleep hp hc
    · rename_i c next hc
      cases h
      exact .wakeup hp hc
  · rename_i hp
    cases h
    exact .unlock hp
  · rename_i hp
    cases h
    exact .sched hp
  · cases h
  · rename_i hp
    obtain ⟨hl, rfl⟩ := Sys.acquire_eq h
    exact .woken hp hl
  · rename_i c k next hp
    split at h
    · rename_i hk
      obtain ⟨t, ht, rfl⟩ := Option.map_eq_some_iff.mp h
      unfold Sys.wakeProc at ht
      split at ht
      · rename_i hkp
        cases ht
        exact .pass hp hk fun hne => absurd hkp hne
      · rename_i hkp
        split at ht
        · cases ht
        · rename_i hlocked
          split at ht
          · rename_i hs
            cases ht
            exact .rouse hp hk hkp hs
          · rename_i hs
            cases ht
            exact .pass hp hk fun _ => ⟨by simpa using hlocked, by simpa using hs⟩
    · rename_i hk
      cases h
      exact .done hp (by omega)

end Xv6.Lib.Monitor
