import Xv6.Sleeplock
import Xv6.Lib.Monitor.Point
import Xv6.Lib.Monitor.Wakeup

namespace Xv6.SleepLock

open Lib Lib.Monitor

namespace Pc

def me : Pc → Nat
  | idle me _ | acquiresleep me _ _ | releasesleep me _ | holdingsleep me _ _ => me

-- Between acquiresleep() and releasesleep().
def between : Pc → Bool
  | idle _ held | holdingsleep _ held _ => held
  | acquiresleep _ held pc => held || pc = .done
  | releasesleep _ pc => pc = .start || pc = .set

-- Where lk->lk is held.
def holds : Pc → Bool
  | idle _ _ => false
  | acquiresleep _ _ pc => pc ≠ .start
  | releasesleep _ pc => pc ≠ .start
  | holdingsleep _ _ pc => pc ≠ .start

def owes (l : Pc) (_ : Unit) : Prop := ∃ me, l = releasesleep me .wake

end Pc

variable (pid : Nat → Int)

-- What a process that holds lk->lk has found.
def pre : Pc → SleepLock → Prop
  | .acquiresleep _ _ .sleep, lk => lk.locked = true
  | .acquiresleep _ _ .take, lk => lk.locked = false
  | .holdingsleep me _ (.done r), lk => r = (lk.locked && decide (lk.pid = pid me))
  | _, _ => True

def cond (_ : Unit) (lk : SleepLock) : Prop := lk.locked = true

def always : Pc → Choice → Bool → Bool := fun _ _ _ => true

variable {pid}

theorem act_inside {l : Pc} {f : Choice → SleepLock → Option (SleepLock × Pc)}
    (hc : code pid l = .act f) (hl : l.holds = true) {a : Choice} {d d' : SleepLock} {next : Pc}
    (hf : f a d = some (d', next)) : next.holds = true ∧ pre pid next d' ∧
      ∀ c, cond c d ∨ l.owes c → cond c d' ∨ next.owes c := by
  have hnone : ∀ {d'}, (d.locked = true → d'.locked = true) → (∀ me, l ≠ .releasesleep me .wake) →
      ∀ c, cond c d ∨ l.owes c → cond c d' ∨ next.owes c := by
    intro d' hlocked hne c h
    rcases h with h | ⟨me, h⟩
    · exact .inl (hlocked h)
    · exact absurd h (hne me)
  cases l with
  | idle me held => cases hl
  | acquiresleep me held pc =>
    cases pc with
    | loop =>
      cases hc
      cases hf
      refine ⟨?_, ?_, hnone id (by simp)⟩
      · split <;> rfl
      · by_cases h : d.locked = true
        · rw [if_pos h]
          exact h
        · rw [if_neg h]
          simpa [pre] using h
    | take =>
      cases hc
      cases hf
      exact ⟨rfl, trivial, hnone (fun _ => rfl) (by simp)⟩
    | _ => cases hc
  | releasesleep me pc =>
    cases pc with
    | set =>
      cases hc
      cases hf
      exact ⟨rfl, trivial, fun _ _ => .inr ⟨me, rfl⟩⟩
    | _ => cases hc
  | holdingsleep me held pc =>
    cases pc with
    | test =>
      cases hc
      cases hf
      exact ⟨rfl, rfl, hnone id (by simp)⟩
    | _ => cases hc

theorem outline : Outline (code pid) always Pc.holds (fun _ => True) (pre pid) cond where
  acquire {l next} hc := by
    cases l with
    | idle me held => cases hc
    | acquiresleep me held pc | releasesleep me pc | holdingsleep me held pc =>
      cases pc <;> cases hc
      exact ⟨rfl, rfl, fun _ _ => trivial⟩
  release {l next} hc := by
    cases l with
    | idle me held => cases hc
    | acquiresleep me held pc | releasesleep me pc | holdingsleep me held pc =>
      cases pc <;> cases hc
      exact ⟨rfl, rfl, fun _ _ => trivial⟩
  outside {l f} hc hl a d d' next hf := by
    cases l with
    | idle me held =>
      cases hc
      cases a with
      | acquiresleep | holdingsleep =>
        cases hf
        exact ⟨rfl, rfl⟩
      | releasesleep =>
        cases held <;> cases hf
        exact ⟨rfl, rfl⟩
      | next => cases hf
    | acquiresleep me held pc | releasesleep me pc | holdingsleep me held pc =>
      cases pc <;> cases hc <;> cases hl
  inside hc hl _ _ _ _ _ _ _ hf := by
    obtain ⟨hn, hpre, -⟩ := act_inside hc hl hf
    exact ⟨hn, hpre⟩
  killed {l yes no} hc := by
    cases l with
    | idle me held => cases hc
    | acquiresleep me held pc | releasesleep me pc | holdingsleep me held pc =>
      cases pc <;> cases hc
  sleep {l c next} hc := by
    cases l with
    | idle me held => cases hc
    | acquiresleep me held pc =>
      cases pc <;> cases hc
      exact ⟨rfl, rfl, fun _ h => ⟨trivial, h⟩, fun _ _ => trivial⟩
    | releasesleep me pc | holdingsleep me held pc => cases pc <;> cases hc
  wakeup {l c next} hc := by
    cases l with
    | idle me held => cases hc
    | releasesleep me pc =>
      cases pc <;> cases hc
      exact ⟨rfl, rfl, fun _ _ => trivial⟩
    | acquiresleep me held pc | holdingsleep me held pc => cases pc <;> cases hc

theorem pays : Pays (code pid) always Pc.holds (pre pid) cond Pc.owes where
  release {l next} hc c := by
    rintro ⟨me, rfl⟩
    cases hc
  sleep {l c next} hc c' := by
    rintro ⟨me, rfl⟩
    cases hc
  act hc hl _ _ _ _ _ _ _ hf := (act_inside hc hl hf).2.2
  killed {l yes no} hc a c := by
    rintro ⟨me, rfl⟩
    cases hc
  wakeup {l c next} hc c' _ := .inl rfl

theorem start_outlined (nproc : Nat) :
    Outlined nproc Pc.holds (fun _ => True) (pre pid) cond start where
  absent p _ := ⟨_, rfl⟩
  lock p := ⟨nofun, nofun⟩
  free _ := trivial
  knows p h := by cases h
  returns p := trivial

section Run

variable {nproc : Nat} {s t : Sys SleepLock Pc Unit}

-- Whose turn it is: locked and pid are those of the process that is between
-- acquiresleep() and releasesleep().
structure Exclusive (pid : Nat → Int) (lk : SleepLock) (pc : Nat → Pc) : Prop where
  me : ∀ p, (pc p).me = p
  unique : ∀ p q, (pc p).between = true → (pc q).between = true → p = q
  locked : lk.locked = true ↔ ∃ p, (pc p).between = true
  pid : ∀ p, (pc p).between = true → lk.pid = pid p

variable {lk lk' : SleepLock} {pc pc' : Nat → Pc} {p : Nat}

theorem Exclusive.same (h : Exclusive pid lk pc)
    (hpc : ∀ q, (pc' q).me = (pc q).me ∧ (pc' q).between = (pc q).between) :
    Exclusive pid lk pc' := by
  refine ⟨fun q => ?_, fun q r => ?_, ?_, fun q => ?_⟩
  · rw [(hpc q).1]
    exact h.me q
  · rw [(hpc q).2, (hpc r).2]
    exact h.unique q r
  · simp only [hpc]
    exact h.locked
  · rw [(hpc q).2]
    exact h.pid q

theorem Exclusive.take (h : Exclusive pid lk pc) (hfree : lk.locked = false)
    (hme : (pc' p).me = p) (hin : (pc' p).between = true) (hpc : ∀ q, q ≠ p → pc' q = pc q) :
    Exclusive pid ⟨true, pid p⟩ pc' := by
  have hother : ∀ q, (pc' q).between = true → q = p := by
    intro q hq
    by_contra hne
    rw [hpc q hne] at hq
    have hlocked := h.locked.mpr ⟨q, hq⟩
    rw [hfree] at hlocked
    cases hlocked
  refine ⟨fun q => ?_, fun q r hq hr => ?_, ?_, fun q hq => ?_⟩
  · by_cases hq : q = p
    · rw [hq, hme]
    · rw [hpc q hq]
      exact h.me q
  · rw [hother q hq, hother r hr]
  · exact ⟨fun _ => ⟨p, hin⟩, fun _ => rfl⟩
  · rw [hother q hq]

theorem Exclusive.give (h : Exclusive pid lk pc) (hheld : (pc p).between = true)
    (hme : (pc' p).me = p) (hout : (pc' p).between = false) (hpc : ∀ q, q ≠ p → pc' q = pc q) :
    Exclusive pid ⟨false, 0⟩ pc' := by
  have hnone : ∀ q, (pc' q).between = false := by
    intro q
    by_cases hq : q = p
    · rw [hq, hout]
    · rw [hpc q hq]
      cases hb : (pc q).between with
      | false => rfl
      | true => exact absurd (h.unique q p hb hheld) hq
  refine ⟨fun q => ?_, fun q r hq => ?_, ?_, fun q hq => ?_⟩
  · by_cases hq : q = p
    · rw [hq, hme]
    · rw [hpc q hq]
      exact h.me q
  · rw [hnone q] at hq
    cases hq
  · simp [hnone]
  · rw [hnone q] at hq
    cases hq

-- One instruction of process p, from point l.
theorem Exclusive.goes (h : Exclusive pid lk pc) {l : Pc} (hl : pc p = l)
    (hpre : l.holds = true → pre pid l lk) {a : Choice}
    (hg : (code pid l).Goes a lk lk' (pc' p)) (hpc : ∀ q, q ≠ p → pc' q = pc q) :
    Exclusive pid lk' pc' := by
  have hme := h.me p
  rw [hl] at hme
  have hsame : ∀ {next}, pc' p = next → next.me = l.me → next.between = l.between →
      Exclusive pid lk pc' := by
    intro next hnext hm hb
    refine h.same fun q => ?_
    by_cases hq : q = p
    · rw [hq, hnext, hl]
      exact ⟨hm, hb⟩
    · rw [hpc q hq]
      exact ⟨rfl, rfl⟩
  generalize hnext : pc' p = next at hg
  cases l with
  | idle me held =>
    cases hg with
    | act hf =>
      cases a with
      | acquiresleep =>
        cases hf
        exact hsame hnext rfl (by simp [Pc.between])
      | holdingsleep =>
        cases hf
        exact hsame hnext rfl rfl
      | releasesleep =>
        cases held <;> cases hf
        exact hsame hnext rfl rfl
      | next => cases hf
  | acquiresleep me held apc =>
    cases apc with
    | start | sleep =>
      cases hg
      exact hsame hnext rfl rfl
    | done =>
      cases hg
      exact hsame hnext rfl (by simp [Pc.between])
    | loop =>
      cases hg with
      | act hf =>
        cases hf
        refine hsame hnext rfl ?_
        simp only [Pc.between]
        split <;> simp
    | take =>
      cases hg with
      | act hf =>
        cases hf
        obtain rfl : me = p := hme
        exact h.take (hpre rfl) (by rw [hnext]; rfl) (by simp [hnext, Pc.between]) hpc
  | releasesleep me rpc =>
    cases rpc with
    | start | wake | done =>
      cases hg
      exact hsame hnext rfl rfl
    | set =>
      cases hg with
      | act hf =>
        cases hf
        obtain rfl : me = p := hme
        exact h.give (by rw [hl]; rfl) (by rw [hnext]; rfl) (by rw [hnext]; rfl) hpc
  | holdingsleep me held hpc =>
    cases hpc with
    | start | done r =>
      cases hg
      exact hsame hnext rfl rfl
    | test =>
      cases hg with
      | act hf =>
        cases hf
        exact hsame hnext rfl rfl

theorem reach_exclusive (h : Reach (code pid) nproc always start s) :
    Exclusive pid s.data fun p => (s.proc p).point := by
  induction h with
  | init =>
    refine ⟨fun _ => rfl, nofun, ?_, nofun⟩
    simp [start, initsleeplock, Proc.point, Pc.between]
  | @move s t m h hm hok ih =>
    have hout := h.outlined outline (start_outlined nproc)
    rcases Sys.move_cases hm with ⟨p, a, rfl, -, hs⟩ | ⟨p, rfl, -, -, rfl⟩
    · rcases hs.point with ⟨hd, hsame⟩ | ⟨l, hl, hg, hother⟩
      · rw [hd]
        exact ih.same fun q => by simp only [hsame q, and_self]
      · refine ih.goes (congrArg Proc.point hl) (fun hh => ?_) hg
          fun q hq => congrArg Proc.point (hother q hq)
        have hk := hout.knows p (hout.lock_of_inside hl hh)
        rw [hl] at hk
        exact hk
    · refine ih.same fun q => ?_
      have hsame : (((s.goto p (s.proc p).rouse)).proc q).point = (s.proc q).point := by
        by_cases hq : q = p
        · rw [hq, Sys.goto_self, Proc.point_rouse]
        · rw [Sys.goto_other _ _ hq]
      exact ⟨congrArg Pc.me hsame, congrArg Pc.between hsame⟩

-- For any number of processes with different pids, at most one is between its
-- acquiresleep() and its releasesleep(). locked is 1 exactly while there is one, with
-- pid its pid, and holdingsleep() returns true exactly to it. While lk->lk is free and
-- locked is 0, no process is SLEEPING on the lock.
theorem sleeplock_excludes
    (hpid : ∀ p q, p < nproc → q < nproc → pid p = pid q → p = q)
    (h : Reach (code pid) nproc always start s) :
    (∀ p q, (s.proc p).point.between = true → (s.proc q).point.between = true → p = q) ∧
    (s.data.locked = true ↔ ∃ p, (s.proc p).point.between = true) ∧
    (∀ p, (s.proc p).point.between = true → s.data.pid = pid p) ∧
    (∀ p me held r, s.proc p = .run (.holdingsleep me held (.done r)) →
      (r = true ↔ (s.proc p).point.between = true)) ∧
    (s.lock = none → s.data.locked = false → ∀ p next, s.proc p ≠ .asleep () next) := by
  have hex := reach_exclusive h
  have hout := h.outlined outline (start_outlined nproc)
  refine ⟨hex.unique, hex.locked, hex.pid, ?_, ?_⟩
  · intro p me held r hp
    have hme : me = p := by
      have hme := hex.me p
      rw [hp] at hme
      exact hme
    have hr := hout.knows p (hout.lock_of_inside hp rfl)
    rw [hp] at hr
    have hr : r = (s.data.locked && decide (s.data.pid = pid p)) := hme ▸ hr
    rw [hr, Bool.and_eq_true, decide_eq_true_iff, hex.locked]
    constructor
    · rintro ⟨⟨q, hq⟩, hsame⟩
      have hlt : ∀ {q}, s.proc q ≠ start.proc q → q < nproc :=
        fun hne => Nat.lt_of_not_le fun hle => hne (h.absent hle)
      have hp' : p < nproc := hlt (by rw [hp]; exact nofun)
      have hq' : q < nproc := hlt fun heq => by
        rw [heq] at hq
        cases hq
      rw [hpid p q hp' hq' (hsame.symm.trans (hex.pid q hq))]
      exact hq
    · intro hb
      exact ⟨⟨p, hb⟩, hex.pid p hb⟩
  · intro hl hfree p next hp
    have hwaking : Waking cond Pc.owes s := by
      refine h.waking outline pays (start_outlined nproc) ?_
      rintro q c ⟨next, hw | hw⟩ <;> cases hw
    have hlocked := hwaking.cond_of_lock_none hl ⟨next, .inr hp⟩
    rw [cond, hfree] at hlocked
    cases hlocked

-- Process 0 has the lock and calls holdingsleep() while process 1 waits in
-- acquiresleep().
def waiter : List (Move Choice) :=
  .step 0 .acquiresleep :: List.replicate 4 (.step 0 .next) ++
    .step 1 .acquiresleep :: List.replicate 5 (.step 1 .next) ++
    .step 0 .holdingsleep :: List.replicate 2 (.step 0 .next)

theorem sleeplock_excludes_waiter :
    ∃ s, Reach (code fun p => p + 1) 2 always start s ∧
      s.proc 0 = .run (.holdingsleep 0 true (.done true)) ∧
      s.proc 1 = .asleep () (.acquiresleep 1 false .loop) ∧
      (s.proc 0).point.between = true ∧ (s.proc 1).point.between = false := by
  have hr := Reach.run (code fun p => p + 1) 2 always start waiter (by decide +kernel)
  refine ⟨_, hr, by decide +kernel, by decide +kernel, ?_⟩
  obtain ⟨hunique, -, -, hholding, -⟩ := sleeplock_excludes (fun p q _ _ h => by omega) hr
  have hzero := (hholding 0 0 true true (by decide +kernel)).mp rfl
  refine ⟨hzero, ?_⟩
  rw [← Bool.not_eq_true]
  exact fun hone => absurd (hunique 0 1 hzero hone) (by decide)

end Run

end Xv6.SleepLock
