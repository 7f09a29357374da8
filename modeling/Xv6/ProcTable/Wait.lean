import Xv6.ProcTable.Slot

namespace Xv6.ProcTable

open Lib

variable {σ L C K α : Type}

-- What sleep() is called with, and where it returns to.
inductive Sleeps (p : Nat) : Chan C → LockId K → Pc L C K → Prop
  | wait {addr : Nat} : Sleeps p (.proc p) .wait (.waitScan addr false 0)
  | service {ch : C} {k : K} {l : L} : Sleeps p (.service ch) (.service k) (.service l)

-- What wakeup() is called with, and where it returns to.
inductive Wakes (p : Nat) : Option (Chan C) → Pc L C K → Prop
  | reparent {status : Int} {k : Nat} (hp : p ≠ initproc) :
      Wakes p (some (.proc initproc)) (.exitReparent status k)
  | parent {ch : Option (Chan C)} {status : Int} (hp : p ≠ initproc) : Wakes p ch (.exitSelf status)
  | service {ch : Option (Chan C)} {l : L} : Wakes p ch (.service l)

-- Whether the process holds wait_lock.
def Pc.holdsWait : Pc L C K → Bool
  | exitReparent _ _ | exitSelf _ | exitZombie _ | waitScan _ _ _ | waitKilled _ | waitReturn _ => true
  | sleepLock _ .wait _ | sleepSet _ .wait _ => true
  | wake _ _ ret => ret.holdsWait
  | _ => false

-- Whether the process is in the sleep() of wait(), once it has set its state.
def Pc.sleepsInWait : Pc L C K → Bool
  | sleepSched .wait _ | sleepTidy .wait _ => true
  | _ => false

-- The points that process p can be at.
def Pc.Formed (p : Nat) : Pc L C K → Prop
  | exitLock _ | exitReparent _ _ | exitSelf _ | exitZombie _ => p ≠ initproc
  | yieldLock ret | yieldSched ret | yieldUnlock ret =>
    ret.holdsWait = false ∧ ret.sleepsInWait = false ∧ ret.Formed p
  | sleepLock ch lk ret | sleepSet ch lk ret => Sleeps p ch lk ret
  | sleepSched lk ret | sleepTidy lk ret | sleepRelock lk ret => ∃ ch, Sleeps p ch lk ret
  | wake ch _ ret => Wakes p ch ret
  | _ => True

def Waiting (d : Kernel σ L C K) (q : Nat) : Prop :=
  (d.proc q).state = .sleeping ∧ (d.proc q).chan = some (.proc q)

-- No process sleeps in wait() that has a child to find, one process apart.
def Quiet (d : Kernel σ L C K) (apart : Option Nat) : Prop :=
  ∀ q, apart ≠ some q → Waiting d q → ∀ j, (d.proc j).parent = some q → (d.proc j).state ≠ .zombie

def NoZombieChild (d : Kernel σ L C K) (p : Nat) : Prop :=
  ∀ j, (d.proc j).parent = some p → (d.proc j).state ≠ .zombie

theorem Quiet.all {d : Kernel σ L C K} (h : Quiet d none) {q j : Nat} (hw : Waiting d q)
    (hj : (d.proc j).parent = some q) : (d.proc j).state ≠ .zombie :=
  h q (by simp) hw j hj

-- What process p knows while it holds wait_lock.
def Pc.WaitFact (p : Nat) (d : Kernel σ L C K) : Pc L C K → Prop
  | exitReparent _ k => Quiet d none ∧ ∀ j < k, (d.proc j).parent ≠ some p
  | exitSelf _ | exitZombie _ => Quiet d none ∧ (∀ j, (d.proc j).parent ≠ some p) ∧
      ∀ q, (d.proc p).parent = some q → ¬ Waiting d q
  | wake _ k (exitReparent _ k') => Quiet d (if k ≤ initproc then some initproc else none) ∧
      ∀ j < k', (d.proc j).parent ≠ some p
  | wake ch k (exitSelf _) => Quiet d none ∧ (∀ j, (d.proc j).parent ≠ some p) ∧
      ch = (d.proc p).parent.map .proc ∧ ∀ q, (d.proc p).parent = some q → q < k → ¬ Waiting d q
  | waitScan _ havekids k => Quiet d none ∧
      ∀ j < k, (d.proc j).parent = some p → (d.proc j).state ≠ .zombie ∧ havekids = true
  | waitKilled _ | sleepLock _ .wait _ | sleepSet _ .wait _ => Quiet d none ∧ NoZombieChild d p
  | waitReturn _ => Quiet d none
  | _ => True

structure WaitKnows (p : Nat) (pc : Pc L C K) (d : Kernel σ L C K) : Prop where
  formed : pc.Formed p
  holds : pc.holdsWait = true → d.lock .wait = some p ∧ pc.WaitFact p d
  chan : pc.sleepsInWait = true → (d.proc p).state = .sleeping → (d.proc p).chan = some (.proc p)

-- The exits from slot k, and those that a wait() has returned.
def exits (k : Nat) (log : List Event) : List (Int × Int) :=
  log.filterMap fun
    | .exited k' pid xstate => if k' = k then some (pid, xstate) else none
    | _ => none

def reaps (k : Nat) (log : List Event) : List (Int × Int) :=
  log.filterMap fun
    | .reaped _ k' pid xstate => if k' = k then some (pid, xstate) else none
    | _ => none

-- The exit that no wait() has returned yet.
def Proc.pending (pr : Proc C) : List (Int × Int) :=
  if pr.state = .zombie then [(pr.pid, pr.xstate)] else []

structure WaitInv (d : Kernel σ L C K) : Prop where
  quiet : d.lock .wait = none → Quiet d none
  slots : ∀ j, NPROC ≤ j → (d.proc j).state = .unused
  unused : ∀ j, (d.proc j).state = .unused → (d.proc j).parent = none
  alive : ∀ j q, (d.proc j).parent = some q → (d.proc q).state ≠ .unused ∧ (d.proc q).state ≠ .zombie
  init : (d.proc initproc).state ≠ .unused ∧ (d.proc initproc).state ≠ .zombie
  log : ∀ k, exits k d.log = reaps k d.log ++ (d.proc k).pending

section Calm

variable {p : Nat} {d d' : Kernel σ L C K}

-- A change that neither exit() nor wait() makes under wait_lock.
structure Calm (d d' : Kernel σ L C K) : Prop where
  lock : d'.lock .wait = d.lock .wait
  log : d'.log = d.log
  parent : ∀ j, (d'.proc j).parent = (d.proc j).parent
  zombie : ∀ j, (d'.proc j).state = .zombie ↔ (d.proc j).state = .zombie
  kept : ∀ j, (d.proc j).state = .zombie →
    (d'.proc j).pid = (d.proc j).pid ∧ (d'.proc j).xstate = (d.proc j).xstate
  unused : ∀ j, (d'.proc j).state = .unused → (d.proc j).state = .unused
  slots : ∀ j, NPROC ≤ j → (d.proc j).state = .unused → (d'.proc j).state = .unused
  waiting : ∀ q, Waiting d' q → Waiting d q

theorem Calm.quiet (hc : Calm d d') {apart : Option Nat} (h : Quiet d apart) : Quiet d' apart := by
  intro q hq hw j hj hz
  rw [hc.parent j] at hj
  exact h q hq (hc.waiting q hw) j hj ((hc.zombie j).mp hz)

theorem Calm.noZombieChild (hc : Calm d d') (h : NoZombieChild d p) : NoZombieChild d' p := by
  intro j hj hz
  rw [hc.parent j] at hj
  exact h j hj ((hc.zombie j).mp hz)

theorem Calm.fact (hc : Calm d d') {pc : Pc L C K} (h : pc.WaitFact p d) : pc.WaitFact p d' := by
  unfold Pc.WaitFact at h ⊢
  split at h
  · grind [quiet, parent]
  · refine ⟨hc.quiet h.1, fun j => by rw [hc.parent j]; exact h.2.1 j, fun q hq hw => ?_⟩
    grind [parent, waiting]
  · refine ⟨hc.quiet h.1, fun j => by rw [hc.parent j]; exact h.2.1 j, fun q hq hw => ?_⟩
    grind [parent, waiting]
  · grind [quiet, parent]
  · refine ⟨hc.quiet h.1, fun j => by rw [hc.parent j]; exact h.2.1 j, ?_, fun q hq hk hw => ?_⟩
    · rw [hc.parent p]
      exact h.2.2.1
    grind [parent, waiting]
  · refine ⟨hc.quiet h.1, fun j hj hp => ?_⟩
    rw [hc.parent j] at hp
    rw [Ne, hc.zombie j]
    exact h.2 j hj hp
  all_goals grind [quiet, noZombieChild]

theorem Calm.inv (hc : Calm d d') (h : WaitInv d) : WaitInv d' := by
  have hlive : ∀ q, (d.proc q).state ≠ .unused ∧ (d.proc q).state ≠ .zombie →
      (d'.proc q).state ≠ .unused ∧ (d'.proc q).state ≠ .zombie := fun q hq =>
    ⟨fun hu => hq.1 (hc.unused q hu), fun hz => hq.2 ((hc.zombie q).mp hz)⟩
  refine ⟨fun hl => ?_, fun j hj => hc.slots j hj (h.slots j hj), fun j hj => ?_,
    fun j q hj => ?_, hlive initproc h.init, fun k => ?_⟩
  · rw [hc.lock] at hl
    exact hc.quiet (h.quiet hl)
  · rw [hc.parent j]
    exact h.unused j (hc.unused j hj)
  · rw [hc.parent j] at hj
    exact hlive q (h.alive j q hj)
  · have hpending : (d'.proc k).pending = (d.proc k).pending := by
      unfold Proc.pending
      by_cases hz : (d.proc k).state = .zombie
      · obtain ⟨hpid, hxstate⟩ := hc.kept k hz
        rw [if_pos hz, if_pos ((hc.zombie k).mpr hz), hpid, hxstate]
      · rw [if_neg hz, if_neg (mt (hc.zombie k).mp hz)]
    rw [hc.log, hpending]
    exact h.log k

-- The same for one slot.
structure CalmSlot (k : Nat) (pr pr' : Proc C) : Prop where
  parent : pr'.parent = pr.parent
  zombie : pr'.state = .zombie ↔ pr.state = .zombie
  kept : pr.state = .zombie → pr'.pid = pr.pid ∧ pr'.xstate = pr.xstate
  unused : pr'.state = .unused → pr.state = .unused
  slots : NPROC ≤ k → pr.state = .unused → pr'.state = .unused
  waiting : pr'.state = .sleeping → pr'.chan = some (.proc k) →
    pr.state = .sleeping ∧ pr.chan = some (.proc k)

theorem CalmSlot.refl (k : Nat) (pr : Proc C) : CalmSlot k pr pr :=
  ⟨rfl, Iff.rfl, fun _ => ⟨rfl, rfl⟩, id, fun _ => id, fun hs hc => ⟨hs, hc⟩⟩

theorem Calm.of_slots (hlock : d'.lock .wait = d.lock .wait) (hlog : d'.log = d.log)
    (hslots : ∀ j, CalmSlot j (d.proc j) (d'.proc j)) : Calm d d' :=
  ⟨hlock, hlog, fun j => (hslots j).parent, fun j => (hslots j).zombie, fun j => (hslots j).kept,
    fun j => (hslots j).unused, fun j => (hslots j).slots, fun q hq => (hslots q).waiting hq.1 hq.2⟩

theorem CalmSlot.calm {k : Nat} {pr : Proc C} (h : CalmSlot k (d.proc k) pr)
    (hproc : d'.proc = Function.update d.proc k pr) (hlock : d'.lock .wait = d.lock .wait)
    (hlog : d'.log = d.log) : Calm d d' := by
  refine .of_slots hlock hlog fun j => ?_
  rw [hproc]
  grind [refl]

theorem calm_of_proc (hproc : d'.proc = d.proc) (hlock : d'.lock .wait = d.lock .wait)
    (hlog : d'.log = d.log) : Calm d d' :=
  .of_slots hlock hlog fun j => by rw [hproc]; exact .refl j _

theorem calmSlot_state {k : Nat} {pr pr' : Proc C} (hparent : pr'.parent = pr.parent)
    (hs : pr.state ≠ .unused ∧ pr.state ≠ .zombie)
    (hs' : pr'.state ≠ .unused ∧ pr'.state ≠ .zombie)
    (hw : pr'.state = .sleeping → pr'.chan ≠ some (.proc k)) : CalmSlot k pr pr' :=
  ⟨hparent, iff_of_false hs'.2 hs.2, fun hz => absurd hz hs.2, fun hu => absurd hu hs'.1,
    fun _ hu => absurd hu hs.1, fun h h' => absurd h' (hw h)⟩

theorem Switched.calm (h : Switched d d') : Calm d d' := by
  grind [Calm.of_slots, lock, log, proc, CalmSlot.refl, calmSlot_state]

end Calm

section Step

variable {S : Services σ L C K α} {c p q : Nat} {d d' : Kernel σ L C K} {pc pc' : Pc L C K}

theorem WaitKnows.stable (h : WaitKnows q pc d)
    (hasleep : (d'.proc q).state = .sleeping →
      (d.proc q).state = .sleeping ∧ (d'.proc q).chan = (d.proc q).chan)
    (hcalm : d.lock .wait = some q → Calm d d') : WaitKnows q pc d' := by
  refine ⟨h.formed, fun hh => ?_, fun hs hst => ?_⟩
  all_goals grind [holds, Calm.lock, Calm.fact, chan]

theorem Calm.knows (hc : Calm d d') (h : WaitKnows p pc d) (hs : pc.sleepsInWait = false) :
    WaitKnows p pc d' := by
  refine ⟨h.formed, fun hh => ?_, fun h' => ?_⟩
  · obtain ⟨hl, hfact⟩ := h.holds hh
    exact ⟨hc.lock.trans hl, hc.fact hfact⟩
  · rw [hs] at h'
    cases h'

theorem wake_fact {ch : Option (Chan C)} {k : Nat} {ret : Pc L C K} (hf : Wakes p ch ret)
    (h : (Pc.wake ch k ret).WaitFact p d) (hk : ch = some (.proc k) → ¬ Waiting d k) :
    (Pc.wake ch (k + 1) ret).WaitFact p d := by
  cases hf with
  | reparent hp =>
    obtain ⟨hquiet, hparent⟩ := h
    refine ⟨fun q _ hw => ?_, hparent⟩
    refine hquiet q (fun heq => ?_) hw
    grind
  | parent hp =>
    obtain ⟨hquiet, hparent, hch, hpassed⟩ := h
    refine ⟨hquiet, hparent, hch, fun q hq hqk => ?_⟩
    grind
  | service => trivial

theorem wake_done_fact {ch : Option (Chan C)} {k : Nat} {ret : Pc L C K} (hf : Wakes p ch ret)
    (h : (Pc.wake ch k ret).WaitFact p d) (hslots : ∀ j, NPROC ≤ j → (d.proc j).state = .unused)
    (hk : NPROC ≤ k) : ret.WaitFact p d := by
  cases hf with
  | reparent hp =>
    have hne : ¬ k ≤ initproc := by
      simp only [initproc, NPROC] at *
      omega
    obtain ⟨hquiet, hparent⟩ := h
    rw [if_neg hne] at hquiet
    exact ⟨hquiet, hparent⟩
  | parent hp =>
    obtain ⟨hquiet, hparent, -, hpassed⟩ := h
    refine ⟨hquiet, hparent, fun q hq hw => hpassed q hq ?_ hw⟩
    by_contra hlt
    have hu := hslots q (by omega)
    exact absurd (hu.symm.trans hw.1) (by decide)
  | service => trivial

theorem WaitKnows.away (hf : pc.Formed p) (hh : pc.holdsWait = false) (hs : pc.sleepsInWait = false) :
    WaitKnows p pc d := by
  refine ⟨hf, fun h => ?_, fun h => ?_⟩
  all_goals grind

theorem WaitKnows.held (hf : pc.Formed p) (hs : pc.sleepsInWait = false)
    (hh : pc.holdsWait = true → d.lock .wait = some p ∧ pc.WaitFact p d) : WaitKnows p pc d := by
  refine ⟨hf, hh, fun h => ?_⟩
  rw [hs] at h
  cases h

theorem WaitKnows.wakeNext {ch : Option (Chan C)} {k : Nat} {ret : Pc L C K}
    (h : WaitKnows p (.wake ch k ret) d) (hk : ch = some (.proc k) → ¬ Waiting d k) :
    WaitKnows p (.wake ch (k + 1) ret) d := by
  refine .held h.formed rfl fun hh => ?_
  obtain ⟨hl, hfact⟩ := h.holds hh
  exact ⟨hl, wake_fact h.formed hfact hk⟩

theorem WaitInv.beyond (h : WaitInv d) {k j : Nat} (hk : NPROC ≤ k) (hj : ¬ j < k) :
    (d.proc j).parent = none :=
  h.unused j (h.slots j (by omega))

theorem WaitKnows.moved (hcpu : CpuKnows c (.run p pc) d) (hinv : WaitInv d)
    (h : WaitKnows p pc d) (hm : Moved S c p d pc pc') : WaitKnows p pc' d := by
  cases hm with
  | exit hp => exact .away hp rfl rfl
  | exitNext hk hp =>
    obtain ⟨hl, hquiet, hparent⟩ := h.holds rfl
    refine .held h.formed rfl fun _ => ⟨hl, hquiet, fun j hj => ?_⟩
    grind
  | exitWake hk =>
    rename_i k
    obtain ⟨hl, hquiet, hparent⟩ := h.holds rfl
    refine .held (Wakes.parent h.formed) rfl fun _ =>
      ⟨hl, hquiet, fun j => ?_, rfl, fun _ _ h => absurd h (Nat.not_lt_zero _)⟩
    grind [WaitInv.beyond]
  | waitUncopied hk hp hlock hs ha =>
    obtain ⟨hl, hquiet, -⟩ := h.holds rfl
    exact .held trivial rfl fun _ => ⟨hl, hquiet⟩
  | waitChild hk hp hlock hs =>
    obtain ⟨hl, hquiet, hkids⟩ := h.holds rfl
    refine .held trivial rfl fun _ => ⟨hl, hquiet, fun j hj hjp => ⟨?_, rfl⟩⟩
    grind
  | waitNext hk hp =>
    obtain ⟨hl, hquiet, hkids⟩ := h.holds rfl
    refine .held trivial rfl fun _ => ⟨hl, hquiet, fun j hj hjp => ?_⟩
    grind
  | waitNone hk =>
    obtain ⟨hl, hquiet, -⟩ := h.holds rfl
    exact .held trivial rfl fun _ => ⟨hl, hquiet⟩
  | waitKids hk =>
    rename_i addr k
    obtain ⟨hl, hquiet, hkids⟩ := h.holds rfl
    refine .held trivial rfl fun _ => ⟨hl, hquiet, fun j hjp => ?_⟩
    grind [WaitInv.beyond]
  | waitKilled hlock hk =>
    obtain ⟨hl, hquiet, -⟩ := h.holds rfl
    exact .held trivial rfl fun _ => ⟨hl, hquiet⟩
  | waitSleep hlock hk => exact .held Sleeps.wait rfl fun _ => h.holds rfl
  | wakeSelf hk hc =>
    refine h.wakeNext fun _ hw => ?_
    have hp := Option.some.inj (hcpu.1.symm.trans hc)
    subst hp
    exact absurd (hw.1.symm.trans hcpu.2.2.1) (by simp [Pc.procState])
  | wakeNext hk hl hs => exact h.wakeNext fun hch hw => hs ⟨hw.1, hch ▸ hw.2⟩
  | wakeDone hk =>
    rename_i ch k
    have hf : Wakes p ch pc' := h.formed
    refine ⟨?_, fun hh => ?_, fun hh => ?_⟩
    · cases hf with
      | reparent hp => exact hp
      | parent hp => exact hp
      | service => trivial
    · obtain ⟨hl, hfact⟩ := h.holds hh
      exact ⟨hl, wake_done_fact hf hfact hinv.slots hk⟩
    · cases hf <;> cases hh
  | sleep hc => exact .away .service rfl rfl
  | wakeup hc => exact .away .service rfl rfl
  | _ => exact .away trivial rfl rfl

-- A step of process p keeps what the kernel and the other processes need.
def WaitOk (p : Nat) (d d' : Kernel σ L C K) (pc' : Pc L C K) : Prop :=
  WaitInv d' ∧ WaitKnows p pc' d' ∧ ∀ q l, q ≠ p → WaitKnows q l d → WaitKnows q l d'

variable [DecidableEq K]

theorem Changed.calm_ok (hch : Changed S c p d pc d' pc') (hinv : WaitInv d) (hc : Calm d d')
    (hown : WaitKnows p pc' d') : WaitOk p d d' pc' :=
  ⟨hc.inv hinv, hown, fun _ _ hq hk => hk.stable (hch.asleep hq) fun _ => hc⟩

theorem Changed.held_ok (hch : Changed S c p d pc d' pc')
    (hl : ∀ q, q ≠ p → d.lock .wait ≠ some q) (hinv : WaitInv d') (hown : WaitKnows p pc' d') :
    WaitOk p d d' pc' :=
  ⟨hinv, hown, fun q _ hq hk => hk.stable (hch.asleep hq) fun h => absurd h (hl q hq)⟩

omit [DecidableEq K] in
theorem setParent_proc (k r j : Nat) :
    ((d.setProc k fun pr => { pr with parent := some r }).proc j) =
      { d.proc j with parent := if j = k then some r else (d.proc j).parent } := by
  by_cases hj : j = k
  · subst hj
    simp
  · rw [(only_setProc k _).proc j hj, if_neg hj]

omit [DecidableEq K] in
theorem Quiet.setParent {apart : Option Nat} {k r : Nat} (h : Quiet d apart)
    (hr : apart ≠ some r → Waiting d r → (d.proc k).state ≠ .zombie) :
    Quiet (d.setProc k fun pr => { pr with parent := some r }) apart := by
  intro q hq hw j hj
  unfold Waiting at hw
  simp only [setParent_proc] at hw hj ⊢
  split at hj
  · rename_i hjk
    cases hj
    rw [hjk]
    exact hr hq hw
  · exact h q hq hw j hj

omit [DecidableEq K] in
theorem WaitInv.setParent {k r : Nat} (hinv : WaitInv d) (hk : (d.proc k).state ≠ .unused)
    (hr : (d.proc r).state ≠ .unused ∧ (d.proc r).state ≠ .zombie)
    (hquiet : d.lock .wait = none → Waiting d r → (d.proc k).state ≠ .zombie) :
    WaitInv (d.setProc k fun pr => { pr with parent := some r }) := by
  refine ⟨fun hl => (hinv.quiet hl).setParent fun _ => hquiet hl, fun j hj => ?_,
    fun j hj => ?_, fun j q hj => ?_, ?_, fun j => ?_⟩
  · rw [setParent_proc]
    exact hinv.slots j hj
  · rw [setParent_proc] at hj ⊢
    dsimp only at hj ⊢
    have hjk : j ≠ k := fun heq => hk (heq ▸ hj)
    rw [if_neg hjk]
    exact hinv.unused j hj
  · rw [setParent_proc] at hj ⊢
    grind [alive]
  · rw [setParent_proc]
    exact hinv.init
  · rw [setParent_proc]
    exact hinv.log j

-- Process p, which holds wait_lock, has no children and whose parent does not
-- wait, becomes a ZOMBIE.
theorem WaitInv.exitZombie {status : Int} (hinv : WaitInv d) (hs : (d.proc p).state = .running)
    (hp : p ≠ initproc) (hquiet : Quiet d none) (hchildren : ∀ j, (d.proc j).parent ≠ some p)
    (hparent : ∀ q, (d.proc p).parent = some q → ¬ Waiting d q) :
    WaitInv (d.exitZombie p status) := by
  have hself : (d.exitZombie p status).proc p = { d.proc p with xstate := status, state := .zombie } :=
    Function.update_self ..
  have hother : ∀ j, j ≠ p → (d.exitZombie p status).proc j = d.proc j := fun j hj =>
    Function.update_of_ne hj _ _
  have hpar : ∀ j, ((d.exitZombie p status).proc j).parent = (d.proc j).parent := by
    grind
  refine ⟨fun _ q _ hw j hj hz => ?_, fun j hj => ?_, fun j hj => ?_, fun j q hj => ?_, ?_,
    fun j => ?_⟩
  · unfold Waiting at hw
    rw [hpar] at hj
    have hqp : q ≠ p := fun heq => hchildren j (heq ▸ hj)
    rw [hother q hqp] at hw
    by_cases hjp : j = p
    · exact hparent q (hjp ▸ hj) hw
    · rw [hother j hjp] at hz
      exact hquiet.all hw hj hz
  · grind [slots]
  · grind [unused]
  · grind [alive]
  · grind [init]
  · have hlog : (d.exitZombie p status).log = d.log ++ [.exited p (d.proc p).pid status] := rfl
    have hj := hinv.log j
    rw [hlog]
    by_cases hjp : j = p
    · subst hjp
      simp [exits, reaps, Proc.pending, hs, hself] at hj ⊢
      exact hj
    · grind [exits, reaps]

-- Process p, which holds wait_lock, frees its child k.
omit [DecidableEq K] in
theorem Quiet.reap {k : Nat} (h : Quiet d none) (hproc : d'.proc = Function.update d.proc k .free) :
    Quiet d' none := by
  have hself : d'.proc k = .free := by rw [hproc, Function.update_self]
  have hother : ∀ j, j ≠ k → d'.proc j = d.proc j := fun j hj => by
    rw [hproc, Function.update_of_ne hj]
  intro q _ hw j hj
  unfold Waiting at hw
  have hqk : q ≠ k := by
    intro heq
    rw [heq, hself] at hw
    cases hw.1
  have hjk : j ≠ k := by
    intro heq
    rw [heq, hself] at hj
    cases hj
  rw [hother q hqk] at hw
  rw [hother j hjk] at hj ⊢
  exact h.all hw hj

omit [DecidableEq K] in
theorem WaitInv.reap {k : Nat} (hinv : WaitInv d) (hs : (d.proc k).state = .zombie)
    (hquiet : Quiet d none) (hproc : d'.proc = Function.update d.proc k .free)
    (hlog : d'.log = d.log ++ [.reaped p k (d.proc k).pid (d.proc k).xstate]) : WaitInv d' := by
  have hself : d'.proc k = .free := by rw [hproc, Function.update_self]
  have hother : ∀ j, j ≠ k → d'.proc j = d.proc j := fun j hj => by
    rw [hproc, Function.update_of_ne hj]
  refine ⟨fun _ => hquiet.reap hproc, fun j hj => ?_, fun j hj => ?_, fun j q hj => ?_, ?_,
    fun j => ?_⟩
  · grind [slots]
  · by_cases hjk : j = k
    · rw [hjk, hself]
      rfl
    grind [unused]
  · have hjk : j ≠ k := by
      intro heq
      rw [heq, hself] at hj
      cases hj
    grind [alive]
  · grind [init]
  · have hj := hinv.log j
    rw [hlog]
    by_cases hjk : j = k
    · subst hjk
      simp [exits, reaps, Proc.pending, hs, hself, Proc.free] at hj ⊢
      exact hj
    grind [exits, reaps]

-- Process p, which holds wait_lock and has no child to find, goes to sleep.
theorem WaitInv.sleepSet {ch : Chan C} (hinv : WaitInv d) (hs : (d.proc p).state = .running)
    (hquiet : Quiet d none) (hchildren : NoZombieChild d p) : WaitInv (d.sleepSet p ch .wait) := by
  have hself : (d.sleepSet p ch .wait).proc p = { d.proc p with chan := some ch, state := .sleeping } :=
    Function.update_self ..
  have hother : ∀ j, j ≠ p → (d.sleepSet p ch .wait).proc j = d.proc j := fun j hj =>
    Function.update_of_ne hj _ _
  have hpar : ∀ j, ((d.sleepSet p ch .wait).proc j).parent = (d.proc j).parent := by
    grind
  have hstate : ∀ j x, x ≠ .sleeping → x ≠ .running →
      (((d.sleepSet p ch .wait).proc j).state = x ↔ (d.proc j).state = x) := by
    grind
  refine ⟨fun _ q _ hw j hj => ?_, fun j hj => ?_, fun j hj => ?_, fun j q hj => ?_, ?_,
    fun j => ?_⟩
  · rw [hpar] at hj
    rw [Ne, hstate j _ (by decide) (by decide)]
    by_cases hqp : q = p
    · subst hqp
      exact hchildren j hj
    · unfold Waiting at hw
      rw [hother q hqp] at hw
      exact hquiet.all hw hj
  · grind [slots]
  · rw [hpar]
    grind [unused]
  · rw [hpar] at hj
    rw [Ne, Ne, hstate q _ (by decide) (by decide), hstate q _ (by decide) (by decide)]
    exact hinv.alive j q hj
  · rw [Ne, Ne, hstate _ _ (by decide) (by decide), hstate _ _ (by decide) (by decide)]
    exact hinv.init
  · have hj := hinv.log j
    have hlog : (d.sleepSet p ch .wait).log = d.log := rfl
    rw [hlog]
    grind [Proc.pending]

theorem setLock_wait (holder : Option Nat) : (d.setLock .wait holder).lock .wait = holder := by
  simp [Kernel.setLock]

theorem setLock_service (k : K) (holder : Option Nat) :
    (d.setLock (.service k) holder).lock .wait = d.lock .wait := by
  simp [Kernel.setLock]

theorem WaitInv.setLock {lk : LockId K} {holder : Option Nat} (hinv : WaitInv d)
    (hquiet : (d.setLock lk holder).lock .wait = none → Quiet d none) :
    WaitInv (d.setLock lk holder) :=
  ⟨hquiet, hinv.slots, hinv.unused, hinv.alive, hinv.init, hinv.log⟩

theorem calm_setLock (k : K) (holder : Option Nat) : Calm d (d.setLock (.service k) holder) :=
  calm_of_proc rfl (setLock_service k holder) rfl

theorem WaitInv.acquire (hinv : WaitInv d) : WaitInv (d.setLock .wait (some p)) :=
  hinv.setLock fun hn => absurd ((setLock_wait _).symm.trans hn) (by simp)

theorem Changed.wait_ok (hch : Changed S c p d pc d' pc') (hcpu : CpuKnows c (.run p pc) d)
    (hinv : WaitInv d) (h : WaitKnows p pc d) : WaitOk p d d' pc' := by
  have hok := hch.calm_ok hinv
  have hheld := hch.held_ok
  obtain ⟨-, -, hstate, ht⟩ := hcpu
  cases hch with
  | forkret => exact hok (calm_of_proc rfl rfl rfl) (.away trivial rfl rfl)
  | forkFail hk hl hs =>
    rename_i k
    have hparent := hinv.unused _ hs
    have hslot : CalmSlot k (d.proc k) .free :=
      ⟨hparent.symm, by simp [Proc.free, hs], by simp [hs], fun _ => hs, fun _ _ => rfl,
        fun h => by cases h⟩
    exact hok (hslot.calm rfl rfl rfl) (.away trivial rfl rfl)
  | forkAlloc hk hl hs =>
    refine hok (CalmSlot.calm ?_ rfl rfl rfl) (.away trivial rfl rfl)
    refine ⟨rfl, ?_, ?_, fun h => (by cases h), fun hge => absurd hk (by omega), fun h => by cases h⟩
    · simp [hs]
    · simp [hs]
  | forkParent hl =>
    rename_i np pid
    have hm : Makes d p np := ht
    have hlive : (d.proc p).state ≠ .unused ∧ (d.proc p).state ≠ .zombie := by
      simp [hstate, Pc.procState]
    refine hheld (by simp [hl]) (hinv.setParent ?_ hlive fun _ hw => ?_) (.away trivial rfl rfl)
    all_goals grind [Makes.state]
  | forkRun hl =>
    refine hok (CalmSlot.calm ?_ rfl rfl rfl) (.away trivial rfl rfl)
    exact calmSlot_state rfl (by simp [ht.state]) (by simp) (by simp)
  | acquire ha hl =>
    have hself : (d.setLock .wait (some p)).lock .wait = some p := setLock_wait _
    cases ha with
    | exit =>
      exact hheld (by simp [hl]) hinv.acquire
        (.held h.formed rfl fun _ => ⟨hself, hinv.quiet hl, fun _ h => absurd h (Nat.not_lt_zero _)⟩)
    | wait =>
      exact hheld (by simp [hl]) hinv.acquire
        (.held trivial rfl fun _ => ⟨hself, hinv.quiet hl, fun _ h => absurd h (Nat.not_lt_zero _)⟩)
    | sleep =>
      obtain ⟨ch, hf⟩ := h.formed
      cases hf with
      | wait =>
        exact hheld (by simp [hl]) hinv.acquire
          (.held trivial rfl fun _ => ⟨hself, hinv.quiet hl, fun _ h => absurd h (Nat.not_lt_zero _)⟩)
      | service => exact hok (calm_setLock _ _) (.away trivial rfl rfl)
    | service hc => exact hok (calm_setLock _ _) (.away trivial rfl rfl)
  | release hr =>
    cases hr with
    | wait =>
      obtain ⟨hl, hquiet⟩ := h.holds rfl
      refine hheld (fun q hq heq => hq ?_) (hinv.setLock fun _ => hquiet)
        (.away trivial rfl rfl)
      grind
    | service hc => exact hok (calm_setLock _ _) (.away trivial rfl rfl)
  | act hc hf => exact hok (calm_of_proc rfl rfl rfl) (.away trivial rfl rfl)
  | exitReparent hk hp =>
    rename_i status k
    obtain ⟨hl, hquiet, hparent⟩ := h.holds rfl
    have hpi : p ≠ initproc := h.formed
    have hk' : (d.proc k).state ≠ .unused := fun hu => by simp [hinv.unused k hu] at hp
    refine hheld (fun q hq heq => hq ?_) (hinv.setParent hk' hinv.init fun hn => ?_)
      (.held (Wakes.reparent hpi) rfl fun _ => ⟨hl, ?_, fun j hj => ?_⟩)
    · grind
    · grind
    · refine Quiet.setParent (fun q _ hw j hj => hquiet.all hw hj) fun hne => absurd rfl hne
    · rw [setParent_proc]
      grind
  | exitSelf hl =>
    have hc : Calm d (d.setPlock p (some c)) := calm_of_proc rfl rfl rfl
    exact hok hc (.held h.formed rfl fun _ => ⟨(h.holds rfl).1, hc.fact (h.holds rfl).2⟩)
  | exitZombie =>
    obtain ⟨hl, hquiet, hchildren, hparent⟩ := h.holds rfl
    refine hheld (fun q hq heq => hq ?_)
      (hinv.exitZombie hstate h.formed hquiet hchildren hparent) (.away trivial rfl rfl)
    grind
  | reap hk hp hplock hs =>
    obtain ⟨hl, hquiet, -⟩ := h.holds rfl
    refine hheld (fun q hq heq => hq ?_) (hinv.reap hs hquiet rfl rfl)
      (.held trivial rfl fun _ => ⟨hl, hquiet.reap rfl⟩)
    grind
  | kill hk hl hp =>
    rename_i k
    refine hok (CalmSlot.calm ?_ rfl rfl rfl) (.away trivial rfl rfl)
    by_cases hs : (d.proc k).state = .sleeping
    · grind [calmSlot_state]
    · simp only [hs, if_false]
      exact ⟨rfl, Iff.rfl, fun _ => ⟨rfl, rfl⟩, id, fun _ => id, fun h => absurd h hs⟩
  | yieldLock hl =>
    refine hok (CalmSlot.calm ?_ rfl rfl rfl) (.away h.formed rfl rfl)
    exact calmSlot_state rfl (by simp [hstate, Pc.procState]) (by simp) (by simp)
  | yieldUnlock =>
    obtain ⟨hh, hs, hf⟩ := h.formed
    exact hok (calm_of_proc rfl rfl rfl) (.away hf hh hs)
  | sleepLock hplock =>
    rename_i ch lk ret
    have hc : Calm d (d.setPlock p (some c)) := calm_of_proc rfl rfl rfl
    refine hok hc (.held h.formed rfl fun hh => ?_)
    cases lk with
    | wait => exact ⟨(h.holds rfl).1, hc.fact (h.holds rfl).2⟩
    | service k => cases hh
  | sleepSet =>
    rename_i ch lk ret
    have hf : Sleeps p ch lk ret := h.formed
    cases hf with
    | wait =>
      obtain ⟨hl, hquiet, hchildren⟩ := h.holds rfl
      refine hheld (fun q hq heq => hq ?_) (hinv.sleepSet hstate hquiet hchildren)
        ⟨⟨_, h.formed⟩, fun hh => (by cases hh), fun _ _ => ?_⟩
      · grind
      · simp [Kernel.sleepSet, Kernel.setLock]
    | service =>
      refine hok (CalmSlot.calm ?_ rfl (setLock_service _ _) rfl)
        (.away ⟨_, h.formed⟩ rfl rfl)
      grind [calmSlot_state, Pc.procState]
  | sleepTidy =>
    obtain ⟨ch, hf⟩ := h.formed
    refine hok (CalmSlot.calm ?_ rfl rfl rfl) (.away ⟨ch, hf⟩ rfl rfl)
    grind [calmSlot_state, Pc.procState]
  | wake hk hc hl hs hch' =>
    rename_i ch k ret
    have hslot : CalmSlot k (d.proc k) { d.proc k with state := .runnable } :=
      calmSlot_state rfl (by simp [hs]) (by simp) (by simp)
    have hcalm : Calm d (d.setProc k fun pr => { pr with state := .runnable }) :=
      hslot.calm rfl rfl rfl
    exact hok hcalm ((hcalm.knows h rfl).wakeNext fun _ hw => by simp [Waiting] at hw)

omit [DecidableEq K] in
theorem WaitKnows.timer (hf : pc.unlocked S = true) (h : WaitKnows p pc d) :
    WaitKnows p (.yieldLock pc) d := by
  refine .away ⟨?_, ?_, h.formed⟩ rfl rfl
  · cases pc with
    | wake ch k ret =>
      have hw : Wakes p ch ret := h.formed
      cases hw <;> first | rfl | cases hf
    | _ => first | rfl | cases hf
  · cases pc <;> first | rfl | cases hf

omit [DecidableEq K] in
theorem WaitKnows.saved (hpc : pc.saved = some pc') (h : WaitKnows p pc d) : WaitKnows p pc' d := by
  cases pc with
  | exitSched =>
    cases hpc
    exact .away trivial rfl rfl
  | yieldSched ret =>
    cases hpc
    exact .away h.formed rfl rfl
  | sleepSched lk ret =>
    cases hpc
    refine ⟨h.formed, fun hh => (by cases hh), fun hs => h.chan ?_⟩
    cases lk with
    | wait => rfl
    | service k => cases hs
  | _ => cases hpc

theorem waitRules (S : Services σ L C K α)
    (ok : Machine (Kernel σ L C K) (CpuPc L C K) → Nat → Choice α → Prop) :
    Rules S ok WaitInv WaitKnows where
  switched hd hinv := by
    refine ⟨hd.calm.inv hinv, fun q pc hk => hk.stable (fun hs => ?_) fun _ => hd.calm⟩
    grind [Switched.proc]
  fresh _ := .away trivial rfl rfl
  timer hf hk := hk.timer hf
  saved hpc hk := hk.saved hpc
  moved hcpu hinv hk hm := hk.moved hcpu hinv hm
  changed _ hcpu _ _ hinv hk hch := by
    obtain ⟨hinv', hown, hothers⟩ := hch.wait_ok hcpu hinv hk
    grind

end Step

end Xv6.ProcTable
