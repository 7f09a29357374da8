import Xv6.ProcTable

namespace Xv6.ProcTable

open Lib

variable {σ L C K α : Type} [DecidableEq K] {S : Services σ L C K α}

-- The steps of process p on CPU c that change nothing but where it is.
inductive Moved (S : Services σ L C K α) (c p : Nat) (d : Kernel σ L C K) :
    Pc L C K → Pc L C K → Prop
  | fork : Moved S c p d .user (.forkAlloc 0)
  | exit {status : Int} (hp : p ≠ initproc) : Moved S c p d .user (.exitLock status)
  | wait {addr : Nat} : Moved S c p d .user (.waitLock addr)
  | kill {pid : Int} : Moved S c p d .user (.kill pid 0)
  | call : Moved S c p d .user (.service S.idle)
  | sysret {r : Int} : Moved S c p d (.sysret r) .user
  | forkNext {k : Nat} (hk : k < NPROC) (hl : d.plock k = none) (hs : (d.proc k).state ≠ .unused) :
      Moved S c p d (.forkAlloc k) (.forkAlloc (k + 1))
  | forkNone {k : Nat} (hk : NPROC ≤ k) : Moved S c p d (.forkAlloc k) (.sysret (-1))
  | exitNext {status : Int} {k : Nat} (hk : k < NPROC) (hp : (d.proc k).parent ≠ some p) :
      Moved S c p d (.exitReparent status k) (.exitReparent status (k + 1))
  | exitWake {status : Int} {k : Nat} (hk : NPROC ≤ k) :
      Moved S c p d (.exitReparent status k)
        (.wake ((d.proc p).parent.map .proc) 0 (.exitSelf status))
  | waitUncopied {addr k : Nat} {havekids : Bool} (hk : k < NPROC)
      (hp : (d.proc k).parent = some p) (hl : d.plock k = none)
      (hs : (d.proc k).state = .zombie) (ha : addr ≠ 0) :
      Moved S c p d (.waitScan addr havekids k) (.waitReturn (-1))
  | waitChild {addr k : Nat} {havekids : Bool} (hk : k < NPROC)
      (hp : (d.proc k).parent = some p) (hl : d.plock k = none)
      (hs : (d.proc k).state ≠ .zombie) :
      Moved S c p d (.waitScan addr havekids k) (.waitScan addr true (k + 1))
  | waitNext {addr k : Nat} {havekids : Bool} (hk : k < NPROC)
      (hp : (d.proc k).parent ≠ some p) :
      Moved S c p d (.waitScan addr havekids k) (.waitScan addr havekids (k + 1))
  | waitNone {addr k : Nat} (hk : NPROC ≤ k) :
      Moved S c p d (.waitScan addr false k) (.waitReturn (-1))
  | waitKids {addr k : Nat} (hk : NPROC ≤ k) :
      Moved S c p d (.waitScan addr true k) (.waitKilled addr)
  | waitKilled {addr : Nat} (hl : d.plock p = none) (hk : (d.proc p).killed = true) :
      Moved S c p d (.waitKilled addr) (.waitReturn (-1))
  | waitSleep {addr : Nat} (hl : d.plock p = none) (hk : (d.proc p).killed = false) :
      Moved S c p d (.waitKilled addr) (.sleepLock (.proc p) .wait (.waitScan addr false 0))
  | killNext {pid : Int} {k : Nat} (hk : k < NPROC) (hl : d.plock k = none)
      (hp : (d.proc k).pid ≠ pid) : Moved S c p d (.kill pid k) (.kill pid (k + 1))
  | killNone {pid : Int} {k : Nat} (hk : NPROC ≤ k) : Moved S c p d (.kill pid k) (.sysret (-1))
  | wakeSelf {ch : Option (Chan C)} {k : Nat} {ret : Pc L C K} (hk : k < NPROC)
      (hc : d.cpu c = some k) : Moved S c p d (.wake ch k ret) (.wake ch (k + 1) ret)
  | wakeNext {ch : Option (Chan C)} {k : Nat} {ret : Pc L C K} (hk : k < NPROC)
      (hl : d.plock k = none) (hs : ¬ ((d.proc k).state = .sleeping ∧ (d.proc k).chan = ch)) :
      Moved S c p d (.wake ch k ret) (.wake ch (k + 1) ret)
  | wakeDone {ch : Option (Chan C)} {k : Nat} {ret : Pc L C K} (hk : NPROC ≤ k) :
      Moved S c p d (.wake ch k ret) ret
  | done {l : L} (hd : S.done l = true) : Moved S c p d (.service l) .user
  | killed {l yes no : L} (hc : S.code l = .killed yes no) (hl : d.plock p = none) :
      Moved S c p d (.service l) (.service (if (d.proc p).killed then yes else no))
  | sleep {l next : L} {ch : C} (hc : S.code l = .sleep ch next) :
      Moved S c p d (.service l)
        (.sleepLock (.service ch) (.service (S.lock l)) (.service next))
  | wakeup {l next : L} {ch : C} (hc : S.code l = .wakeup ch next) :
      Moved S c p d (.service l) (.wake (some (.service ch)) 0 (.service next))

-- Where a process acquires and releases a lock other than its own p->lock.
inductive Acquires (S : Services σ L C K α) : Pc L C K → LockId K → Pc L C K → Prop
  | exit {status : Int} : Acquires S (.exitLock status) .wait (.exitReparent status 0)
  | wait {addr : Nat} : Acquires S (.waitLock addr) .wait (.waitScan addr false 0)
  | sleep {lk : LockId K} {ret : Pc L C K} : Acquires S (.sleepRelock lk ret) lk ret
  | service {l next : L} (hc : S.code l = .acquire next) :
      Acquires S (.service l) (.service (S.lock l)) (.service next)

inductive Releases (S : Services σ L C K α) : Pc L C K → LockId K → Pc L C K → Prop
  | wait {r : Int} : Releases S (.waitReturn r) .wait (.sysret r)
  | service {l next : L} (hc : S.code l = .release next) :
      Releases S (.service l) (.service (S.lock l)) (.service next)

-- The steps of process p on CPU c that change the kernel.
inductive Changed (S : Services σ L C K α) (c p : Nat) (d : Kernel σ L C K) :
    Pc L C K → Kernel σ L C K → Pc L C K → Prop
  | forkret : Changed S c p d .forkret (d.setPlock p none) .user
  | forkFail {k : Nat} (hk : k < NPROC) (hl : d.plock k = none)
      (hs : (d.proc k).state = .unused) :
      Changed S c p d (.forkAlloc k)
        { d.setProc k fun _ => .free with nextpid := Int.bmod (d.nextpid + 1) 0x100000000 }
        (.sysret (-1))
  | forkAlloc {k : Nat} (hk : k < NPROC) (hl : d.plock k = none)
      (hs : (d.proc k).state = .unused) :
      Changed S c p d (.forkAlloc k)
        { (d.setProc k fun np =>
            { np with pid := d.nextpid, state := .used, maker := some p }).setContext k .forkret
          with nextpid := Int.bmod (d.nextpid + 1) 0x100000000 }
        (.forkParent k d.nextpid)
  | forkParent {np : Nat} {pid : Int} (hl : d.lock .wait = none) :
      Changed S c p d (.forkParent np pid) (d.setProc np fun pr => { pr with parent := some p })
        (.forkRun np pid)
  | forkRun {np : Nat} {pid : Int} (hl : d.plock np = none) :
      Changed S c p d (.forkRun np pid)
        (d.setProc np fun pr => { pr with state := .runnable, maker := none }) (.sysret pid)
  | acquire {pc next : Pc L C K} {lk : LockId K} (ha : Acquires S pc lk next)
      (hl : d.lock lk = none) : Changed S c p d pc (d.setLock lk (some p)) next
  | release {pc next : Pc L C K} {lk : LockId K} (hr : Releases S pc lk next) :
      Changed S c p d pc (d.setLock lk none) next
  | act {l next : L} {a : α} {f : α → σ → Option (σ × L)} {data : σ} (hc : S.code l = .act f)
      (hf : f a d.data = some (data, next)) :
      Changed S c p d (.service l) { d with data := data } (.service next)
  | exitReparent {status : Int} {k : Nat} (hk : k < NPROC) (hp : (d.proc k).parent = some p) :
      Changed S c p d (.exitReparent status k)
        (d.setProc k fun pp => { pp with parent := some initproc })
        (.wake (some (.proc initproc)) 0 (.exitReparent status (k + 1)))
  | exitSelf {status : Int} (hl : d.plock p = none) :
      Changed S c p d (.exitSelf status) (d.setPlock p (some c)) (.exitZombie status)
  | exitZombie {status : Int} :
      Changed S c p d (.exitZombie status) (d.exitZombie p status) .exitSched
  | reap {addr k : Nat} {havekids : Bool} (hk : k < NPROC) (hp : (d.proc k).parent = some p)
      (hl : d.plock k = none) (hs : (d.proc k).state = .zombie) :
      Changed S c p d (.waitScan addr havekids k)
        ((d.setProc k fun _ => .free).record (.reaped p k (d.proc k).pid (d.proc k).xstate))
        (.waitReturn (d.proc k).pid)
  | kill {pid : Int} {k : Nat} (hk : k < NPROC) (hl : d.plock k = none)
      (hp : (d.proc k).pid = pid) :
      Changed S c p d (.kill pid k)
        (d.setProc k fun pr =>
          { pr with
            killed := true
            state := if pr.state = .sleeping then .runnable else pr.state }) (.sysret 0)
  | yieldLock {ret : Pc L C K} (hl : d.plock p = none) :
      Changed S c p d (.yieldLock ret)
        ((d.setPlock p (some c)).setProc p fun pr => { pr with state := .runnable })
        (.yieldSched ret)
  | yieldUnlock {ret : Pc L C K} : Changed S c p d (.yieldUnlock ret) (d.setPlock p none) ret
  | sleepLock {ch : Chan C} {lk : LockId K} {ret : Pc L C K} (hl : d.plock p = none) :
      Changed S c p d (.sleepLock ch lk ret) (d.setPlock p (some c)) (.sleepSet ch lk ret)
  | sleepSet {ch : Chan C} {lk : LockId K} {ret : Pc L C K} :
      Changed S c p d (.sleepSet ch lk ret) (d.sleepSet p ch lk) (.sleepSched lk ret)
  | sleepTidy {lk : LockId K} {ret : Pc L C K} :
      Changed S c p d (.sleepTidy lk ret)
        ((d.setProc p fun pr => { pr with chan := none }).setPlock p none) (.sleepRelock lk ret)
  | wake {ch : Option (Chan C)} {k : Nat} {ret : Pc L C K} (hk : k < NPROC)
      (hc : d.cpu c ≠ some k) (hl : d.plock k = none) (hs : (d.proc k).state = .sleeping)
      (hch : (d.proc k).chan = ch) :
      Changed S c p d (.wake ch k ret) (d.setProc k fun pr => { pr with state := .runnable })
        (.wake ch (k + 1) ret)

-- The steps of a CPU.
inductive Stepped (S : Services σ L C K α) (c : Nat) (d : Kernel σ L C K) :
    CpuPc L C K → Kernel σ L C K → CpuPc L C K → Prop
  | wrap {k : Nat} (hk : NPROC ≤ k) : Stepped S c d (.sched (.scan k)) d (.sched (.scan 0))
  | scan {k : Nat} (hk : k < NPROC) (hl : d.plock k = none) :
      Stepped S c d (.sched (.scan k)) (d.setPlock k (some c)) (.sched (.test k))
  | choose {k : Nat} (hs : (d.proc k).state = .runnable) :
      Stepped S c d (.sched (.test k)) (d.setProc k fun pr => { pr with state := .running })
        (.sched (.start k))
  | pass {k : Nat} (hs : (d.proc k).state ≠ .runnable) :
      Stepped S c d (.sched (.test k)) (d.setPlock k none) (.sched (.scan (k + 1)))
  | start {k : Nat} :
      Stepped S c d (.sched (.start k)) (d.setCpu c (some k)) (.sched (.swtch k))
  | swtch {k : Nat} : Stepped S c d (.sched (.swtch k)) d (.run k (d.context k))
  | back {k : Nat} : Stepped S c d (.sched (.back k)) (d.setCpu c none) (.sched (.release k))
  | release {k : Nat} :
      Stepped S c d (.sched (.release k)) (d.setPlock k none) (.sched (.scan (k + 1)))
  | timer {p : Nat} {pc : Pc L C K} (hf : pc.unlocked S = true) :
      Stepped S c d (.run p pc) d (.run p (.yieldLock pc))
  | sched {p : Nat} {pc saved : Pc L C K} (hpc : pc.saved = some saved)
      (hs : (d.proc p).state ≠ .running) :
      Stepped S c d (.run p pc) (d.setContext p saved) (.sched (.back p))
  | moved {p : Nat} {pc pc' : Pc L C K} (hm : Moved S c p d pc pc') :
      Stepped S c d (.run p pc) d (.run p pc')
  | changed {p : Nat} {pc pc' : Pc L C K} {d' : Kernel σ L C K} (hc : Changed S c p d pc d' pc') :
      Stepped S c d (.run p pc) d' (.run p pc')

section Inversion

variable {β : Type} {c p : Nat} {a : Choice α} {d d' : Kernel σ L C K}

omit [DecidableEq K] in
theorem locked_eq {k : Nat} {r r' : β} (h : d.locked k r = some r') : d.plock k = none ∧ r = r' := by
  unfold Kernel.locked at h
  split at h
  · rename_i hl
    exact ⟨hl, Option.some.inj h⟩
  · cases h

theorem acquire_eq {lk : LockId K} {next : β} {r : Kernel σ L C K × β}
    (h : d.acquire p lk next = some r) : d.lock lk = none ∧ (d.setLock lk (some p), next) = r := by
  unfold Kernel.acquire at h
  split at h
  · rename_i hl
    exact ⟨hl, Option.some.inj h⟩
  · cases h

-- What a process does, in the cases of the step function.
def ProcStepped (S : Services σ L C K α) (c p : Nat) (d : Kernel σ L C K) (pc : Pc L C K)
    (d' : Kernel σ L C K) (pc' : Pc L C K) : Prop :=
  (d' = d ∧ Moved S c p d pc pc') ∨ Changed S c p d pc d' pc'

variable {pc pc' : Pc L C K}

theorem forkAlloc_stepped {k : Nat} (h : d.forkAlloc p k a = some (d', pc')) :
    ProcStepped S c p d (.forkAlloc k) d' pc' := by
  unfold Kernel.forkAlloc at h
  split at h
  · rename_i hk
    obtain ⟨hl, heq⟩ := locked_eq h
    split at heq
    · rename_i hs
      split at heq
      · cases heq
        exact .inr (.forkFail hk hl hs)
      · cases heq
        exact .inr (.forkAlloc hk hl hs)
    · rename_i hs
      cases heq
      exact .inl ⟨rfl, .forkNext hk hl hs⟩
  · rename_i hk
    cases h
    exact .inl ⟨rfl, .forkNone (Nat.le_of_not_lt hk)⟩

theorem exitReparent_stepped {status : Int} {k : Nat} :
    ProcStepped S c p d (.exitReparent status k) (d.exitReparent p status k).1
      (d.exitReparent p status k).2 := by
  unfold Kernel.exitReparent
  split
  · rename_i hk
    split
    · rename_i hp
      exact .inr (.exitReparent hk hp)
    · rename_i hp
      exact .inl ⟨rfl, .exitNext hk hp⟩
  · rename_i hk
    exact .inl ⟨rfl, .exitWake (Nat.le_of_not_lt hk)⟩

theorem waitScan_stepped {addr k : Nat} {havekids : Bool}
    (h : d.waitScan p addr havekids k a = some (d', pc')) :
    ProcStepped S c p d (.waitScan addr havekids k) d' pc' := by
  unfold Kernel.waitScan at h
  split at h
  · rename_i hk
    split at h
    · rename_i hp
      obtain ⟨hl, heq⟩ := locked_eq h
      split at heq
      · rename_i hs
        split at heq
        · split at heq
          · cases heq
            exact .inr (.reap hk hp hl hs)
          · rename_i ha
            cases heq
            exact .inl ⟨rfl, .waitUncopied hk hp hl hs ha⟩
        · cases heq
          exact .inr (.reap hk hp hl hs)
      · rename_i hs
        cases heq
        exact .inl ⟨rfl, .waitChild hk hp hl hs⟩
    · rename_i hp
      cases h
      exact .inl ⟨rfl, .waitNext hk hp⟩
  · rename_i hk
    cases h
    cases havekids with
    | false => exact .inl ⟨rfl, .waitNone (Nat.le_of_not_lt hk)⟩
    | true => exact .inl ⟨rfl, .waitKids (Nat.le_of_not_lt hk)⟩

theorem waitKilled_stepped {addr : Nat} (h : d.waitKilled p addr = some (d', pc')) :
    ProcStepped S c p d (.waitKilled addr) d' pc' := by
  obtain ⟨hl, heq⟩ := locked_eq h
  cases heq
  cases hk : (d.proc p).killed with
  | false => exact .inl ⟨rfl, .waitSleep hl hk⟩
  | true => exact .inl ⟨rfl, .waitKilled hl hk⟩

theorem kill_stepped {pid : Int} {k : Nat} (h : d.kill pid k = some (d', pc')) :
    ProcStepped S c p d (.kill pid k) d' pc' := by
  unfold Kernel.kill at h
  split at h
  · rename_i hk
    obtain ⟨hl, heq⟩ := locked_eq h
    split at heq
    · rename_i hp
      cases heq
      exact .inr (.kill hk hl hp)
    · rename_i hp
      cases heq
      exact .inl ⟨rfl, .killNext hk hl hp⟩
  · rename_i hk
    cases h
    exact .inl ⟨rfl, .killNone (Nat.le_of_not_lt hk)⟩

theorem service_stepped {l : L} (h : d.service S p l a = some (d', pc')) :
    ProcStepped S c p d (.service l) d' pc' := by
  unfold Kernel.service at h
  split at h
  · rename_i hd
    cases h
    exact .inl ⟨rfl, .done hd⟩
  · split at h
    · rename_i next hc
      obtain ⟨hl, heq⟩ := acquire_eq h
      cases heq
      exact .inr (.acquire (.service hc) hl)
    · rename_i next hc
      cases h
      exact .inr (.release (.service hc))
    · rename_i f hc
      split at h
      · obtain ⟨⟨data, next⟩, hf, heq⟩ := Option.map_eq_some_iff.mp h
        cases heq
        exact .inr (.act hc hf)
      · cases h
    · rename_i yes no hc
      obtain ⟨hl, heq⟩ := locked_eq h
      cases heq
      exact .inl ⟨rfl, .killed hc hl⟩
    · rename_i ch next hc
      cases h
      exact .inl ⟨rfl, .sleep hc⟩
    · rename_i ch next hc
      cases h
      exact .inl ⟨rfl, .wakeup hc⟩

theorem user_stepped (h : d.user S p a = some (d', pc')) : ProcStepped S c p d .user d' pc' := by
  unfold Kernel.user at h
  split at h
  · cases h
    exact .inl ⟨rfl, .fork⟩
  · split at h
    · cases h
    · rename_i hp
      cases h
      exact .inl ⟨rfl, .exit hp⟩
  · cases h
    exact .inl ⟨rfl, .wait⟩
  · cases h
    exact .inl ⟨rfl, .kill⟩
  · cases h
    exact .inl ⟨rfl, .call⟩
  · cases h

variable [DecidableEq C]

theorem wake_stepped {ch : Option (Chan C)} {k : Nat} {ret : Pc L C K}
    (h : d.wake c ch k ret = some (d', pc')) : ProcStepped S c p d (.wake ch k ret) d' pc' := by
  unfold Kernel.wake at h
  split at h
  · rename_i hk
    split at h
    · rename_i hc
      cases h
      exact .inl ⟨rfl, .wakeSelf hk hc⟩
    · rename_i hc
      obtain ⟨hl, heq⟩ := locked_eq h
      split at heq
      · rename_i hs
        cases heq
        exact .inr (.wake hk hc hl hs.1 hs.2)
      · rename_i hs
        cases heq
        exact .inl ⟨rfl, .wakeNext hk hl hs⟩
  · rename_i hk
    cases h
    exact .inl ⟨rfl, .wakeDone (Nat.le_of_not_lt hk)⟩

theorem procStep_stepped (h : procStep S c p a d pc = some (d', pc')) :
    ProcStepped S c p d pc d' pc' := by
  cases pc with
  | forkret =>
    cases h
    exact .inr .forkret
  | user => exact user_stepped h
  | sysret r =>
    cases h
    exact .inl ⟨rfl, .sysret⟩
  | forkAlloc k => exact forkAlloc_stepped h
  | forkParent np pid =>
    simp only [procStep, Kernel.forkParent] at h
    split at h
    · rename_i hl
      cases h
      exact .inr (.forkParent hl)
    · cases h
  | forkRun np pid =>
    obtain ⟨hl, heq⟩ := locked_eq h
    cases heq
    exact .inr (.forkRun hl)
  | exitLock status =>
    obtain ⟨hl, heq⟩ := acquire_eq h
    cases heq
    exact .inr (.acquire .exit hl)
  | exitReparent status k =>
    have heq := Option.some.inj h
    have hd : (d.exitReparent p status k).1 = d' := congrArg Prod.fst heq
    have hpc : (d.exitReparent p status k).2 = pc' := congrArg Prod.snd heq
    rw [← hd, ← hpc]
    exact exitReparent_stepped
  | exitSelf status =>
    obtain ⟨hl, heq⟩ := locked_eq h
    cases heq
    exact .inr (.exitSelf hl)
  | exitZombie status =>
    cases h
    exact .inr .exitZombie
  | waitLock addr =>
    obtain ⟨hl, heq⟩ := acquire_eq h
    cases heq
    exact .inr (.acquire .wait hl)
  | waitScan addr havekids k => exact waitScan_stepped h
  | waitKilled addr => exact waitKilled_stepped h
  | waitReturn r =>
    cases h
    exact .inr (.release .wait)
  | kill pid k => exact kill_stepped h
  | yieldLock ret =>
    obtain ⟨hl, heq⟩ := locked_eq h
    cases heq
    exact .inr (.yieldLock hl)
  | yieldUnlock ret =>
    cases h
    exact .inr .yieldUnlock
  | sleepLock ch lk ret =>
    obtain ⟨hl, heq⟩ := locked_eq h
    cases heq
    exact .inr (.sleepLock hl)
  | sleepSet ch lk ret =>
    cases h
    exact .inr .sleepSet
  | sleepTidy lk ret =>
    cases h
    exact .inr .sleepTidy
  | sleepRelock lk ret =>
    obtain ⟨hl, heq⟩ := acquire_eq h
    cases heq
    exact .inr (.acquire .sleep hl)
  | wake ch k ret => exact wake_stepped h
  | service l => exact service_stepped h
  | exitSched => cases h
  | yieldSched ret => cases h
  | sleepSched lk ret => cases h
  | dead => cases h

omit [DecidableEq C] in
theorem schedStep_stepped {pc : SchedPc} {l : CpuPc L C K} (h : schedStep c d pc = some (d', l)) :
    Stepped S c d (.sched pc) d' l := by
  cases pc with
  | scan k =>
    simp only [schedStep] at h
    split at h
    · rename_i hk
      obtain ⟨hl, heq⟩ := locked_eq h
      cases heq
      exact .scan hk hl
    · rename_i hk
      cases h
      exact .wrap (Nat.le_of_not_lt hk)
  | test k =>
    simp only [schedStep, Option.some.injEq] at h
    split at h
    · rename_i hs
      cases h
      exact .choose hs
    · rename_i hs
      cases h
      exact .pass hs
  | start k =>
    cases h
    exact .start
  | swtch k =>
    cases h
    exact .swtch
  | back k =>
    cases h
    exact .back
  | release k =>
    cases h
    exact .release

theorem step_stepped {l l' : CpuPc L C K} (h : step S c l a d = some (d', l')) :
    Stepped S c d l d' l' := by
  cases l with
  | sched pc => exact schedStep_stepped h
  | run p pc =>
    unfold step at h
    split at h
    · rename_i heq
      cases heq
    · rename_i heq
      cases heq
      split at h
      · rename_i hf
        cases h
        exact .timer hf
      · cases h
    · rename_i heq _
      cases heq
      split at h
      · rename_i saved hpc
        unfold Kernel.sched at h
        split at h
        · cases h
        · rename_i hs
          cases h
          exact .sched hpc hs
      · obtain ⟨⟨d₁, pc₁⟩, hr, heq⟩ := Option.map_eq_some_iff.mp h
        cases heq
        rcases procStep_stepped hr with ⟨rfl, hm⟩ | hc
        · exact .moved hm
        · exact .changed hc

end Inversion

end Xv6.ProcTable
