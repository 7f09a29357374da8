import Xv6.ProcTable.Reap

namespace Xv6.ProcTable

open Lib

variable {σ L C K α : Type}

-- Following the parent pointers from slot k leads to initproc.
inductive Descends (d : Kernel σ L C K) : Nat → Prop
  | init : Descends d initproc
  | child {k q : Nat} (hp : (d.proc k).parent = some q) (hq : Descends d q) : Descends d k

structure TreeInv (d : Kernel σ L C K) : Prop where
  wait : WaitInv d
  made : ∀ j q, (d.proc j).parent = some q → (d.proc q).state ≠ .used
  init : (d.proc initproc).state ≠ .used
  parent : ∀ j, j ≠ initproc → (d.proc j).state ≠ .unused → (d.proc j).state ≠ .used →
    ∃ q, (d.proc j).parent = some q
  descends : ∀ j q, (d.proc j).parent = some q → Descends d j

-- Slot np is one that process p has made in fork() and set the parent of.
structure Adopted (d : Kernel σ L C K) (p np : Nat) : Prop where
  parent : (d.proc np).parent = some p
  state : (d.proc np).state = .used
  maker : (d.proc np).maker = some p

def Pc.Linked (d : Kernel σ L C K) (p : Nat) : Pc L C K → Prop
  | forkRun np _ => Adopted d p np
  | yieldLock ret | yieldSched ret | yieldUnlock ret => ret.Linked d p
  | _ => True

structure TreeKnows (p : Nat) (pc : Pc L C K) (d : Kernel σ L C K) : Prop where
  wait : WaitKnows p pc d
  linked : pc.Linked d p

section Parents

variable {d d' : Kernel σ L C K} {k : Nat}

theorem Descends.relink (h : ∀ j, j ≠ k → (d'.proc j).parent = (d.proc j).parent)
    (hk : Descends d' k) {j : Nat} (hj : Descends d j) : Descends d' j := by
  induction hj with
  | init => exact .init
  | @child j q hp _ ih =>
    by_cases hjk : j = k
    · rw [hjk]
      exact hk
    · exact .child ((h j hjk).trans hp) ih

theorem Descends.avoid (h : ∀ j, j ≠ k → (d'.proc j).parent = (d.proc j).parent)
    (hk : ∀ j, (d.proc j).parent ≠ some k) {j : Nat} (hj : Descends d j) (hjk : j ≠ k) :
    Descends d' j := by
  induction hj with
  | init => exact .init
  | @child j q hp _ ih =>
    refine .child ((h j hjk).trans hp) (ih fun hqk => ?_)
    rw [hqk] at hp
    exact hk j hp

theorem Descends.congr (h : ∀ j, (d'.proc j).parent = (d.proc j).parent) {j : Nat}
    (hj : Descends d j) : Descends d' j := by
  induction hj with
  | init => exact .init
  | @child j q hp _ ih => exact .child ((h j).trans hp) ih

-- A change that makes and frees no slot and leaves the parents alone.
structure Kin (d d' : Kernel σ L C K) : Prop where
  parent : ∀ j, (d'.proc j).parent = (d.proc j).parent
  used : ∀ j, (d'.proc j).state = .used → (d.proc j).state = .used
  made : ∀ j, (d.proc j).state = .unused → (d'.proc j).state = .unused
  run : ∀ j, (d.proc j).state = .used → (d'.proc j).state = .used ∨ (d.proc j).parent ≠ none

theorem TreeInv.kin (h : TreeInv d) (hw : WaitInv d') (hk : Kin d d') : TreeInv d' := by
  refine ⟨hw, fun j q hj hs => ?_, fun hs => h.init (hk.used _ hs), fun j hj hu hm => ?_,
    fun j q hj => ?_⟩
  · rw [hk.parent] at hj
    exact h.made j q hj (hk.used q hs)
  · rw [hk.parent]
    by_cases hused : (d.proc j).state = .used
    · rcases hk.run j hused with hs | hs
      · exact absurd hs hm
      · exact Option.ne_none_iff_exists'.mp hs
    · exact h.parent j hj (fun hs => hu (hk.made j hs)) hused
  · rw [hk.parent] at hj
    exact (h.descends j q hj).congr hk.parent

theorem kin_of_proc (hproc : d'.proc = d.proc) : Kin d d' := by
  refine ⟨fun j => ?_, fun j hs => ?_, fun j hs => ?_, fun j hs => .inl ?_⟩
  · rw [hproc]
  · rw [hproc] at hs
    exact hs
  · rw [hproc]
    exact hs
  · rw [hproc]
    exact hs

theorem kin_of_update {pr : Proc C} (hproc : d'.proc = Function.update d.proc k pr)
    (hparent : pr.parent = (d.proc k).parent) (hused : pr.state = .used → (d.proc k).state = .used)
    (hmade : (d.proc k).state = .unused → pr.state = .unused)
    (hrun : (d.proc k).state = .used → pr.state = .used ∨ (d.proc k).parent ≠ none) :
    Kin d d' := by
  refine ⟨fun j => ?_, fun j hs => ?_, fun j hs => ?_, fun j hs => ?_⟩ <;> by_cases hj : j = k
  · rw [hj, hproc, Function.update_self]
    exact hparent
  · rw [hproc, Function.update_of_ne hj]
  · rw [hj, hproc, Function.update_self] at hs
    rw [hj]
    exact hused hs
  · rw [hproc, Function.update_of_ne hj] at hs
    exact hs
  · rw [hj] at hs
    rw [hj, hproc, Function.update_self]
    exact hmade hs
  · rw [hproc, Function.update_of_ne hj]
    exact hs
  · rw [hj] at hs
    rw [hj, hproc, Function.update_self]
    exact hrun hs
  · rw [hproc, Function.update_of_ne hj]
    exact .inl hs

theorem kin_of_state {pr : Proc C} (hproc : d'.proc = Function.update d.proc k pr)
    (hparent : pr.parent = (d.proc k).parent)
    (hs : (d.proc k).state ≠ .unused ∧ (d.proc k).state ≠ .used) (hs' : pr.state ≠ .used) :
    Kin d d' :=
  kin_of_update hproc hparent (fun h => absurd h hs') (fun h => absurd h hs.1)
    fun h => absurd h hs.2

theorem TreeInv.childless (h : TreeInv d)
    (hk : (d.proc k).state = .unused ∨ (d.proc k).state = .used ∨ (d.proc k).state = .zombie)
    (j : Nat) : (d.proc j).parent ≠ some k := by
  intro hj
  rcases hk with hk | hk | hk
  · exact (h.wait.alive j k hj).1 hk
  · exact h.made j k hj hk
  · exact (h.wait.alive j k hj).2 hk

theorem TreeInv.descends_of_running (h : TreeInv d) {p : Nat} (hp : (d.proc p).state = .running) :
    Descends d p := by
  by_cases hinit : p = initproc
  · rw [hinit]
    exact .init
  · obtain ⟨q, hq⟩ := h.parent p hinit (by simp [hp]) (by simp [hp])
    exact h.descends p q hq

-- np->parent = p
theorem TreeInv.adopt (h : TreeInv d) {p : Nat} (hk : (d.proc k).state = .used)
    (hp : (d.proc p).state = .running) (hw : WaitInv d')
    (hproc : d'.proc = Function.update d.proc k { d.proc k with parent := some p }) :
    TreeInv d' := by
  have hother : ∀ j, j ≠ k → d'.proc j = d.proc j := fun j hj => by
    rw [hproc, Function.update_of_ne hj]
  have hself : d'.proc k = { d.proc k with parent := some p } := by
    rw [hproc, Function.update_self]
  have hstate : ∀ j, (d'.proc j).state = (d.proc j).state := fun j => by
    by_cases hj : j = k
    · rw [hj, hself]
    · rw [hother j hj]
  have hsame : ∀ j, j ≠ k → (d'.proc j).parent = (d.proc j).parent := fun j hj => by
    rw [hother j hj]
  have hpk : p ≠ k := fun heq => by simp [← heq, hp] at hk
  have hchild : Descends d' k :=
    .child (by rw [hself]) ((h.descends_of_running hp).avoid hsame
      (h.childless (.inr (.inl hk))) hpk)
  refine ⟨hw, fun j q hj => ?_, ?_, fun j hj hu hm => ?_, fun j q hj => ?_⟩
  · rw [hstate]
    by_cases hjk : j = k
    · rw [hjk, hself] at hj
      rw [← Option.some.inj hj, hp]
      decide
    · rw [hother j hjk] at hj
      exact h.made j q hj
  · rw [hstate]
    exact h.init
  · rw [hstate] at hu hm
    have hjk : j ≠ k := fun hjk => hm (hjk ▸ hk)
    rw [hother j hjk]
    exact h.parent j hj hu hm
  · by_cases hjk : j = k
    · rw [hjk]
      exact hchild
    · rw [hother j hjk] at hj
      exact .relink hsame hchild (h.descends j q hj)

theorem TreeInv.orphan (h : TreeInv d) (hw : WaitInv d')
    (hproc : d'.proc = Function.update d.proc k { d.proc k with parent := some initproc }) :
    TreeInv d' := by
  have hother : ∀ j, j ≠ k → d'.proc j = d.proc j := fun j hj => by
    rw [hproc, Function.update_of_ne hj]
  have hself : d'.proc k = { d.proc k with parent := some initproc } := by
    rw [hproc, Function.update_self]
  have hstate : ∀ j, (d'.proc j).state = (d.proc j).state := fun j => by
    by_cases hj : j = k
    · rw [hj, hself]
    · rw [hother j hj]
  have hsame : ∀ j, j ≠ k → (d'.proc j).parent = (d.proc j).parent := fun j hj => by
    rw [hother j hj]
  have hchild : Descends d' k := .child (by rw [hself]) .init
  refine ⟨hw, fun j q hj => ?_, ?_, fun j hj hu hm => ?_, fun j q hj => ?_⟩
  · rw [hstate]
    by_cases hjk : j = k
    · rw [hjk, hself] at hj
      rw [← Option.some.inj hj]
      exact h.init
    · rw [hother j hjk] at hj
      exact h.made j q hj
  · rw [hstate]
    exact h.init
  · rw [hstate] at hu hm
    by_cases hjk : j = k
    · exact ⟨initproc, by rw [hjk, hself]⟩
    · rw [hother j hjk]
      exact h.parent j hj hu hm
  · by_cases hjk : j = k
    · rw [hjk]
      exact hchild
    · rw [hother j hjk] at hj
      exact .relink hsame hchild (h.descends j q hj)

-- allocproc() and freeproc(): a slot that is nobody's parent has none itself now.
theorem TreeInv.reset (h : TreeInv d) {pr : Proc C}
    (hk : (d.proc k).state = .unused ∨ (d.proc k).state = .zombie) (hw : WaitInv d')
    (hproc : d'.proc = Function.update d.proc k pr)
    (hpr : pr.state = .unused ∨ pr.state = .used) (hparent : pr.parent = none) : TreeInv d' := by
  have hother : ∀ j, j ≠ k → d'.proc j = d.proc j := fun j hj => by
    rw [hproc, Function.update_of_ne hj]
  have hself : d'.proc k = pr := by rw [hproc, Function.update_self]
  have hsame : ∀ j, j ≠ k → (d'.proc j).parent = (d.proc j).parent := fun j hj => by
    rw [hother j hj]
  have hchild : ∀ j, (d.proc j).parent ≠ some k :=
    h.childless (hk.imp_right .inr)
  have hne : ∀ j q, (d'.proc j).parent = some q → j ≠ k ∧ (d.proc j).parent = some q := by
    intro j q hj
    have hjk : j ≠ k := fun hjk => by
      rw [hjk, hself, hparent] at hj
      cases hj
    exact ⟨hjk, (hsame j hjk).symm.trans hj⟩
  refine ⟨hw, fun j q hj => ?_, ?_, fun j hj hu hm => ?_, fun j q hj => ?_⟩
  · obtain ⟨-, hj⟩ := hne j q hj
    rw [hother q fun hqk => hchild j (hqk ▸ hj)]
    exact h.made j q hj
  · have hinit : initproc ≠ k := fun heq => by
      rcases hk with hk | hk
      · exact h.wait.init.1 (heq ▸ hk)
      · exact h.wait.init.2 (heq ▸ hk)
    rw [hother _ hinit]
    exact h.init
  · have hjk : j ≠ k := fun hjk => by
      rw [hjk, hself] at hu hm
      rcases hpr with hpr | hpr
      · exact hu hpr
      · exact hm hpr
    rw [hother j hjk] at hu hm ⊢
    exact h.parent j hj hu hm
  · obtain ⟨hjk, hj⟩ := hne j q hj
    exact (h.descends j q hj).avoid hsame hchild hjk

end Parents

section Step

variable {S : Services σ L C K α} {c p q : Nat} {d d' : Kernel σ L C K} {pc pc' : Pc L C K}

theorem adopted_of_update {k np : Nat} {pr : Proc C} (h : Adopted d q np)
    (hproc : d'.proc = Function.update d.proc k pr)
    (hpr : np = k → pr.parent = (d.proc k).parent ∧ pr.state = (d.proc k).state ∧
      pr.maker = (d.proc k).maker) : Adopted d' q np := by
  by_cases hk : np = k
  · obtain ⟨hparent, hstate, hmaker⟩ := hpr hk
    rw [hk] at h ⊢
    refine ⟨?_, ?_, ?_⟩ <;> rw [hproc, Function.update_self]
    · exact hparent.trans h.parent
    · exact hstate.trans h.state
    · exact hmaker.trans h.maker
  · refine ⟨?_, ?_, ?_⟩ <;> rw [hproc, Function.update_of_ne hk]
    · exact h.parent
    · exact h.state
    · exact h.maker

theorem adopted_of_proc {np : Nat} (h : Adopted d q np) (hproc : d'.proc = d.proc) :
    Adopted d' q np := by
  refine ⟨?_, ?_, ?_⟩ <;> rw [hproc]
  · exact h.parent
  · exact h.state
  · exact h.maker

variable [DecidableEq K]

-- The slot that another process is making stays as it is.
theorem Changed.adopted (hch : Changed S c p d pc d' pc') (hcpu : CpuKnows c (.run p pc) d)
    (hq : q ≠ p) {np : Nat} (h : Adopted d q np) : Adopted d' q np := by
  obtain ⟨-, -, hstate, ht⟩ := hcpu
  have hused := h.state
  have hne : ∀ {k : Nat}, (d.proc k).state ≠ .used → np ≠ k := fun hk heq => hk (heq ▸ hused)
  have hrun : (d.proc p).state = .running := hstate.trans hch.running
  have hmade : ∀ {k : Nat}, Makes d p k → np ≠ k := fun hm heq => by
    have hmaker := h.maker
    rw [heq, hm.maker] at hmaker
    exact hq (Option.some.inj hmaker).symm
  have hself : np ≠ p := hne (by simp [hrun])
  cases hch with
  | forkret | exitSelf | yieldUnlock | sleepLock | acquire | release | act =>
    exact adopted_of_proc h rfl
  | forkFail hk hl hs => exact adopted_of_update h rfl fun heq => absurd heq (hne (by simp [hs]))
  | forkAlloc hk hl hs => exact adopted_of_update h rfl fun heq => absurd heq (hne (by simp [hs]))
  | forkParent hl => exact adopted_of_update h rfl fun heq => absurd heq (hmade ht)
  | forkRun hl => exact adopted_of_update h rfl fun heq => absurd heq (hmade ht)
  | exitReparent hk hp =>
    refine adopted_of_update h rfl fun heq => ?_
    rw [← heq, h.parent] at hp
    exact absurd (Option.some.inj hp) hq
  | exitZombie => exact adopted_of_update h rfl fun heq => absurd heq hself
  | reap hk hp hl hs => exact adopted_of_update h rfl fun heq => absurd heq (hne (by simp [hs]))
  | kill hk hl hp =>
    refine adopted_of_update h rfl fun heq => ⟨rfl, ?_, rfl⟩
    rw [heq] at hused
    simp [hused]
  | yieldLock => exact adopted_of_update h rfl fun heq => absurd heq hself
  | sleepSet => exact adopted_of_update h rfl fun heq => absurd heq hself
  | sleepTidy => exact adopted_of_update h rfl fun heq => absurd heq hself
  | wake hk hc hl hs => exact adopted_of_update h rfl fun heq => absurd heq (hne (by simp [hs]))

omit [DecidableEq K] in
theorem Pc.Linked.mono (h : pc.Linked d q) (hd : ∀ np, Adopted d q np → Adopted d' q np) :
    pc.Linked d' q := by
  induction pc with
  | forkRun np pid => exact hd np h
  | yieldLock ret ih | yieldSched ret ih | yieldUnlock ret ih => exact ih h
  | _ => trivial

-- wakeup() and sleep() are not called in fork().
omit [DecidableEq K] in
theorem Wakes.linked {ch : Option (Chan C)} {ret : Pc L C K} (h : Wakes p ch ret) :
    ret.Linked d p := by
  cases h <;> trivial

omit [DecidableEq K] in
theorem Sleeps.linked {ch : Chan C} {lk : LockId K} {ret : Pc L C K} (h : Sleeps p ch lk ret) :
    ret.Linked d p := by
  cases h <;> trivial

omit [DecidableEq K] in
theorem Pc.Linked.saved (hpc : pc.saved = some pc') (h : pc.Linked d p) : pc'.Linked d p := by
  cases pc with
  | yieldSched ret =>
    cases hpc
    exact h
  | exitSched | sleepSched lk ret =>
    cases hpc
    trivial
  | _ => cases hpc

omit [DecidableEq K] in
theorem Switched.kin (h : Switched d d') : Kin d d' := by
  refine ⟨fun j => ?_, fun j hs => ?_, fun j hs => ?_, fun j hs => .inl ?_⟩ <;>
    rcases h.proc j with hj | ⟨hr, hj⟩
  · rw [hj]
  · rw [hj]
  · rw [hj] at hs
    exact hs
  · rw [hj] at hs
    cases hs
  · rw [hj]
    exact hs
  · rw [hr] at hs
    cases hs
  · rw [hj]
    exact hs
  · rw [hr] at hs
    cases hs

omit [DecidableEq K] in
theorem TreeKnows.moved (hcpu : CpuKnows c (.run p pc) d) (hinv : TreeInv d)
    (h : TreeKnows p pc d) (hm : Moved S c p d pc pc') : TreeKnows p pc' d := by
  refine ⟨h.wait.moved hcpu hinv.wait hm, ?_⟩
  cases hm with
  | wakeDone => exact Wakes.linked h.wait.formed
  | _ => trivial

theorem Changed.tree_inv (hch : Changed S c p d pc d' pc') (hcpu : CpuKnows c (.run p pc) d)
    (hinv : TreeInv d) (h : TreeKnows p pc d) (hw : WaitInv d') : TreeInv d' := by
  have hrun : (d.proc p).state = .running := hcpu.2.2.1.trans hch.running
  have hlive : (d.proc p).state ≠ .unused ∧ (d.proc p).state ≠ .used := by simp [hrun]
  have ht := hcpu.2.2.2
  cases hch with
  | forkret | exitSelf | yieldUnlock | sleepLock | acquire | release | act =>
    exact hinv.kin hw (kin_of_proc rfl)
  | forkFail hk hl hs => exact hinv.reset (.inl hs) hw rfl (.inl rfl) rfl
  | forkAlloc hk hl hs =>
    exact hinv.reset (.inl hs) hw rfl (.inr rfl) (hinv.wait.unused _ hs)
  | forkParent hl => exact hinv.adopt ht.state hrun hw rfl
  | forkRun hl =>
    rename_i np pid
    have had : Adopted d p np := h.linked
    refine hinv.kin hw (kin_of_update rfl rfl (fun hs => by cases hs) (fun hs => ?_) fun _ => ?_)
    · simp [had.state] at hs
    · exact .inr (by simp [had.parent])
  | exitReparent hk hp => exact hinv.orphan hw rfl
  | exitZombie => exact hinv.kin hw (kin_of_state rfl rfl hlive (by simp))
  | reap hk hp hl hs => exact hinv.reset (.inr hs) hw rfl (.inl rfl) rfl
  | kill hk hl hp =>
    rename_i k
    refine hinv.kin hw (kin_of_update rfl rfl (fun hs => ?_) (fun hs => ?_) fun hs => .inl ?_)
    · by_cases hsleep : (d.proc k).state = .sleeping
      · simp [hsleep] at hs
      · simpa [hsleep] using hs
    · simp [hs]
    · simp [hs]
  | yieldLock | sleepSet | sleepTidy =>
    exact hinv.kin hw (kin_of_state rfl rfl hlive (by simp [hrun]))
  | wake hk hc hl hs => exact hinv.kin hw (kin_of_state rfl rfl (by simp [hs]) (by simp))

theorem Changed.tree_linked (hch : Changed S c p d pc d' pc') (hcpu : CpuKnows c (.run p pc) d)
    (h : TreeKnows p pc d) : pc'.Linked d' p := by
  have ht := hcpu.2.2.2
  cases hch with
  | forkParent hl =>
    rename_i np pid
    have hm : Makes d p np := ht
    refine ⟨?_, ?_, ?_⟩ <;> simp only [Kernel.setProc, Function.update_self]
    · exact hm.state
    · exact hm.maker
  | acquire ha hl =>
    cases ha with
    | sleep =>
      obtain ⟨ch, hs⟩ := h.wait.formed
      exact hs.linked
    | _ => trivial
  | release hr =>
    cases hr with
    | _ => trivial
  | @yieldLock ret =>
    have hret : ret.Linked d p := h.linked
    refine hret.mono fun np hnp => adopted_of_update hnp rfl fun heq => ?_
    have hused := hnp.state
    rw [heq, hcpu.2.2.1] at hused
    cases hused
  | yieldUnlock =>
    have hret : pc'.Linked d p := h.linked
    exact hret.mono fun np hnp => adopted_of_proc hnp rfl
  | _ => trivial

theorem treeRules (S : Services σ L C K α)
    (ok : Machine (Kernel σ L C K) (CpuPc L C K) → Nat → Choice α → Prop) :
    Rules S ok TreeInv TreeKnows where
  switched hd hinv := by
    obtain ⟨hw, hknows⟩ := (waitRules S ok).switched hd hinv.wait
    refine ⟨hinv.kin hw hd.kin, fun q pc hk => ⟨hknows q pc hk.wait, hk.linked.mono fun np hnp => ?_⟩⟩
    rcases hd.proc np with hsame | ⟨hs, -⟩
    · exact ⟨hsame ▸ hnp.parent, hsame ▸ hnp.state, hsame ▸ hnp.maker⟩
    · rw [hnp.state] at hs
      cases hs
  fresh hs := ⟨(waitRules S ok).fresh hs, trivial⟩
  timer hf hk := ⟨hk.wait.timer hf, hk.linked⟩
  saved hpc hk := ⟨hk.wait.saved hpc, hk.linked.saved hpc⟩
  moved hcpu hinv hk hm := hk.moved hcpu hinv hm
  changed hs hcpu hok hpc hinv hk hch := by
    obtain ⟨hw, hown, hothers⟩ := (waitRules S ok).changed hs hcpu hok hpc hinv.wait hk.wait hch
    refine ⟨hch.tree_inv hcpu hinv hk hw, ⟨hown, hch.tree_linked hcpu hk⟩, fun q l hq hl hkq => ?_⟩
    exact ⟨hothers q l hq hl hkq.wait, hkq.linked.mono fun np => hch.adopted hcpu hq⟩

end Step

theorem boot_treeInv (data : σ) : TreeInv (boot (L := L) (C := C) (K := K) data).data := by
  have hparent : ∀ j, ((boot (L := L) (C := C) (K := K) data).data.proc j).parent = none := by
    intro j
    simp only [boot]
    split <;> rfl
  refine ⟨boot_waitInv data, fun j q hj => ?_, by simp [boot], fun j hj hu => ?_, fun j q hj => ?_⟩
  · rw [hparent j] at hj
    cases hj
  · exact absurd (by simp [boot, hj, Proc.free]) hu
  · rw [hparent j] at hj
    cases hj

-- A process that has not exited.
def Proc.live (pr : Proc C) : Prop :=
  pr.state = .runnable ∨ pr.state = .running ∨ pr.state = .sleeping

section Run

variable [DecidableEq C] [DecidableEq K] {S : Services σ L C K α} {data : σ}
  {s : Machine (Kernel σ L C K) (CpuPc L C K)}
  {ok : Machine (Kernel σ L C K) (CpuPc L C K) → Nat → Choice α → Prop}

-- In every reachable state, and so also while wait_lock is free, each process
-- other than initproc that is RUNNABLE, RUNNING, SLEEPING or ZOMBIE has a parent that
-- is RUNNABLE, RUNNING or SLEEPING, and its parent pointers lead to initproc.
theorem processes_descend_from_init (h : Machine.Reach (step S) ok (boot data) s) (k : Nat)
    (hk : k ≠ initproc) (hs : (s.data.proc k).live ∨ (s.data.proc k).state = .zombie) :
    (∃ q < NPROC, (s.data.proc k).parent = some q ∧ (s.data.proc q).live) ∧
      Descends s.data k := by
  obtain ⟨hinv, -⟩ := (treeRules S ok).reach h (boot_treeInv data)
    fun _ => ⟨.away trivial rfl rfl, trivial⟩
  have hmade : (s.data.proc k).state ≠ .unused ∧ (s.data.proc k).state ≠ .used := by
    rcases hs with (hs | hs | hs) | hs <;> simp [hs]
  obtain ⟨q, hq⟩ := hinv.parent k hk hmade.1 hmade.2
  obtain ⟨hunused, hzombie⟩ := hinv.wait.alive k q hq
  refine ⟨⟨q, ?_, hq, ?_⟩, hinv.descends k q hq⟩
  · by_contra hge
    exact hunused (hinv.wait.slots q (by omega))
  · have hused := hinv.made k q hq
    cases hstate : (s.data.proc q).state with
    | unused => exact absurd hstate hunused
    | used => exact absurd hstate hused
    | zombie => exact absurd hstate hzombie
    | runnable => exact .inl hstate
    | running => exact .inr (.inl hstate)
    | sleeping => exact .inr (.inr hstate)

end Run

-- The first process makes one, which exits.
theorem processes_descend_from_init_child :
    ∃ s : Machine (Kernel Unit Unit Unit Unit) (CpuPc Unit Unit Unit),
      Machine.Reach (step bare) (fun _ _ _ => True) (boot ()) s ∧ s.data.lock .wait = none ∧
      (s.data.proc 1).state = .zombie ∧ Descends s.data 1 := by
  have hrun : ∃ s, Machine.Reach (step bare) (fun _ _ _ => True) (boot ()) s ∧
      decide (s.data.lock .wait = none ∧ (s.data.proc 1).state = .zombie) = true :=
    Machine.Reach.exists_run (fun _ _ _ => true)
      (startInit ++ forkCall ++ [(0, .go)] ++ List.replicate 7 (1, .go) ++ [(1, .exit 5)] ++
        List.replicate 133 (1, .go)) (fun _ _ _ _ _ => trivial) (by decide +kernel)
  obtain ⟨s, hr, hlast⟩ := hrun
  obtain ⟨hl, hs⟩ := of_decide_eq_true hlast
  exact ⟨s, hr, hl, hs, (processes_descend_from_init hr 1 (by decide) (.inr hs)).2⟩

end Xv6.ProcTable
