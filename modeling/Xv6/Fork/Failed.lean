import Xv6.Fork
import Xv6.Vm.Isolation

namespace Xv6.Fork

open Lib

-- A slot as procinit() and freeproc() leave it. Only killed may be set afterwards, by kill(0).
structure Blank (p : Proc) : Prop where
  chan : p.chan = 0
  xstate : p.xstate = 0
  pid : p.pid = 0
  parent : p.parent = none
  sz : p.sz = 0
  pagetable : p.pagetable = 0
  trapframe : p.trapframe = 0
  name : p.name 0 = 0

-- A kernel in which process p can call fork().
structure Ready (p : Idx) (k : Kernel) : Prop where
  blank : ∀ i, (k.proc i).state = .unused → Blank (k.proc i)
  running : (k.proc p).state ≠ .unused
  space : ∃ T L, UserSpace k.mem (k.proc p).pagetable (k.proc p).sz (k.proc p).trapframe T L

-- The slot that allocproc() tries.
def firstUnused (k : Kernel) : Option Idx :=
  (List.finRange NPROC).find? fun i => decide ((k.proc i).state = .unused)

def childContext (forkret : Nat) (pr : Proc) : Context :=
  ⟨forkret, u64 (pr.kstack + PGSIZE), fun _ => 0⟩

-- Nothing but nextpid and the slot that was tried has changed, and of the slot only the
-- context, if allocproc() came to set it, and killed, which freeproc() clears.
structure Untouched (forkret : Nat) (k k' : Kernel) : Prop where
  slots : k'.proc = k.proc ∨ ∃ np, firstUnused k = some np ∧
    ∃ context ∈ [(k.proc np).context, childContext forkret (k.proc np)],
      k'.proc = Function.update k.proc np { k.proc np with killed := 0, context := context }
  files : k'.fileRef = k.fileRef
  inodes : k'.inodeRef = k.inodeRef
  mem : k.mem.Trade k'.mem 0 0

namespace Kernel

def put (k : Kernel) (i : Idx) (pr : Proc) : Kernel :=
  { k with proc := Function.update k.proc i pr }

def setMem (k : Kernel) (m : Mem) : Kernel := { k with mem := m }

@[simp] theorem put_self (k : Kernel) (i : Idx) (pr : Proc) : (k.put i pr).proc i = pr :=
  Function.update_self ..

theorem put_other (k : Kernel) {i j : Idx} (pr : Proc) (h : j ≠ i) :
    (k.put i pr).proc j = k.proc j :=
  Function.update_of_ne h ..

@[simp] theorem put_put (k : Kernel) (i : Idx) (a b : Proc) : (k.put i a).put i b = k.put i b := by
  simp [put]

@[simp] theorem put_setMem (k : Kernel) (i : Idx) (pr : Proc) (m : Mem) :
    (k.put i pr).setMem m = (k.setMem m).put i pr := rfl

@[simp] theorem put_mem (k : Kernel) (i : Idx) (pr : Proc) : (k.put i pr).mem = k.mem := rfl

@[simp] theorem setMem_mem (k : Kernel) (m : Mem) : (k.setMem m).mem = m := rfl

@[simp] theorem setMem_proc (k : Kernel) (m : Mem) : (k.setMem m).proc = k.proc := rfl

@[simp] theorem setMem_setMem (k : Kernel) (m m' : Mem) :
    (k.setMem m).setMem m' = k.setMem m' := rfl

end Kernel

variable {k : Kernel} {i p : Idx} {P : Panic → Prop} {forkret : Nat}

theorem setProc_spec {f : Proc → Proc} {Q : Unit → Kernel → Prop}
    (h : Q () (k.put i (f (k.proc i)))) : Wp (setProc i f) k P Q := h

theorem memory_spec {α : Type} {x : MemM α} {Q : α → Kernel → Prop}
    (h : Wp x k.mem P fun a m => Q a (k.setMem m)) : Wp (memory x) k P Q := Wp.zoom h

theorem freeproc_spec {Q : Unit → Kernel → Prop}
    (h : Wp (if (k.proc i).trapframe ≠ 0 then kfree (k.proc i).trapframe else pure ()) k.mem P
      fun _ m => Wp (if (k.proc i).pagetable ≠ 0 then
        procFreepagetable (k.proc i).pagetable (k.proc i).sz else pure ()) m P fun _ m' =>
          Q () ((k.setMem m').put i { (k.proc i).clear with trapframe := 0 })) :
    Wp (freeproc i) k P Q := by
  refine .bind (.get (.bind (memory_spec (h.post fun _ m h => .bind (setProc_spec (.bind
    (memory_spec (h.post fun _ m' h => setProc_spec ?_))))))))
  simpa [Proc.clear] using h

-- What allocproc() leaves of a slot.
structure Kept (pr pr' : Proc) : Prop where
  kstack : pr'.kstack = pr.kstack
  ofile : pr'.ofile = pr.ofile
  cwd : pr'.cwd = pr.cwd
  name : pr'.name = pr.name
  sz : pr'.sz = pr.sz

theorem Blank.cleared {pr pr' : Proc} (h : Blank pr) (hstate : pr.state = .unused)
    (hkept : Kept pr pr') :
    { pr'.clear with trapframe := 0 } = { pr with killed := 0, context := pr'.context } := by
  have hupdate : Function.update pr'.name 0 0 = pr.name := by
    rw [hkept.name, ← h.name, Function.update_eq_self]
  exact Proc.ext hstate.symm h.chan.symm rfl h.xstate.symm h.pid.symm h.parent.symm hkept.kstack
    h.sz.symm h.pagetable.symm h.trapframe.symm rfl hkept.ofile hkept.cwd hupdate

theorem firstUnused_state (h : firstUnused k = some i) : (k.proc i).state = .unused := by
  have htest := List.find?_some h
  exact of_decide_eq_true htest

theorem freeproc_untouched {pr : Proc} {m : Mem} {n : Int} (h : Blank (k.proc i))
    (hfirst : firstUnused k = some i) (hkept : Kept (k.proc i) pr)
    (hcontext : pr.context ∈ [(k.proc i).context, childContext forkret (k.proc i)])
    (hfree : Wp (if pr.trapframe ≠ 0 then kfree pr.trapframe else pure ()) m P fun _ m =>
      Wp (if pr.pagetable ≠ 0 then procFreepagetable pr.pagetable 0 else pure ()) m P fun _ m' =>
        k.mem.Trade m' 0 0) :
    Wp (freeproc i) ((Kernel.setMem { k with nextpid := n } m).put i pr) P fun _ k' =>
      Untouched forkret k k' ∧ (k'.proc i).context = pr.context := by
  apply freeproc_spec
  rw [Kernel.put_self, hkept.sz, h.sz]
  refine hfree.post fun _ m₁ h₁ => h₁.post fun _ m₂ hmem => ?_
  rw [Kernel.put_setMem, Kernel.setMem_setMem, Kernel.put_put]
  refine ⟨⟨.inr ⟨i, hfirst, pr.context, hcontext, ?_⟩, rfl, rfl, hmem⟩, ?_⟩
  · exact congrArg (Function.update k.proc i) (h.cleared (firstUnused_state hfirst) hkept)
  · rw [Kernel.put_self]
    rfl

-- The slot that allocproc() returns, with its trapframe and an empty page table.
structure Made (forkret : Nat) (k : Kernel) (np : Idx) (k' : Kernel) (T : Multiset Nat) : Prop where
  first : firstUnused k = some np
  kernel : ∃ m n tf root, k' = (Kernel.setMem { k with nextpid := n } m).put np
    { k.proc np with
      pid := k.nextpid, state := .used, trapframe := tf, pagetable := root
      context := childContext forkret (k.proc np) }
  trapframe : (k'.proc np).trapframe ≠ 0
  pagetable : (k'.proc np).pagetable ≠ 0
  space : Space k'.mem (k'.proc np).pagetable (kernelPages k.mem.image (k'.proc np).trapframe) T []
  trade : ∀ X, k.mem.Trade k'.mem X (X + {(k'.proc np).trapframe} + T)

theorem allocproc_spec (hown : k.mem.Owned 0)
    (hblank : ∀ i, (k.proc i).state = .unused → Blank (k.proc i)) :
    Wp (allocproc forkret) k P fun r k' =>
      (r = none → Untouched forkret k k') ∧ ∀ np, r = some np → ∃ T, Made forkret k np k' T := by
  refine .bind (.get ?_)
  cases hfind : (List.finRange NPROC).find? fun i => decide ((k.proc i).state = .unused) with
  | none =>
    exact .pure ⟨fun _ => ⟨.inl rfl, rfl, rfl, .refl⟩, nofun⟩
  | some i =>
    have hb := hblank i (firstUnused_state hfind)
    refine .bind (.bind (.get (.bind (.set (.pure (.bind (setProc_spec (.bind (memory_spec
      (kalloc_spec (fun m₁ ht₁ _ _ => ?_) fun tf m₁ hfree htake hkept => ?_))))))))))
    · -- no page for the trapframe
      refine .bind (setProc_spec (.bind ?_))
      simp only [Kernel.put_setMem, Kernel.put_self, Kernel.put_put]
      refine (freeproc_untouched hb hfind ?_ ?_ ?_).post fun _ k' hk' =>
        Wp.pure ⟨fun _ => hk'.1, nofun⟩
      · exact ⟨rfl, rfl, rfl, rfl, rfl⟩
      · exact List.mem_cons_self
      · dsimp only
        rw [if_neg (not_not.mpr rfl), hb.pagetable, if_neg (not_not.mpr rfl)]
        exact Wp.pure (Wp.pure (ht₁ 0))
    · have htf : m₁.image.Allocatable tf := ((htake 0).owned hown).ok_held (by simp)
      have htf0 : tf ≠ 0 := htf.pos.ne'
      have hown₁ : m₁.Owned 0 := ((htake 0).owned hown).left
      refine .bind (setProc_spec (.bind (memory_spec (procPagetable_spec hown₁
        (htf.lt.trans (by decide)) (fun m₂ ht₂ => ?_) fun root m₂ T h₂ ht₂ => ?_))))
      · -- no page for the page table
        refine .bind (setProc_spec (.bind ?_))
        simp only [Kernel.put_setMem, Kernel.put_self, Kernel.put_put, Kernel.setMem_setMem]
        refine (freeproc_untouched hb hfind ?_ ?_ ?_).post fun _ k' hk' =>
          Wp.pure ⟨fun _ => hk'.1, nofun⟩
        · exact ⟨rfl, rfl, rfl, rfl, rfl⟩
        · exact List.mem_cons_self
        · dsimp only
          rw [if_pos htf0, if_neg (not_not.mpr rfl)]
          refine kfree_spec (.inr ?_) fun m₃ ht₃ _ => Wp.pure ?_
          · rw [(ht₂ 0).image]
            exact htf
          · exact ((htake 0).trans (ht₂ _)).trans (ht₃ 0)
      · refine .bind (setProc_spec (.pure ⟨nofun, fun np hnp => ⟨T, ?_⟩⟩))
        cases hnp
        simp only [Kernel.put_setMem, Kernel.put_self, Kernel.put_put, Kernel.setMem_setMem]
        refine ⟨hfind, ⟨_, _, _, _, rfl⟩, ?_, ?_, ?_, ?_⟩
        · rw [Kernel.put_self]
          exact htf0
        · rw [Kernel.put_self]
          exact (h₂.owned.ok_held (Multiset.mem_add.mpr (.inl h₂.maps.root_mem))).pos.ne'
        · rw [Kernel.put_self]
          exact (htake 0).image ▸ h₂
        · rw [Kernel.put_self]
          exact fun X => (htake X).trans (ht₂ _)

theorem Made.giveUp {np : Idx} {k' : Kernel} {T T' : Multiset Nat} {m : Mem}
    (h : Made forkret k np k' T) (hown : k.mem.Owned 0) (hb : Blank (k.proc np))
    (hspace : Space m (k'.proc np).pagetable (kernelPages k.mem.image (k'.proc np).trapframe) T' [])
    (htrade : k'.mem.Trade m T T') :
    Wp (freeproc np) (k'.setMem m) P fun _ k' =>
      Untouched forkret k k' ∧ (k'.proc np).context.ra = forkret := by
  obtain ⟨m₁, n, tf, root, rfl⟩ := h.kernel
  have htf := h.trapframe
  have hpt := h.pagetable
  have hall := (h.trade 0).trans (htrade.frame_left _)
  rw [Kernel.put_self] at htf hpt hspace hall
  rw [zero_add] at hall
  have hown' : m.Owned ({tf} + T') := hall.owned hown
  rw [Kernel.put_setMem, Kernel.setMem_setMem]
  refine (freeproc_untouched hb h.first ?_ ?_ ?_).post fun _ k' hk' =>
    ⟨hk'.1, congrArg Context.ra hk'.2⟩
  · exact ⟨rfl, rfl, rfl, rfl, rfl⟩
  · exact List.mem_cons_of_mem _ List.mem_cons_self
  rw [if_pos htf, if_pos hpt]
  refine kfree_spec (.inr (hown'.ok_held (by simp))) fun m₂ ht₂ _ => ?_
  have hspace₂ := hspace.frame (ht₂ 0) (by simpa [add_comm] using hown')
  refine procFreepagetable_spec hspace₂ rfl fun m₃ ht₃ => ?_
  rw [leaves_nil, add_zero] at ht₃
  rw [add_comm] at hall
  exact (hall.trans (ht₂ T')).trans ht₃

theorem forkChild_returns {np : Idx} :
    Wp (forkChild p np) k (fun _ => True) fun r _ => r = (k.proc np).pid := by
  refine .bind (.get (.bind (setProc_spec (.bind (Wp.any.post fun _ k₁ _ => ?_)))))
  refine .bind (Wp.any.post fun _ k₂ _ => ?_)
  cases (k.proc p).cwd with
  | none => exact .throw trivial
  | some i =>
    refine .bind (Wp.any.post fun _ k₃ _ => .bind (setProc_spec (.bind (setProc_spec ?_))))
    exact .pure rfl

theorem Made.pid {np : Idx} {k' : Kernel} {T : Multiset Nat} (h : Made forkret k np k' T) :
    (k'.proc np).pid = k.nextpid := by
  obtain ⟨m, n, tf, root, rfl⟩ := h.kernel
  rw [Kernel.put_self]

theorem Made.other {np i : Idx} {k' : Kernel} {T : Multiset Nat} (h : Made forkret k np k' T)
    (hi : (k.proc i).state ≠ .unused) : k'.proc i = k.proc i := by
  obtain ⟨m, n, tf, root, rfl⟩ := h.kernel
  have hne : i ≠ np := by
    rintro rfl
    exact hi (firstUnused_state h.first)
  exact Kernel.put_other _ _ hne

theorem Made.uvmcopy_spec {np : Idx} {k' : Kernel} {T : Multiset Nat} (h : Ready p k)
    (hmade : Made forkret k np k' T) :
    Wp (uvmcopy (k'.proc p).pagetable (k'.proc np).pagetable (k'.proc p).sz) k'.mem P fun r m =>
      r = 0 ∨ r = -1 ∧ ∃ T', k'.mem.Trade m T T' ∧ Space m (k'.proc np).pagetable
        (kernelPages k.mem.image (k'.proc np).trapframe) T' [] := by
  obtain ⟨To, Lo, hold⟩ := h.space
  have hown := hold.space.owned
  have hown' := (hmade.trade _).owned hown
  have hold' := hold.frame (hmade.trade 0) (by rwa [add_zero])
  rw [hmade.other h.running]
  refine Xv6.uvmcopy_spec hold'.space hmade.space High.kernelPages (hown'.mono ?_) hold'.size
    (fun m T' h' ht' _ => .inr ⟨rfl, T', ht', h'⟩) fun _ _ _ _ _ _ => .inl rfl
  exact add_le_add_left (Multiset.le_add_right _ _) T

theorem Ready.owned (h : Ready p k) : k.mem.Owned 0 := by
  obtain ⟨T, L, hspace⟩ := h.space
  exact hspace.space.owned.mono (Multiset.zero_le _)

theorem fork_untouched (h : Ready p k) (hpid : k.nextpid ≠ -1) :
    Wp (fork forkret p) k (fun _ => True) fun r k' => r = -1 → Untouched forkret k k' := by
  refine .bind ((allocproc_spec h.owned h.blank).post fun r k' hr => ?_)
  cases r with
  | none => exact .pure fun _ => hr.1 rfl
  | some np =>
    obtain ⟨T, hmade⟩ := hr.2 np rfl
    refine .bind (.get (.bind (memory_spec ((hmade.uvmcopy_spec h).post fun r m hr => ?_))))
    obtain rfl | ⟨rfl, T', htrade, hspace⟩ := hr
    · rw [if_neg (by decide)]
      refine forkChild_returns.post fun r k'' hr hneg => absurd ?_ hpid
      rw [← hmade.pid, ← hneg]
      exact hr.symm
    · rw [if_pos (by decide)]
      exact .bind ((hmade.giveUp h.owned (h.blank np (firstUnused_state hmade.first)) hspace htrade).post
        fun _ k'' hk'' => Wp.pure fun _ => hk''.1)

theorem fork_uvmcopy_fails {np : Idx} {k₁ : Kernel} {m : Mem} (h : Ready p k)
    (halloc : allocproc forkret k = .ok (some np, k₁))
    (hcopy : uvmcopy (k₁.proc p).pagetable (k₁.proc np).pagetable (k₁.proc p).sz k₁.mem =
      .ok (-1, m)) :
    ∃ k', fork forkret p k = .ok (-1, k') ∧ (k'.proc np).context.ra = forkret := by
  obtain ⟨T, hmade⟩ :=
    ((@allocproc_spec k (fun _ => True) forkret h.owned h.blank).ok halloc).2 np rfl
  have hr := (@Made.uvmcopy_spec k p (fun _ => True) forkret np k₁ T h hmade).ok hcopy
  obtain ⟨-, T', htrade, hspace⟩ := hr.resolve_left (by decide)
  have hgive := @Made.giveUp k (fun _ => False) forkret np k₁ T T' m hmade h.owned
    (h.blank np (firstUnused_state hmade.first)) hspace htrade
  obtain ⟨_, k', hfree, -, hra⟩ := hgive.exists_ok
  have hmemory : memory (uvmcopy (k₁.proc p).pagetable (k₁.proc np).pagetable (k₁.proc p).sz) k₁ =
      .ok (-1, k₁.setMem m) := by
    rw [memory, Fallible.zoom, hcopy]
    rfl
  refine ⟨k', ?_, hra⟩
  calc fork forkret p k
    _ = _ := Fallible.bind_ok halloc
    _ = _ := Fallible.bind_ok rfl
    _ = _ := Fallible.bind_ok hmemory
    _ = (freeproc np >>= fun _ => pure (-1)) (k₁.setMem m) := congrFun (if_pos (by decide)) _
    _ = .ok (-1, k') := Fallible.bind_ok hfree

-- The pages that were not free are as they were, those of the parent among them.
theorem failed_fork_restores {k' : Kernel} (h : Ready p k) (hpid : k.nextpid ≠ -1)
    (hrun : fork forkret p k = .ok (-1, k')) :
    Untouched forkret k k' ∧ (k'.mem.freelist : Multiset Nat) = k.mem.freelist ∧
      ∀ pa, pa ∉ k.mem.freelist → k'.mem.page pa = k.mem.page pa := by
  have hk' : Untouched forkret k k' := (fork_untouched h hpid).ok hrun rfl
  refine ⟨hk', ?_, fun pa hpa => hk'.mem.pool.cell pa ?_⟩
  · have hledger := hk'.mem.pool.ledger
    rwa [zero_add, zero_add] at hledger
  · rw [zero_add]
    exact hpa

-- A user table of one page, and its size.
def sampleProcess : MemM (Option (Nat × Nat)) := do
  match ← procPagetable 0x80022000 with
  | none => return none
  | some root => do
      let r ← growproc root 0 1
      return some (root, r.2)

def unusedProc : Proc where
  state := .unused
  chan := 0
  killed := 0
  xstate := 0
  pid := 0
  parent := none
  kstack := 0x3fffffd000
  sz := 0
  pagetable := 0
  trapframe := 0
  context := ⟨0, 0, fun _ => 0⟩
  ofile := fun _ => none
  cwd := none
  name := fun _ => 0

def slot0 : Idx := ⟨0, by decide⟩

def slot1 : Idx := ⟨1, by decide⟩

-- Process 1 runs in slot 0 with this memory, and the other slots have never been used.
def sampleKernel (root sz : Nat) (m : Mem) : Kernel where
  mem := m
  proc := fun i => if i = slot0 then
    { unusedProc with state := .running, pid := 1, pagetable := root, sz := sz, trapframe := 0x80022000 }
    else unusedProc
  nextpid := 2
  fileRef := fun _ => 0
  inodeRef := fun _ => 0

-- Of ten pages six are the parent's and four are for the child, too few by the page that
-- uvmcopy() asks for.
def fullKernel : Option Kernel :=
  match sampleProcess (freshMem 10) with
  | .ok (some (root, sz), m) => some (sampleKernel root sz m)
  | _ => none

theorem sampleProcess_spec {m : Mem} (hown : m.Owned 0) :
    Wp sampleProcess m P fun r m' => ∀ root sz, r = some (root, sz) →
      ∃ T L, UserSpace m' root sz 0x80022000 T L := by
  refine Wp.bind (procPagetable_spec hown (by decide) (fun _ _ => Wp.pure nofun)
    fun root m₁ T₁ h₁ ht₁ => ?_)
  rw [← (ht₁ 0).image] at h₁
  refine Wp.bind (growproc_spec ⟨h₁, rfl, 0, fun v e he => by cases he⟩
    fun m₂ r sz T₂ L₂ h₂ ht₂ => Wp.pure fun root' sz' hr => ?_)
  cases hr
  exact ⟨T₂, L₂, h₂⟩

theorem fullKernel_ready (hk : fullKernel = some k) :
    Ready slot0 k ∧ k.nextpid = 2 ∧ (k.proc slot1).context.ra = 0 := by
  obtain ⟨r, m, hrun, hspec⟩ :=
    (@sampleProcess_spec (fun _ => False) (freshMem 10) (freshMem_owned (by decide))).exists_ok
  rw [fullKernel, hrun] at hk
  cases r with
  | none => cases hk
  | some p =>
    cases hk
    refine ⟨⟨fun i hi => ?_, nofun, hspec p.1 p.2 rfl⟩, rfl, rfl⟩
    by_cases h0 : i = slot0
    · subst h0
      cases hi
    · show Blank (if i = slot0 then _ else _)
      rw [if_neg h0]
      exact ⟨rfl, rfl, rfl, rfl, rfl, rfl, rfl, rfl⟩

-- The slot of allocproc() and the answer of uvmcopy() to it.
def copied (k : Kernel) : Option (Idx × Int) :=
  match allocproc 0x80001000 k with
  | .ok (some np, k₁) =>
    match uvmcopy (k₁.proc slot0).pagetable (k₁.proc np).pagetable (k₁.proc slot0).sz k₁.mem with
    | .ok (r, _) => some (np, r)
    | .error _ => none
  | _ => none

theorem fullKernel_fork : ∃ k k', Ready slot0 k ∧ k.nextpid = 2 ∧
    (k.proc slot1).context.ra = 0 ∧ fork 0x80001000 slot0 k = .ok (-1, k') ∧
    (k'.proc slot1).context.ra = 0x80001000 := by
  have hrun : fullKernel.bind copied = some (slot1, -1) := by decide +kernel
  obtain ⟨k, hk, hcopied⟩ := Option.bind_eq_some_iff.mp hrun
  obtain ⟨hready, hpid, hcontext⟩ := fullKernel_ready hk
  unfold copied at hcopied
  split at hcopied
  · rename_i np k₁ halloc
    split at hcopied
    · rename_i r m hcopy
      cases hcopied
      obtain ⟨k', hfork, hra⟩ := fork_uvmcopy_fails hready halloc hcopy
      exact ⟨k, k', hready, hpid, hcontext, hfork, hra⟩
    · cases hcopied
  · cases hcopied

theorem failed_fork_restores_full : ∃ k k' : Kernel, Ready slot0 k ∧ k.nextpid ≠ -1 ∧
    fork 0x80001000 slot0 k = .ok (-1, k') ∧ Untouched 0x80001000 k k' ∧
    (k'.mem.freelist : Multiset Nat) = k.mem.freelist := by
  obtain ⟨k, k', hready, hnext, -, hrun, -⟩ := fullKernel_fork
  have hpid : k.nextpid ≠ -1 := by
    rw [hnext]
    decide
  obtain ⟨hsame, hfree, -⟩ := failed_fork_restores hready hpid hrun
  exact ⟨k, k', hready, hpid, hrun, hsame, hfree⟩

theorem failed_fork_leaves_context : ∃ k k' : Kernel, Ready slot0 k ∧ k.nextpid = 2 ∧
    fork 0x80001000 slot0 k = .ok (-1, k') ∧ (k.proc slot1).context.ra = 0 ∧
    (k'.proc slot1).context.ra = 0x80001000 := by
  obtain ⟨k, k', hready, hpid, hcontext, hrun, hra⟩ := fullKernel_fork
  exact ⟨k, k', hready, hpid, hrun, hcontext, hra⟩

end Xv6.Fork
