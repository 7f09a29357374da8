import Xv6.Exec.Run

namespace Xv6.Exec

open Lib Fork

variable {p : Idx} {s s' : State} {T : Multiset Nat} {L : List (Nat × Nat)} {path : List UInt8}
  {found : Option (Fin NINODE × File)} {argv : List (List UInt8)}

-- A process and all that belongs to it, with what exec() takes for its own work.
structure Untouched (p : Idx) (s s' : State) (T : Multiset Nat) (L : List (Nat × Nat)) : Prop where
  proc : s'.kernel.proc = s.kernel.proc
  pages : ∀ pa ∈ T + leaves L + {(s.kernel.proc p).trapframe}, s'.mem.page pa = s.mem.page pa
  table : ∀ v < 0x8000000, flat s'.mem (s.kernel.proc p).pagetable v =
    flat s.mem (s.kernel.proc p).pagetable v
  memory : ∀ va < (s.kernel.proc p).sz,
    s'.mem.byte (physical s'.mem (s.kernel.proc p).pagetable va) =
      s.mem.byte (physical s.mem (s.kernel.proc p).pagetable va)
  files : s'.kernel.fileRef = s.kernel.fileRef
  inodes : s'.kernel.inodeRef = s.kernel.inodeRef
  locks : s'.locked = s.locked
  log : s'.outstanding = s.outstanding
  freed : s'.mem.freelist.Perm s.mem.freelist

theorem Ready.untouched {m : Mem} (h : Ready p s T L) (ht : ∀ X, s.mem.Trade m X X) :
    Untouched p s (s.setMem m) T L := by
  have hpages : ∀ pa ∈ T + leaves L + {(s.kernel.proc p).trapframe}, m.page pa = s.mem.page pa :=
    fun pa hpa => (ht 0).unchanged (by rw [add_zero]; exact h.owned) hpa
  have htables : ∀ pa ∈ T, m.page pa = s.mem.page pa := fun pa hpa =>
    hpages pa (Multiset.mem_add.mpr (.inl (Multiset.mem_add.mpr (.inl hpa))))
  have hmaps := h.space.space.maps
  have htable : ∀ v < 0x8000000, flat m (s.kernel.proc p).pagetable v =
      flat s.mem (s.kernel.proc p).pagetable v := fun v hv =>
    ((hmaps.congr htables).flat v hv).trans (hmaps.flat v hv).symm
  refine ⟨rfl, hpages, htable, fun va hva => ?_, rfl, rfl, rfl, rfl, ?_⟩
  · have hlt : va / PGSIZE < L.length := by
      rw [h.space.size]
      unfold PGSIZE pagesFor
      omega
    have hmem : L[va / PGSIZE] ∈ L := List.getElem_mem hlt
    have hpa : PTE2PA (flat s.mem (s.kernel.proc p).pagetable (va / PGSIZE)) =
        L[va / PGSIZE].1 := by
      rw [h.space.space.flat_eq (h.space.space.vpn_lt hlt),
        layout_user (List.getElem?_eq_getElem hlt),
        (h.space.space.allocatable hmem).PTE2PA_or (h.space.space.flags _ hmem).1]
    rw [State.mem_setMem, byte_physical, byte_physical,
      htable _ (h.space.space.vpn_lt hlt), hpa, hpages]
    exact Multiset.mem_add.mpr (.inl (Multiset.mem_add.mpr (.inr (mem_leaves hmem))))
  · have hledger := (ht 0).pool.ledger
    rw [zero_add, zero_add] at hledger
    exact Multiset.coe_eq_coe.mp hledger

-- A trapframe and a page table with one user page.
def firstPages : MemM (Option (Nat × Nat × Nat)) := do
  match ← kalloc with
  | none => return none
  | some tf => do
      match ← procPagetable tf with
      | none => return none
      | some root => do
          let r ← growproc root 0 1
          return some (tf, root, r.2)

def firstProc (tf root sz : Nat) : Proc where
  state := .running
  chan := 0
  killed := 0
  xstate := 0
  pid := 1
  parent := none
  kstack := 0
  sz := sz
  pagetable := root
  trapframe := tf
  context := ⟨0, 0, fun _ => 0⟩
  ofile := fun _ => none
  cwd := none
  name := fun _ => 0

def firstState (tf root sz : Nat) (m : Mem) : State where
  kernel := ⟨m, fun _ => firstProc tf root sz, 2, fun _ => 0, fun _ => 0⟩
  outstanding := 0
  locked := fun _ => false

theorem firstPages_ready {m : Mem} (hown : m.Owned 0) {tf root sz : Nat} {m' : Mem}
    (hrun : firstPages m = .ok (some (tf, root, sz), m')) :
    ∃ T L, Ready p (firstState tf root sz m') T L := by
  have hwp : Wp firstPages m (fun _ => False) fun r m' => ∀ tf root sz, r = some (tf, root, sz) →
      ∃ T L, Ready p (firstState tf root sz m') T L := by
    refine Wp.bind (kalloc_spec (fun m₁ _ _ _ => Wp.pure fun tf root sz hr => by cases hr)
      fun tf m₁ _ ht₁ _ => ?_)
    have htf : m₁.Owned {tf} := by
      have howned := (ht₁ 0).owned hown
      rwa [zero_add] at howned
    have hlt : tf < 0x10000000000000000 :=
      (htf.ok_held (Multiset.mem_singleton_self tf)).lt.trans (by decide)
    refine Wp.bind (procPagetable_spec (htf.mono (Multiset.zero_le _)) hlt
      (fun m₂ _ => Wp.pure fun tf root sz hr => by cases hr) fun root m₂ T h₂ ht₂ => ?_)
    rw [← (ht₂ 0).image] at h₂
    refine Wp.bind (growproc_spec ⟨h₂, rfl, 0, fun v e he => by cases he⟩
      fun m₃ r sz T₃ L₃ h₃ ht₃ => Wp.pure fun tf' root' sz' hr => ?_)
    cases hr
    refine ⟨T₃, L₃, h₃, ?_, rfl⟩
    have howned := (ht₂ _).owned htf
    rw [add_comm, ← add_zero T] at howned
    exact (ht₃.frame {tf}).owned howned
  exact hwp.ok hrun tf root sz rfl

theorem NPROC_pos : 0 < NPROC := by decide

def initproc : Idx := ⟨0, NPROC_pos⟩

theorem NINODE_pos : 0 < NINODE := by decide

def firstInode : Fin NINODE := ⟨0, NINODE_pos⟩

-- Whether the process gets an image of the file.
def builds (file : File) : Bool :=
  match firstPages (freshMem 20) with
  | .ok (some (tf, root, 1), m) =>
    match buildImage initproc (some (firstInode, file)) (firstState tf root 1 m) with
    | .ok (some _, _) => true
    | _ => false
  | _ => false

theorem builds_exec {file : File} (h : builds file = true) (argv : List (List UInt8))
    (hlen : ∀ a ∈ argv, a.length < PGSIZE) (hcount : argv.length < MAXARG) :
    ∃ s T L s', (s.kernel.proc initproc).sz = 1 ∧ Ready initproc s T L ∧
      exec initproc [] (some (firstInode, file)) argv s =
        .ok (if USERSTACK * PGSIZE < argRoom argv then -1 else argv.length, s') := by
  unfold builds at h
  split at h
  · rename_i tf root m hpages
    obtain ⟨T, L, hready⟩ := firstPages_ready (freshMem_owned (by decide)) hpages
    split at h
    · rename_i x s₁ hbuild
      have hwp : Wp (exec initproc [] (some (firstInode, file)) argv) (firstState tf root 1 m)
          (fun _ => False) fun r _ =>
            r = if USERSTACK * PGSIZE < argRoom argv then -1 else (argv.length : Int) :=
        exec_of_build hready hbuild hlen hcount (fun _ hless => (if_pos hless).symm)
          fun _ hfits => (if_neg (Nat.not_lt.mpr hfits)).symm
      obtain ⟨r, s', hrun, rfl⟩ := hwp.exists_ok
      exact ⟨_, T, L, s', rfl, hready, hrun⟩
    · cases h
  · cases h

-- An executable of one segment, whose only byte is at off.
def oneSegment (off : Nat) : File where
  bytes := words [ELF_MAGIC, 0, 0, 0, ELFHDR, 0, 0, 1, 0x500000001, off, 0, 0, 1, 1, 0]
  size_le := by
    rw [length_words]
    exact (by decide : 15 * 8 ≤ MAXFILE * BSIZE)

theorem builds_oneSegment : builds (oneSegment 0) = true := by decide +kernel

-- Whatever the file holds, exec() comes back.
theorem exec_returns (h : Ready p s T L) (path : List UInt8) (found : Option (Fin NINODE × File))
    (argv : List (List UInt8)) (hcount : argv.length < MAXARG)
    (hlen : ∀ a ∈ argv, a.length < PGSIZE) :
    ∃ r s', exec p path found argv s = .ok (r, s') ∧ (r = -1 ∨ r = argv.length) := by
  have hwp : Wp (exec p path found argv) s (fun _ => False) fun r _ => r = -1 ∨ r = argv.length :=
    exec_spec h hlen hcount (fun _ _ => .inl rfl) fun _ _ _ _ _ _ _ _ _ _ _ _ _ _ _ => .inr rfl
  exact hwp.exists_ok

theorem exec_returns_first : ∃ s T L s', Ready initproc s T L ∧
    exec initproc [] (some (firstInode, oneSegment 0)) [[104, 105]] s = .ok (1, s') ∧
    ((1 : Int) = -1 ∨ (1 : Int) = [[104, 105]].length) := by
  obtain ⟨s, T, L, s', -, hready, hrun⟩ :=
    builds_exec builds_oneSegment [[104, 105]] (by decide) (by decide)
  obtain ⟨r, s'', hrun', hr⟩ := exec_returns hready [] (some (firstInode, oneSegment 0))
    [[104, 105]] (by decide) (by decide)
  rw [hrun] at hrun'
  cases hrun'
  exact ⟨s, T, L, s', hready, hrun, hr⟩

-- A failed exec() leaves no trace.
theorem exec_atomic (h : Ready p s T L) (hcount : argv.length < MAXARG)
    (hlen : ∀ a ∈ argv, a.length < PGSIZE) (hrun : exec p path found argv s = .ok (-1, s')) :
    Untouched p s s' T L ∧ ∀ X, s.mem.Trade s'.mem X X := by
  have hwp : Wp (exec p path found argv) s (fun _ => False) fun r s' =>
      r = -1 → Untouched p s s' T L ∧ ∀ X, s.mem.Trade s'.mem X X := by
    refine exec_spec h hlen hcount (fun m ht _ => ⟨h.untouched ht, ht⟩) ?_
    intro m' T' L' ip file elf hs img root _ _ _ _ _ _ hneg
    exact absurd hneg (by omega)
  exact hwp.ok hrun rfl

-- The image is there with its stack, but the arguments have no room on it.
theorem exec_atomic_first : ∃ s T L s', (s.kernel.proc initproc).sz = 1 ∧ Ready initproc s T L ∧
    exec initproc [] (some (firstInode, oneSegment 0))
      (List.replicate 3 (List.replicate 3000 104)) s = .ok (-1, s') ∧
    Untouched initproc s s' T L := by
  have hlen : ∀ a ∈ List.replicate 3 (List.replicate 3000 (104 : UInt8)), a.length < PGSIZE := by
    intro a ha
    rw [List.eq_of_mem_replicate ha, List.length_replicate]
    decide
  obtain ⟨s, T, L, s', hsz, hready, hrun⟩ := builds_exec builds_oneSegment _ hlen (by decide)
  rw [if_pos (by decide +kernel)] at hrun
  exact ⟨s, T, L, s', hsz, hready, hrun, (exec_atomic hready (by decide) hlen hrun).1⟩

end Xv6.Exec
