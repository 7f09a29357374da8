import Xv6.Vm.Proc

namespace Xv6

open Lib

-- The byte that a process with the page table at root reads at va.
def userByte (m : Mem) (root va : Nat) : Option UInt8 :=
  if va < MAXVA ∧ flat m root (va / PGSIZE) &&& PTE_V ≠ 0 ∧
      flat m root (va / PGSIZE) &&& PTE_U ≠ 0 then
    some ((m.page (PTE2PA (flat m root (va / PGSIZE)))).byte (va % PGSIZE))
  else none

-- What the kernel does with the memory of one of two processes.
inductive UserOp
  | copyout (dstva : Nat) (src : List UInt8)
  | copyin (srcva len : Nat)
  | growproc (n : Int)

-- Parent (false) and child (true).
structure Family where
  mem : Mem
  sz : Bool → Nat

namespace Family

def step (root : Bool → Nat) (who : Bool) : UserOp → Family → Except Panic Family
  | .copyout dstva src, s => do
      let r ← copyout (root who) dstva src s.mem
      return { s with mem := r.2 }
  | .copyin srcva len, s => do
      let r ← copyin (root who) srcva len s.mem
      return { s with mem := r.2 }
  | .growproc n, s => do
      let r ← growproc (root who) (s.sz who) n s.mem
      return ⟨r.2, Function.update s.sz who r.1.2⟩

def run (root : Bool → Nat) : List (Bool × UserOp) → Family → Except Panic Family
  | [], s => .ok s
  | (who, op) :: rest, s => do
      let t ← s.step root who op
      run root rest t

-- Two address spaces without a page in common.
structure Apart (root tf : Bool → Nat) (s : Family) (T : Bool → Multiset Nat)
    (L : Bool → List (Nat × Nat)) : Prop where
  space : ∀ b, UserSpace s.mem (root b) (s.sz b) (tf b) (T b) (L b)
  owned : ∀ b, s.mem.Owned (T (!b) + leaves (L (!b)) + (T b + leaves (L b)))

end Family

variable {m m' : Mem} {root sz tf : Nat} {T X Y : Multiset Nat} {L : List (Nat × Nat)}

theorem UserSpace.flat_eq (h : UserSpace m root sz tf T L) {v : Nat} (hv : v < 0x8000000) :
    flat m root v = layout (kernelPages m.image tf) L v := h.space.maps.flat v hv

theorem UserSpace.userByte_eq (h : UserSpace m root sz tf T L)
    (hpage : ∀ p ∈ T + leaves L, m'.page p = m.page p) (va : Nat) :
    userByte m' root va = userByte m root va := by
  have hmaps := h.space.maps.congr fun p hp => hpage p (Multiset.mem_add.mpr (.inl hp))
  by_cases hva : va < MAXVA
  · have hv := vpn_lt hva
    have hflat : flat m' root (va / PGSIZE) = flat m root (va / PGSIZE) :=
      (hmaps.flat _ hv).trans (h.space.maps.flat _ hv).symm
    rw [userByte, userByte, hflat]
    by_cases hU : flat m root (va / PGSIZE) &&& PTE_U ≠ 0
    · have hflat' : flat m root (va / PGSIZE) = _ := h.flat_eq hv
      rw [hflat'] at hU ⊢
      obtain ⟨e, he, hpa⟩ := h.space.user_page NoUser.kernelPages hU
      have hmem := mem_leaves (List.mem_of_getElem? he)
      rw [hpa, hpage e.1 (Multiset.mem_add.mpr (.inr hmem))]
    · rw [if_neg fun h => hU h.2.2, if_neg fun h => hU h.2.2]
  · rw [userByte, userByte, if_neg fun h => hva h.1, if_neg fun h => hva h.1]

theorem UserSpace.frame (h : UserSpace m root sz tf T L) (ht : m.Trade m' X Y)
    (hown : m.Owned (T + leaves L + X)) : UserSpace m' root sz tf T L := by
  refine ⟨?_, h.size, h.guard⟩
  rw [ht.image]
  exact h.space.frame ht hown

theorem copyout_user {P : Panic → Prop} {dstva : Nat} {src : List UInt8}
    (h : UserSpace m root sz tf T L) : Wp (copyout root dstva src) m P fun _ m' =>
      UserSpace m' root sz tf T L ∧ m.Trade m' (T + leaves L) (T + leaves L) := by
  refine copyoutLoop_spec h.space NoUser.kernelPages fun _ m' h' ht' => ?_
  refine ⟨⟨?_, h.size, h.guard⟩, ht'.frame_left T⟩
  rwa [ht'.image]

theorem growproc_user {P : Panic → Prop} {n : Int} (h : UserSpace m root sz tf T L) :
    Wp (growproc root sz n) m P fun r m' => ∃ T' L', UserSpace m' root r.2 tf T' L' ∧
      m.Trade m' (T + leaves L) (T' + leaves L') :=
  growproc_spec h fun _ _ _ T' L' h' ht' => ⟨T', L', h', ht'⟩

namespace Family

variable {root tf : Bool → Nat} {s : Family} {T : Bool → Multiset Nat}
  {L : Bool → List (Nat × Nat)} {who : Bool}

theorem Apart.moved {m' : Mem} {sz' : Nat} {T' : Multiset Nat} {L' : List (Nat × Nat)}
    (h : Apart root tf s T L) (hspace : UserSpace m' (root who) sz' (tf who) T' L')
    (ht : s.mem.Trade m' (T who + leaves (L who)) (T' + leaves L')) :
    Apart root tf ⟨m', Function.update s.sz who sz'⟩ (Function.update T who T')
      (Function.update L who L') ∧
    ∀ va, userByte m' (root (!who)) va = userByte s.mem (root (!who)) va := by
  have hne : (!who) ≠ who := by cases who <;> decide
  have hother := (h.space (!who)).frame ht (h.owned who)
  have hown := (ht.frame_left _).owned (h.owned who)
  refine ⟨⟨fun b => ?_, fun b => ?_⟩, (h.space (!who)).userByte_eq fun p hp =>
    ht.unchanged (h.owned who) hp⟩
  · by_cases hb : b = who
    · subst hb
      simpa only [Function.update_self] using hspace
    · have hb' : b = !who := by cases b <;> cases who <;> simp_all
      subst hb'
      simpa only [Function.update_of_ne hne] using hother
  · by_cases hb : b = who
    · subst hb
      simpa only [Function.update_self, Function.update_of_ne hne] using hown
    · have hb' : b = !who := by cases b <;> cases who <;> simp_all
      subst hb'
      rw [Bool.not_not]
      simp only [Function.update_self, Function.update_of_ne hne]
      rwa [add_comm]

theorem Apart.step (h : Apart root tf s T L) (who : Bool) (op : UserOp) :
    ∃ t T' L', s.step root who op = .ok t ∧ Apart root tf t T' L' ∧
      ∀ va, userByte t.mem (root (!who)) va = userByte s.mem (root (!who)) va := by
  cases op with
  | copyout dstva src =>
    obtain ⟨r, m', hrun, hspace, ht⟩ := (copyout_user (h.space who)).exists_ok
    obtain ⟨hapart, hview⟩ := h.moved hspace ht
    rw [Function.update_eq_self] at hapart
    refine ⟨_, _, _, ?_, hapart, hview⟩
    rw [Family.step, hrun]
    rfl
  | copyin srcva len =>
    obtain ⟨r, m', hrun, rfl⟩ := (copyinLoop_spec (h.space who).space.maps).exists_ok
    refine ⟨s, T, L, ?_, h, fun _ => rfl⟩
    rw [Family.step, copyin, hrun]
    rfl
  | growproc n =>
    obtain ⟨r, m', hrun, T', L', hspace, ht⟩ := (growproc_user (h.space who)).exists_ok
    obtain ⟨hapart, hview⟩ := h.moved hspace ht
    refine ⟨_, _, _, ?_, hapart, hview⟩
    rw [Family.step, hrun]
    rfl

theorem Apart.run (h : Apart root tf s T L) (ops : List (Bool × UserOp)) :
    ∃ t T' L', s.run root ops = .ok t ∧ Apart root tf t T' L' ∧
      ∀ who, (∀ o ∈ ops, o.1 = who) →
        ∀ va, userByte t.mem (root (!who)) va = userByte s.mem (root (!who)) va := by
  induction ops generalizing s T L with
  | nil => exact ⟨s, T, L, rfl, h, fun _ _ _ => rfl⟩
  | cons o ops ih =>
    obtain ⟨t, T₁, L₁, hstep, ht, hview⟩ := h.step o.1 o.2
    obtain ⟨u, T₂, L₂, hrun, hu, hviews⟩ := ih ht
    refine ⟨u, T₂, L₂, ?_, hu, fun who hall va => ?_⟩
    · rw [Family.run, hstep]
      exact hrun
    · have hwho := hall o List.mem_cons_self
      subst hwho
      rw [hviews o.1 (fun o' ho' => hall o' (List.mem_cons_of_mem _ ho')) va, hview va]

end Family

theorem UserSpace.of_copied {new tf' : Nat} {T' : Multiset Nat} {L' : List (Nat × Nat)}
    (h : UserSpace m root sz tf T L) (hcopy : Copied m' L L')
    (hspace : Space m' new (kernelPages m'.image tf') T' L') :
    UserSpace m' new sz tf' T' L' := by
  have hlen := List.Forall₂.length_eq hcopy
  refine ⟨hspace, by rw [← hlen, h.size], ?_⟩
  obtain ⟨g, hg⟩ := h.guard
  refine ⟨g, fun v e' he' hv => ?_⟩
  have hlt : v < L.length := by
    rw [hlen]
    exact (List.getElem?_eq_some_iff.mp he').1
  obtain ⟨e'', he'', hflags, -⟩ := hcopy.get (List.getElem?_eq_getElem hlt)
  rw [he'] at he''
  cases he''
  rw [hflags]
  exact hg v _ (List.getElem?_eq_getElem hlt) hv

theorem UserSpace.entry (h : UserSpace m root sz tf T L) {v : Nat} {e : Nat × Nat}
    (he : L[v]? = some e) : flat m root v = PA2PTE e.1 ||| e.2 ∧
      PTE2PA (flat m root v) = e.1 ∧ PTE_FLAGS (flat m root v) = e.2 := by
  have hmem := List.mem_of_getElem? he
  have hlt := (List.getElem?_eq_some_iff.mp he).1
  have hlen := h.space.length_le
  rw [NPAGES_eq] at hlen
  have hflat : flat m root v = PA2PTE e.1 ||| e.2 := by
    rw [h.flat_eq (by omega), layout_user he]
  have hfl := (h.space.flags e hmem).1
  exact ⟨hflat, by rw [hflat, (h.space.allocatable hmem).PTE2PA_or hfl],
    by rw [hflat, PTE_FLAGS_or _ hfl]⟩

theorem uvmcopy_copies_and_isolates (m : Mem) (old new sz tfO tfN : Nat) (To Tn : Multiset Nat)
    (Lo : List (Nat × Nat)) (hO : UserSpace m old sz tfO To Lo)
    (hN : Space m new (kernelPages m.image tfN) Tn []) (hown : m.Owned (To + leaves Lo + Tn)) :
    ∃ r m', uvmcopy old new sz m = .ok (r, m') ∧
      (∀ v < 0x8000000, flat m' old v = flat m old v) ∧
      (∀ v < pagesFor sz, m'.page (PTE2PA (flat m' old v)) = m.page (PTE2PA (flat m old v))) ∧
      (r = 0 ∧
        (∀ v < pagesFor sz, PTE_FLAGS (flat m' new v) = PTE_FLAGS (flat m old v) ∧
          m'.page (PTE2PA (flat m' new v)) = m.page (PTE2PA (flat m old v))) ∧
        (∀ v < 0x8000000, pagesFor sz ≤ v → flat m' new v = kernelPages m.image tfN v) ∧
        (∀ ops, ∃ s, Family.run (fun b => bif b then new else old) ops ⟨m', fun _ => sz⟩ = .ok s ∧
          (∀ who, (∀ o ∈ ops, o.1 = who) → ∀ va,
            userByte s.mem (bif !who then new else old) va =
              userByte m' (bif !who then new else old) va) ∧
          ∀ who op, ∃ t, s.step (fun b => bif b then new else old) who op = .ok t ∧ ∀ va,
            userByte t.mem (bif !who then new else old) va =
              userByte s.mem (bif !who then new else old) va) ∨
      r = -1 ∧
        (∀ v < 0x8000000, flat m' new v = kernelPages m.image tfN v) ∧
        (ptes.tables m'.load 2 new + m'.freelist : Multiset Nat) = Tn + m.freelist ∧
        m.Short (3 * pagesFor sz)) := by
  have hspec : Wp (uvmcopy old new sz) m (fun _ => False) fun r m' =>
      (r = 0 ∧ ∃ T' L', Space m' new (kernelPages m.image tfN) T' L' ∧ Copied m' Lo L' ∧
        m.Trade m' Tn (T' + leaves L')) ∨
      (r = -1 ∧ m.Short (3 * pagesFor sz) ∧
        ∃ T', Space m' new (kernelPages m.image tfN) T' [] ∧ m.Trade m' Tn T') :=
    uvmcopy_spec hO.space hN High.kernelPages hown hO.size
      (fun m' T' h' ht' hs => .inr ⟨rfl, hO.size ▸ hs, T', h', ht'⟩)
      fun m' T' L' h' hcopy ht' => .inl ⟨rfl, T', L', h', hcopy, ht'⟩
  obtain ⟨r, m', hrun, hcases⟩ := hspec.exists_ok
  refine ⟨r, m', hrun, ?_⟩
  -- in both cases only pages of the child and free ones have been written
  have hparent : ∀ Y, m.Trade m' Tn Y → UserSpace m' old sz tfO To Lo ∧
      (∀ v < 0x8000000, flat m' old v = flat m old v) ∧
      ∀ v < pagesFor sz, m'.page (PTE2PA (flat m' old v)) = m.page (PTE2PA (flat m old v)) := by
    intro Y ht
    have hO' := hO.frame ht hown
    have hflat : ∀ v < 0x8000000, flat m' old v = flat m old v := by
      intro v hv
      rw [hO'.flat_eq hv, hO.flat_eq hv, ht.image]
    refine ⟨hO', hflat, fun v hv => ?_⟩
    have he := List.getElem?_eq_getElem (hO.size ▸ hv : v < Lo.length)
    rw [(hO'.entry he).2.1, (hO.entry he).2.1]
    exact ht.unchanged hown (Multiset.mem_add.mpr (.inr (mem_leaves (List.mem_of_getElem? he))))
  obtain ⟨hr, T', L', hspace, hcopy, ht⟩ | ⟨hr, hs, T', hspace, ht⟩ := hcases
  · obtain ⟨hO', hflat, hbytes⟩ := hparent _ ht
    have hN' : UserSpace m' new sz tfN T' L' :=
      hO.of_copied hcopy (by rw [ht.image]; exact hspace)
    have hlen : L'.length = pagesFor sz := hN'.size
    refine ⟨hflat, hbytes, .inl ⟨hr, fun v hv => ?_, fun v hlt hv => ?_, fun ops => ?_⟩⟩
    · have he := List.getElem?_eq_getElem (hO.size ▸ hv : v < Lo.length)
      obtain ⟨e', he', hfl, hpage⟩ := hcopy.get he
      obtain ⟨-, hpa', hfl'⟩ := hN'.entry he'
      obtain ⟨-, hpa, hfl₀⟩ := hO.entry he
      rw [hfl', hpa', hfl₀, hpa, hpage]
      refine ⟨hfl, ?_⟩
      exact ht.unchanged hown
        (Multiset.mem_add.mpr (.inr (mem_leaves (List.mem_of_getElem? he))))
    · rw [hN'.flat_eq hlt, layout_above (by omega), ht.image]
    · have hown' := (ht.frame_left _).owned hown
      have hapart : Family.Apart (fun b => bif b then new else old)
          (fun b => bif b then tfN else tfO) ⟨m', fun _ => sz⟩ (fun b => bif b then T' else To)
          (fun b => bif b then L' else Lo) := by
        refine ⟨fun b => ?_, fun b => ?_⟩
        · cases b
          · exact hO'
          · exact hN'
        · cases b
          · have hswap := hown'
            rw [add_comm] at hswap
            exact hswap
          · exact hown'
      obtain ⟨s, T₁, L₁, hrun', hs, hviews⟩ := hapart.run ops
      refine ⟨s, hrun', hviews, fun who op => ?_⟩
      obtain ⟨t, _, _, hstep, -, hview⟩ := hs.step who op
      exact ⟨t, hstep, hview⟩
  · obtain ⟨-, hflat, hbytes⟩ := hparent _ ht
    refine ⟨hflat, hbytes, .inr ⟨hr, fun v hv => ?_, ?_, hs⟩⟩
    · exact hspace.maps.flat v hv
    · rw [hspace.maps.tables]
      exact ht.pool.ledger

-- A table with one user page and a new one.
def sampleTables : MemM (Option (Nat × Nat × Nat)) := do
  match ← procPagetable 0x80022000 with
  | none => return none
  | some old => do
      let r ← growproc old 0 1
      match ← procPagetable 0x80023000 with
      | none => return none
      | some new => return some (old, new, r.2)

theorem sampleTables_spec {P : Panic → Prop} (hown : m.Owned 0) :
    Wp sampleTables m P fun r m' => ∀ p, r = some p → ∃ To Tn Lo,
      UserSpace m' p.1 p.2.2 0x80022000 To Lo ∧
      Space m' p.2.1 (kernelPages m'.image 0x80023000) Tn [] ∧ m'.Owned (To + leaves Lo + Tn) := by
  refine Wp.bind (procPagetable_spec hown (by decide)
    (fun _ _ => Wp.pure fun p hp => by cases hp) fun old m₁ T₁ h₁ ht₁ => ?_)
  rw [← (ht₁ 0).image] at h₁
  refine Wp.bind (growproc_spec ⟨h₁, rfl, 0, fun v e he => by cases he⟩
    fun m₂ r sz T₂ L₂ h₂ ht₂ => ?_)
  refine Wp.bind (procPagetable_spec (h₂.space.owned.mono (Multiset.zero_le _)) (by decide)
    (fun _ _ => Wp.pure fun p hp => by cases hp) fun new m₃ T₃ h₃ ht₃ => Wp.pure fun p hp => ?_)
  cases hp
  rw [← (ht₃ 0).image] at h₃
  refine ⟨T₂, T₃, L₂, h₂.frame (ht₃ 0) ?_, h₃, (ht₃ _).owned h₂.space.owned⟩
  rw [add_zero]
  exact h₂.space.owned

-- Zeroed memory with n free pages.
def freshMem (n : Nat) : Mem where
  image := sampleImage
  pool := ⟨fun _ => .fill 0, (List.range n).map fun i => 0x80024000 + i * 4096⟩
  deny := []

theorem freshMem_owned {n : Nat} (hn : n ≤ 100) : (freshMem n).Owned 0 := by
  refine ⟨?_, fun p hp => ?_⟩
  · rw [zero_add, Multiset.coe_nodup]
    exact List.nodup_range.map fun i j hij => by simpa using hij
  · rw [zero_add, Multiset.mem_coe] at hp
    obtain ⟨i, hi, rfl⟩ := List.mem_map.mp hp
    have hlt := List.mem_range.mp hi
    unfold KernelImage.Allocatable PGSIZE PHYSTOP
    refine ⟨by omega, ?_, by simp only [KERNBASE]; omega⟩
    show 0x80022000 ≤ 0x80024000 + i * 4096
    omega

theorem sampleTables_some (good : Nat → Mem → Bool) (hown : m.Owned 0)
    (hrun : (match sampleTables m with
      | .ok (some p, m') => decide (p.2.2 = 1 ∧ good p.1 m')
      | _ => false) = true) :
    ∃ m' old new To Tn Lo, good old m' = true ∧ UserSpace m' old 1 0x80022000 To Lo ∧
      Space m' new (kernelPages m'.image 0x80023000) Tn [] ∧ m'.Owned (To + leaves Lo + Tn) := by
  obtain ⟨r, m', hm, hspec⟩ := (sampleTables_spec (P := fun _ => False) hown).exists_ok
  rw [hm] at hrun
  cases r with
  | none => cases hrun
  | some p =>
    obtain ⟨hsz, hs⟩ := of_decide_eq_true hrun
    obtain ⟨To, Tn, Lo, hfacts⟩ := hspec p rfl
    rw [hsz] at hfacts
    exact ⟨m', p.1, p.2.1, To, Tn, Lo, hs, hfacts⟩

theorem uvmcopy_copies_and_isolates_sample : ∃ m old new tfO tfN To Tn Lo,
    UserSpace m old 1 tfO To Lo ∧ Space m new (kernelPages m.image tfN) Tn [] ∧
    m.Owned (To + leaves Lo + Tn) ∧
    ∃ m', uvmcopy old new 1 m = .ok (0, m') ∧
      (∀ v < 0x8000000, flat m' old v = flat m old v) ∧
      PTE_FLAGS (flat m' new 0) = PTE_FLAGS (flat m old 0) ∧
      m'.page (PTE2PA (flat m' new 0)) = m.page (PTE2PA (flat m old 0)) := by
  obtain ⟨m, old, new, To, Tn, Lo, hs, hO, hN, hown⟩ :=
    sampleTables_some (fun _ m => decide ¬m.Short 3) (freshMem_owned (n := 20) (by decide))
      (by decide +kernel)
  obtain ⟨r, m', hcopy, hflat, -, ⟨rfl, hcopied, -⟩ | ⟨-, -, -, hshort⟩⟩ :=
    uvmcopy_copies_and_isolates m old new 1 _ _ To Tn Lo hO hN hown
  · exact ⟨m, old, new, _, _, To, Tn, Lo, hO, hN, hown, m', hcopy, hflat, hcopied 0 (by decide)⟩
  · exact absurd hshort (of_decide_eq_true hs)

end Xv6
