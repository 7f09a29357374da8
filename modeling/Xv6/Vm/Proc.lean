import Xv6.Vm.Copy

namespace Xv6

open Lib

def procPagetable (trapframe : Nat) : MemM (Option Nat) := do
  match ← uvmcreate with
  | none => return none
  | some pagetable => do
      let m ← get
      let r ← mappages pagetable TRAMPOLINE PGSIZE m.image.trampoline (PTE_R ||| PTE_X)
      if r < 0 then do
        uvmfree pagetable 0
        return none
      else do
        let r ← mappages pagetable TRAPFRAME PGSIZE trapframe (PTE_R ||| PTE_W)
        if r < 0 then do
          uvmunmap pagetable TRAMPOLINE 1 false
          uvmfree pagetable 0
          return none
        else
          return some pagetable

def procFreepagetable (pagetable sz : Nat) : MemM Unit := do
  uvmunmap pagetable TRAMPOLINE 1 false
  uvmunmap pagetable TRAPFRAME 1 false
  uvmfree pagetable sz

-- The sum of a uint64 and an int.
def u64Int (x : Int) : Nat := (x % 0x10000000000000000).toNat

-- The result, and p->sz after the call.
def growproc (pagetable sz : Nat) (n : Int) : MemM (Int × Nat) :=
  if 0 < n then do
    let sz' ← uvmalloc pagetable sz (u64Int (sz + n)) PTE_W
    if sz' = 0 then
      return (-1, sz)
    else
      return (0, sz')
  else if n < 0 then do
    let sz' ← uvmdealloc pagetable sz (u64Int (sz + n))
    return (0, sz')
  else
    return (0, sz)

-- The two pages above the user part.
def trampolinePte (im : KernelImage) : Nat := PA2PTE im.trampoline ||| (PTE_R ||| PTE_X) ||| PTE_V

def trapframePte (trapframe : Nat) : Nat := PA2PTE trapframe ||| (PTE_R ||| PTE_W) ||| PTE_V

def kernelPages (im : KernelImage) (trapframe : Nat) : Nat → Nat :=
  Function.update (Function.update (fun _ => 0) (TRAMPOLINE / 4096) (trampolinePte im))
    (TRAPFRAME / 4096) (trapframePte trapframe)

variable {m m' : Mem} {im : KernelImage} {root sz tf v x : Nat} {T T' X Y : Multiset Nat}
  {fixed : Nat → Nat} {L : List (Nat × Nat)} {P : Panic → Prop}

theorem High.zero : High fun _ => 0 := fun _ _ => rfl

theorem High.update (h : High fixed) (hv : NPAGES ≤ v) : High (Function.update fixed v x) :=
  fun w hw => by rw [Function.update_of_ne (by omega), h w hw]

theorem NPAGES_le_trampoline : NPAGES ≤ TRAMPOLINE / 4096 := by decide

theorem NPAGES_le_trapframe : NPAGES ≤ TRAPFRAME / 4096 := by decide

theorem High.kernelPages : High (kernelPages im tf) :=
  (High.zero.update NPAGES_le_trampoline).update NPAGES_le_trapframe

theorem NoUser.kernelPages : NoUser (kernelPages im tf) := by
  intro v
  by_cases hf : v = TRAPFRAME / 4096
  · rw [hf, Xv6.kernelPages, Function.update_self, trapframePte, Nat.lor_assoc]
    exact or_and_flag tf (by decide) (by decide)
  · rw [Xv6.kernelPages, Function.update_of_ne hf]
    by_cases ht : v = TRAMPOLINE / 4096
    · rw [ht, Function.update_self, trampolinePte, Nat.lor_assoc]
      exact or_and_flag im.trampoline (by decide) (by decide)
    · rw [Function.update_of_ne ht]
      rfl

namespace Space

theorem mapFixed {Q : Int → Mem → Prop} {va pa perm : Nat} (h : Space m root fixed T L)
    (hva : va % 4096 = 0) (hlt : va < MAXVA) (hhigh : NPAGES ≤ va / 4096)
    (hfree : fixed (va / 4096) = 0) (hpa : pa < 0x10000000000000000)
    (hperm : perm < 0x10000000000000000)
    (hfail : ∀ m' T', Space m' root fixed T' L → m.Trade m' T T' → Q (-1) m')
    (hdone : ∀ m' T',
      Space m' root (Function.update fixed (va / 4096) (PA2PTE pa ||| perm ||| PTE_V)) T' L →
      m.Trade m' T T' → Q 0 m') : Wp (mappages root va PGSIZE pa perm) m P Q := by
  have hlen := h.length_le.trans hhigh
  refine mappages_page h.maps h.owned_tables hva hlt ?_ hpa hperm
    (fun m' T' _ hm' ht' _ => hfail m' T' (h.tables_only hm' ht') ht')
    fun m' T' _ hm' ht' _ => hdone m' T' ⟨?_, h.flags, (ht'.frame _).owned h.owned⟩ ht'
  · rw [layout_above hlen, hfree]
    rfl
  · rwa [← layout_update_fixed hlen]

theorem unmapFixed {Q : Unit → Mem → Prop} {va : Nat} (h : Space m root fixed T L)
    (hva : va % 4096 = 0) (hlt : va < MAXVA) (hhigh : NPAGES ≤ va / 4096)
    (hleaf : IsLeaf (fixed (va / 4096)))
    (hdone : ∀ m', Space m' root (Function.update fixed (va / 4096) 0) T L → m.Trade m' T T →
      Q () m') : Wp (uvmunmap root va 1 false) m P Q := by
  have hlen := h.length_le.trans hhigh
  refine uvmunmap_spec h.maps (.inr hva) ?_ (.inr fun k hk => ⟨?_, fun h => by cases h⟩) rfl
    (fun q hq => absurd hq (Multiset.notMem_zero q)) fun m' hm' ht' => ?_
  · unfold MAXVA at hlt ⊢
    omega
  · rw [Nat.lt_one_iff.mp hk, Nat.add_zero, layout_above hlen]
    exact hleaf
  · rw [← removePages_succ, removePages_zero, layout_update_fixed hlen] at hm'
    rw [if_neg (by decide), add_zero] at ht'
    exact hdone m' ⟨hm', h.flags, (ht'.frame _).owned h.owned⟩ ht'

end Space

theorem uvmcreate_spec {Q : Option Nat → Mem → Prop} (hown : m.Owned 0)
    (hnone : ∀ m', (∀ X, m.Trade m' X X) → Q none m')
    (hsome : ∀ root m', Space m' root (fun _ => 0) {root} [] →
      (∀ X, m.Trade m' X (X + {root})) → Q (some root) m') : Wp uvmcreate m P Q := by
  refine Wp.bind (kalloc_spec (fun m' ht _ _ => Wp.pure (hnone m' ht)) fun pa m₁ _ htake _ => ?_)
  have ht : ∀ X, m.Trade (m₁.setPage pa (.fill 0)) X (X + {pa}) := fun X =>
    (htake X).trans (.setPage _ (by simp))
  refine Wp.bind (memset_spec (Wp.pure (hsome pa _ ⟨?_, fun e he => ?_, ?_⟩ ht)))
  · exact Maps.empty (Mem.setPage_self _ _ _)
  · exact absurd he List.not_mem_nil
  · have howned := (ht 0).owned hown
    rwa [zero_add] at howned

theorem uvmfree_empty {Q : Unit → Mem → Prop} (h : Space m root (fun _ => 0) T [])
    (hdone : ∀ m', m.Trade m' T 0 → Q () m') : Wp (uvmfree root 0) m P Q := by
  refine uvmfree_spec h rfl fun m' ht' => hdone m' ?_
  rwa [leaves_nil, add_zero] at ht'

theorem trampoline_lt (im : KernelImage) : im.trampoline < 0x10000000000000000 :=
  lt_trans (lt_of_lt_of_le im.trampoline_lt im.kend_le) (by decide)

theorem trampolinePte_eq (im : KernelImage) :
    trampolinePte im = PA2PTE im.trampoline ||| (PTE_R ||| PTE_X ||| PTE_V) := Nat.lor_assoc _ _ _

theorem trapframePte_eq (tf : Nat) :
    trapframePte tf = PA2PTE tf ||| (PTE_R ||| PTE_W ||| PTE_V) := Nat.lor_assoc _ _ _

theorem isLeaf_trampolinePte (im : KernelImage) : IsLeaf (trampolinePte im) := by
  rw [trampolinePte_eq]
  exact LeafFlags.isLeaf (by decide) _

theorem isLeaf_trapframePte (tf : Nat) : IsLeaf (trapframePte tf) := by
  rw [trapframePte_eq]
  exact LeafFlags.isLeaf (by decide) _

theorem procPagetable_spec {Q : Option Nat → Mem → Prop} (hown : m.Owned 0)
    (htf : tf < 0x10000000000000000) (hnone : ∀ m', (∀ X, m.Trade m' X X) → Q none m')
    (hsome : ∀ root m' T, Space m' root (kernelPages m.image tf) T [] →
      (∀ X, m.Trade m' X (X + T)) → Q (some root) m') : Wp (procPagetable tf) m P Q := by
  -- what has been taken for the table is given back
  have hundo : ∀ m₁ root T, (∀ X, m.Trade m₁ X (X + T)) → Space m₁ root (fun _ => 0) T [] →
      Wp (do uvmfree root 0; return none) m₁ P Q := by
    intro m₁ root T ht₁ h₁
    refine Wp.bind (uvmfree_empty h₁ fun m' ht' => Wp.pure (hnone m' fun X => ?_))
    have hgive := (ht₁ X).trans (ht'.frame_left X)
    rwa [add_zero] at hgive
  refine Wp.bind (uvmcreate_spec hown (fun m' ht' => Wp.pure (hnone m' ht'))
    fun root m₁ h₁ ht₁ => Wp.bind (Wp.get (Wp.bind ?_)))
  rw [(ht₁ 0).image]
  refine h₁.mapFixed (by decide) (by decide) NPAGES_le_trampoline rfl (trampoline_lt _)
    (by decide) (fun m₂ T₂ h₂ ht₂ => ?_) fun m₂ T₂ h₂ ht₂ => ?_
  · rw [if_pos (by decide)]
    exact hundo m₂ root T₂ (fun X => (ht₁ X).trans (ht₂.frame_left X)) h₂
  rw [if_neg (by decide)]
  refine Wp.bind (h₂.mapFixed (by decide) (by decide) NPAGES_le_trapframe
    (by rw [Function.update_of_ne (by decide)]) htf (by decide) (fun m₃ T₃ h₃ ht₃ => ?_)
    fun m₃ T₃ h₃ ht₃ => ?_)
  · rw [if_pos (by decide)]
    refine Wp.bind (h₃.unmapFixed (by decide) (by decide) NPAGES_le_trampoline ?_
      fun m₄ h₄ ht₄ => ?_)
    · rw [Function.update_self]
      exact isLeaf_trampolinePte m.image
    · rw [Function.update_idem, Function.update_eq_self] at h₄
      exact hundo m₄ root T₃ (fun X => (((ht₁ X).trans (ht₂.frame_left X)).trans
        (ht₃.frame_left X)).trans (ht₄.frame_left X)) h₄
  · rw [if_neg (by decide)]
    exact Wp.pure (hsome root m₃ T₃ h₃ fun X =>
      ((ht₁ X).trans (ht₂.frame_left X)).trans (ht₃.frame_left X))

theorem kernelPages_clear : Function.update (Function.update (kernelPages im tf)
    (TRAMPOLINE / 4096) 0) (TRAPFRAME / 4096) 0 = fun _ => 0 := by
  funext v
  by_cases hf : v = TRAPFRAME / 4096
  · rw [hf, Function.update_self]
  · rw [Function.update_of_ne hf]
    by_cases ht : v = TRAMPOLINE / 4096
    · rw [ht, Function.update_self]
    · rw [Function.update_of_ne ht, kernelPages, Function.update_of_ne hf, Function.update_of_ne ht]

theorem procFreepagetable_spec {Q : Unit → Mem → Prop}
    (h : Space m root (kernelPages im tf) T L) (hsz : L.length = pagesFor sz)
    (hdone : ∀ m', m.Trade m' (T + leaves L) 0 → Q () m') :
    Wp (procFreepagetable root sz) m P Q := by
  refine Wp.bind (h.unmapFixed (by decide) (by decide) NPAGES_le_trampoline ?_
    fun m₁ h₁ ht₁ => Wp.bind (h₁.unmapFixed (by decide) (by decide) NPAGES_le_trapframe ?_
      fun m₂ h₂ ht₂ => ?_))
  · rw [kernelPages, Function.update_of_ne (by decide), Function.update_self]
    exact isLeaf_trampolinePte im
  · rw [kernelPages, Function.update_of_ne (by decide), Function.update_self]
    exact isLeaf_trapframePte tf
  · rw [kernelPages_clear] at h₂
    refine uvmfree_spec h₂ hsz fun m' ht' => hdone m' ?_
    exact ((ht₁.trans ht₂).frame _).trans ht'

-- All pages but one are open to user code. The one is the guard below the stack.
def OneGuard (L : List (Nat × Nat)) : Prop :=
  ∃ g, ∀ (v : Nat) (e : Nat × Nat), L[v]? = some e → v ≠ g → e.2 &&& PTE_U ≠ 0

-- The address space of a process of sz bytes.
structure UserSpace (m : Mem) (root sz tf : Nat) (T : Multiset Nat) (L : List (Nat × Nat)) :
    Prop where
  space : Space m root (kernelPages m.image tf) T L
  size : L.length = pagesFor sz
  guard : OneGuard L

theorem OneGuard.take (h : OneGuard L) (n : Nat) : OneGuard (L.take n) := by
  obtain ⟨g, hg⟩ := h
  refine ⟨g, fun v e he hv => hg v e ?_ hv⟩
  rw [List.getElem?_take] at he
  split at he
  · exact he
  · cases he

theorem OneGuard.append {A : List (Nat × Nat)} (h : OneGuard L)
    (hA : ∀ e ∈ A, e.2 &&& PTE_U ≠ 0) : OneGuard (L ++ A) := by
  obtain ⟨g, hg⟩ := h
  refine ⟨g, fun v e he hv => ?_⟩
  by_cases hlt : v < L.length
  · rw [List.getElem?_append_left hlt] at he
    exact hg v e he hv
  · rw [List.getElem?_append_right (by omega)] at he
    exact hA e (List.mem_of_getElem? he)

theorem user_flags (xperm : Nat) : (PTE_R ||| PTE_U ||| xperm ||| PTE_V) &&& PTE_U ≠ 0 := by
  rw [PTE_U_iff, Nat.testBit_or, Nat.testBit_or, Nat.testBit_or]
  rfl

theorem UserSpace.sz_le (h : UserSpace m root sz tf T L) : sz ≤ 0x8000000 := by
  have hlen := h.space.length_le
  rw [NPAGES_eq] at hlen
  have hle := pagesFor_le h.size.ge
  omega

theorem u64Int_of_nonneg {x : Int} (h : 0 ≤ x) (hlt : x < 0x10000000000000000) :
    (u64Int x : Int) = x := by
  rw [u64Int, Int.emod_eq_of_lt h hlt, Int.toNat_of_nonneg h]

theorem growproc_exact {Q : Int × Nat → Mem → Prop} {n : Int} (h : UserSpace m root sz tf T L)
    (hfail : ∀ m' T', 0 < n → UserSpace m' root sz tf T' L → m.Trade m' T T' →
      (n < 0x80000000 → m.Short (3 * (pagesFor (sz + n.toNat) - pagesFor sz))) → Q (-1, sz) m')
    (hgrow : ∀ m' T' A, 0 < n → sz ≤ u64Int (sz + n) →
      UserSpace m' root (u64Int (sz + n)) tf T' (L ++ A) → m.Trade m' T (T' + leaves A) →
      Q (0, u64Int (sz + n)) m')
    (hshrink : ∀ m' sz', sz' = (if n < 0 then min sz (u64Int (sz + n)) else sz) →
      (0 < n → u64Int (sz + n) < sz) → UserSpace m' root sz' tf T (L.take (pagesFor sz')) →
      m.Trade m' (T + leaves (L.drop (pagesFor sz'))) T → Q (0, sz') m') :
    Wp (growproc root sz n) m P Q := by
  have hsum : 0 < n → n < 0x80000000 → u64Int (sz + n) = sz + n.toNat := by
    intro hpos hlt
    have hsz := h.sz_le
    have hint := u64Int_of_nonneg (x := (sz : Int) + n) (by omega) (by omega)
    omega
  have hsame : ¬n < 0 → (0 < n → u64Int (sz + n) < sz) → Q (0, sz) m := by
    intro hneg hwrap
    refine hshrink m sz (if_neg hneg).symm hwrap ?_ ?_
    · rwa [← h.size, List.take_length]
    · rw [← h.size, List.drop_length, leaves_nil, add_zero]
      exact .refl
  refine Wp.ite (fun hpos => ?_) fun hpos => Wp.ite (fun hneg => ?_) fun hneg => Wp.pure ?_
  · refine Wp.bind (uvmalloc_spec h.space High.kernelPages h.size (by decide) (fun hlt => ?_)
      (fun m' T' _ _ h' ht' hs => ?_) fun m' T' A hle _ hlen hA h' ht' => ?_)
    · rw [if_neg (by omega)]
      exact Wp.pure (hsame (by omega) fun _ => hlt)
    · rw [if_pos rfl]
      rw [← ht'.image] at h'
      exact Wp.pure (hfail m' T' hpos ⟨h', h.size, h.guard⟩ ht' fun hlt => hsum hpos hlt ▸ hs)
    · rw [← ht'.image] at h'
      refine Wp.ite (fun hzero => Wp.pure ?_) fun _ => Wp.pure ?_
      · -- growing to nothing: there was and is no page
        have hnil : A = [] := by
          rw [hzero] at hlen
          exact (List.append_eq_nil_iff.mp (List.length_eq_zero_iff.mp hlen)).2
        rw [hnil, List.append_nil] at h'
        rw [hnil, leaves_nil, add_zero] at ht'
        exact hfail m' T' hpos ⟨h', h.size, h.guard⟩ ht' fun hlt =>
          absurd (hzero.symm.trans (hsum hpos hlt)) (by omega)
      · have hguard := h.guard.append fun e he => by rw [(hA e he).1]; exact user_flags _
        exact hgrow m' T' A hpos hle ⟨h', hlen, hguard⟩ ht'
  · refine Wp.bind (uvmdealloc_spec h.space High.kernelPages h.size fun m' h' ht' => Wp.pure ?_)
    rw [← ht'.image] at h'
    refine hshrink m' _ (if_pos hneg).symm (by omega) ⟨h', ?_, h.guard.take _⟩ ht'
    rw [List.length_take, h.size, Nat.min_eq_left (pagesFor_mono (Nat.min_le_left _ _))]
  · exact hsame hneg fun h => absurd h hpos

theorem growproc_spec {Q : Int × Nat → Mem → Prop} {n : Int} (h : UserSpace m root sz tf T L)
    (hdone : ∀ m' r sz' T' L', UserSpace m' root sz' tf T' L' →
      m.Trade m' (T + leaves L) (T' + leaves L') → Q (r, sz') m') :
    Wp (growproc root sz n) m P Q := by
  refine growproc_exact h (fun m' T' _ h' ht' _ => ?_) (fun m' T' A _ _ h' ht' => ?_)
    fun m' sz' _ _ h' ht' => ?_
  · exact hdone m' _ sz T' L h' (ht'.frame _)
  · refine hdone m' _ _ T' _ h' ?_
    rw [leaves_append, add_comm (leaves L), ← add_assoc]
    exact ht'.frame _
  · exact hdone m' _ sz' T _ h' (ht'.keep_take _)

end Xv6
