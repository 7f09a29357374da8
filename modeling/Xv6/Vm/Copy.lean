import Xv6.Vm.Free
import Mathlib.Data.List.Forall2

namespace Xv6

open Lib

-- Page by page the same flags and the same bytes.
def Copied (m : Mem) (L L' : List (Nat × Nat)) : Prop :=
  List.Forall₂ (fun e e' => e'.2 = e.2 ∧ m.page e'.1 = m.page e.1) L L'

variable {m m' : Mem} {old new root sz : Nat} {T T' To Tn X Y : Multiset Nat}
  {fixed fixedO fixedN : Nat → Nat} {L L' Lo Ln : List (Nat × Nat)} {P : Panic → Prop}

theorem Copied.congr (h : Copied m L L') (hL : ∀ p ∈ leaves L, m'.page p = m.page p)
    (hL' : ∀ p ∈ leaves L', m'.page p = m.page p) : Copied m' L L' := by
  induction h with
  | nil => exact .nil
  | cons hhead _ ih =>
    refine .cons ⟨hhead.1, ?_⟩ (ih (fun p hp => hL p ?_) fun p hp => hL' p ?_)
    · rw [hL' _ (mem_leaves List.mem_cons_self), hL _ (mem_leaves List.mem_cons_self), hhead.2]
    · exact List.mem_cons_of_mem _ hp
    · exact List.mem_cons_of_mem _ hp

theorem Copied.get {v : Nat} {e : Nat × Nat} (h : Copied m L L') (he : L[v]? = some e) :
    ∃ e', L'[v]? = some e' ∧ e'.2 = e.2 ∧ m.page e'.1 = m.page e.1 := by
  induction h generalizing v with
  | nil => cases he
  | cons hhead _ ih =>
    cases v with
    | zero =>
      cases he
      exact ⟨_, rfl, hhead⟩
    | succ v => exact ih he

theorem LeafFlags.or_valid {fl : Nat} (h : LeafFlags fl) : fl ||| PTE_V = fl := by
  refine Nat.eq_of_testBit_eq fun i => ?_
  rw [Nat.testBit_or]
  cases i with
  | zero => rw [PTE_V_iff.mp h.2.1, Bool.true_or]
  | succ i =>
    have hzero : PTE_V.testBit (i + 1) = false := by simp [PTE_V, Nat.testBit_succ]
    rw [hzero, Bool.or_false]

theorem Copied.all (h : Copied m (L.take L'.length) L') (hlen : L.length ≤ L'.length) :
    Copied m L L' := by
  rwa [List.take_of_length_le hlen] at h

theorem Copied.push {e : Nat × Nat} {mem : Nat} (h : Copied m (L.take L'.length) L')
    (he : L[L'.length]? = some e) (hpage : m.page mem = m.page e.1) :
    Copied m (L.take (L' ++ [(mem, e.2)]).length) (L' ++ [(mem, e.2)]) := by
  have htake : L.take (L' ++ [(mem, e.2)]).length = L.take L'.length ++ [e] := by
    rw [List.length_append, List.length_singleton, List.take_add_one, he]
    rfl
  rw [htake]
  exact List.rel_append h (.cons ⟨rfl, hpage⟩ .nil)

theorem uvmcopyLoop_spec {Q : Int → Mem → Prop} {n i : Nat} (hO : Space m old fixedO To Lo)
    (hN : Space m new fixedN Tn Ln) (hfixed : High fixedN)
    (hown : m.Owned (To + leaves Lo + (Tn + leaves Ln))) (hi : i = Ln.length * 4096)
    (hsz : Lo.length = pagesFor sz) (hcopy : Copied m (Lo.take Ln.length) Ln)
    (hfuel : Lo.length ≤ Ln.length + n)
    (hfail : ∀ m' T', Tn ≤ T' → Space m' new fixedN T' [] → m.Trade m' (Tn + leaves Ln) T' →
      m.Short (3 * (Lo.length - Ln.length)) → Q (-1) m')
    (hdone : ∀ m' T' L', Tn ≤ T' → Space m' new fixedN T' L' → Copied m' Lo L' →
      m.Trade m' (Tn + leaves Ln) (T' + leaves L') → Q 0 m') :
    Wp (uvmcopyLoop old new sz n i) m P Q := by
  induction n generalizing m Tn Ln i with
  | zero => exact Wp.pure (hdone m Tn Ln le_rfl hN (hcopy.all hfuel) .refl)
  | succ n ih =>
    subst hi
    refine Wp.ite (fun hlt => ?_) fun hge => Wp.pure ?_
    · have hless : Ln.length < Lo.length := by
        rw [hsz, pagesFor]
        omega
      have hdiv : Ln.length * 4096 / PGSIZE = Ln.length := Nat.mul_div_cancel _ (by decide)
      have hdiv' : Ln.length * 4096 / 4096 = Ln.length := hdiv
      -- the page to copy
      obtain ⟨e, he⟩ : ∃ e, Lo[Ln.length]? = some e := ⟨_, List.getElem?_eq_getElem hless⟩
      have hmem : e ∈ Lo := List.mem_of_getElem? he
      have hleaf := (hO.flags e hmem).isLeaf e.1
      have hpa := (hO.allocatable hmem).PTE2PA_or (hO.flags e hmem).1
      -- the error path
      have hundo : ∀ m₁ T₁, Tn ≤ T₁ → Space m₁ new fixedN T₁ Ln →
          m.Trade m₁ (Tn + leaves Ln) (T₁ + leaves Ln) → m.Short (3 * (Lo.length - Ln.length)) →
          Wp (do uvmunmap new 0 (Ln.length * 4096 / PGSIZE) true; return -1) m₁ P Q := by
        intro m₁ T₁ hle h₁ ht₁ hs
        rw [hdiv]
        refine Wp.bind (h₁.unmap (n := 0) hfixed (Nat.zero_le _) fun m' h' ht' => Wp.pure ?_)
        rw [List.take_zero] at h'
        rw [List.drop_zero] at ht'
        exact hfail m' T₁ hle h' (ht₁.trans ht') hs
      refine Wp.bind (walk_spec hO.maps (fun hva => ?_) (fun hzero => ?_) fun pte hslot => ?_)
      · have hlen := hO.length_le
        rw [NPAGES_eq] at hlen
        unfold MAXVA at hva
        omega
      · rw [hdiv', layout_user he] at hzero
        rw [hzero] at hleaf
        exact absurd rfl hleaf.1
      refine Wp.bind (loadPte_spec ?_)
      rw [hslot.load, hdiv', layout_user he, if_neg hleaf.1, hpa,
        PTE_FLAGS_or e.1 (hO.flags e hmem).1]
      refine Wp.bind (kalloc_spec (fun m₁ ht₁ hpool hs => ?_) fun mem m₁ hfree htake hkept => ?_)
      · exact hundo m₁ Tn le_rfl (hN.frame (ht₁ 0) (by rw [add_zero]; exact hN.owned)) (ht₁ _)
          (hs.mono (by omega))
      have ht₂ : ∀ X, m.Trade (m₁.setPage mem (m₁.page e.1)) X (X + {mem}) := fun X =>
        (htake X).trans (.setPage _ (by simp))
      have hown₂ := (ht₂ _).owned hown
      have hsplit : To + leaves Lo + (Tn + leaves Ln) + {mem} =
          To + leaves Lo + leaves Ln + {mem} + Tn := by ac_rfl
      rw [hsplit] at hown₂
      have hflags : LeafFlags (e.2 ||| PTE_V) := by
        rw [(hO.flags e hmem).or_valid]
        exact hO.flags e hmem
      refine Wp.bind (memmove_spec (Wp.bind ((hN.take ht₂).push hfixed ((ht₂ _).owned hN.owned)
        (hO.flags e hmem).1 hflags (fun m₃ T₃ hle h₃ ht₃ hs => ?_) fun m₃ T₃ hle h₃ ht₃ hgrown => ?_)))
      · have hall := (ht₂ _).trans ((ht₃.frame (leaves Ln)).frame {mem})
        have hown₃ := hall.owned hN.owned
        rw [if_pos (by decide)]
        refine Wp.bind (kfree_spec (.inr (hown₃.ok_held (by simp))) fun m₄ ht₄ _ => ?_)
        exact hundo m₄ T₃ hle (h₃.give ht₄ hown₃) (hall.trans (ht₄ _))
          (((ht₂ 0).short le_rfl hs).mono (by simp; omega))
      · have hall := (ht₂ _).trans ((ht₃.frame (leaves Ln)).frame {mem})
        rw [add_assoc, ← leaves_push e.2] at hall
        rw [(hO.flags e hmem).or_valid] at h₃
        have hown₃ := (hall.frame_left (To + leaves Lo)).owned hown
        -- nothing else has been written
        have hsame : ∀ p ∈ To + leaves Lo + leaves Ln, m₃.page p = m.page p := by
          intro p hp
          rw [ht₃.unchanged hown₂ (Multiset.mem_add.mpr (.inl hp))]
          refine Mem.Trade.unchanged_take ht₂ hown ?_
          simp only [Multiset.mem_add] at hp ⊢
          tauto
        have hinO : ∀ p ∈ leaves Lo, p ∈ To + leaves Lo + leaves Ln := fun p hp => by simp [hp]
        have hpage : m₃.page mem = m₃.page e.1 := by
          have hne : e.1 ≠ mem := by
            rintro rfl
            exact hown₂.left.disjoint (hinO _ (mem_leaves hmem)) (Multiset.mem_singleton_self _)
          rw [ht₃.unchanged hown₂ (by simp), hsame _ (hinO _ (mem_leaves hmem)), ← hkept _ hne]
          exact Mem.setPage_self _ _ _
        have hlen := h₃.length_le
        rw [List.length_append, List.length_singleton] at hlen
        have hnext : u64 (Ln.length * 4096 + PGSIZE) = (Ln ++ [(mem, e.2)]).length * 4096 := by
          rw [NPAGES_eq] at hlen
          rw [List.length_append, List.length_singleton]
          unfold u64 PGSIZE
          omega
        rw [if_neg (by decide), hnext]
        refine ih (hO.congr (fun p hp => hsame p (by simp [hp])) hown₃.left) h₃ hown₃ rfl
          (Copied.push (hcopy.congr (fun p hp => hsame p (hinO p ?_)) fun p hp =>
            hsame p (by simp [hp])) he hpage)
          (by simp; omega) (fun m' T' hle' h' ht' hs => ?_)
          fun m' T' L' hle' h' hcopy' ht' => ?_
        · exact List.map_subset _ (List.take_subset _ _) hp
        · have hless : (T₃ + leaves (Ln ++ [(mem, e.2)])).card ≤ (Tn + leaves Ln).card + 3 := by
            simp [leaves]
            omega
          rw [List.length_append, List.length_singleton] at hs
          exact hfail m' T' (hle.trans hle') h' (hall.trans ht') ((hall.short hless hs).mono (by omega))
        · exact hdone m' T' L' (hle.trans hle') h' hcopy' (hall.trans ht')
    · have hpages : Lo.length ≤ Ln.length := by
        rw [hsz, pagesFor]
        omega
      exact hdone m Tn Ln le_rfl hN (hcopy.all hpages) .refl

theorem uvmcopy_spec {Q : Int → Mem → Prop} (hO : Space m old fixedO To Lo)
    (hN : Space m new fixedN Tn []) (hfixed : High fixedN) (hown : m.Owned (To + leaves Lo + Tn))
    (hsz : Lo.length = pagesFor sz)
    (hfail : ∀ m' T', Space m' new fixedN T' [] → m.Trade m' Tn T' → m.Short (3 * Lo.length) →
      Q (-1) m')
    (hdone : ∀ m' T' L', Space m' new fixedN T' L' → Copied m' Lo L' →
      m.Trade m' Tn (T' + leaves L') → Q 0 m') : Wp (uvmcopy old new sz) m P Q := by
  have hTn : Tn + leaves [] = Tn := add_zero Tn
  refine uvmcopyLoop_spec hO hN hfixed (by rwa [hTn]) rfl hsz .nil ?_
    (fun m' T' _ h' ht' => hfail m' T' h' ?_)
    fun m' T' L' _ h' hcopy ht' => hdone m' T' L' h' hcopy ?_
  · rw [hsz, pagesFor, List.length_nil]
    unfold PGSIZE
    omega
  · rwa [hTn] at ht'
  · rwa [hTn] at ht'

-- No page of fixed is open to user code.
def NoUser (fixed : Nat → Nat) : Prop :=
  ∀ v, fixed v &&& PTE_U = 0

variable {va : Nat} {F : Nat → Nat}

theorem walkaddr_spec {Q : Nat → Mem → Prop} (h : Maps m root T F) (hzero : Q 0 m)
    (hpa : va < MAXVA → F (va / 4096) &&& PTE_V ≠ 0 → F (va / 4096) &&& PTE_U ≠ 0 →
      Q (PTE2PA (F (va / 4096))) m) : Wp (walkaddr root va) m P Q := by
  refine Wp.ite (fun _ => Wp.pure hzero) fun hva => Wp.bind (walk_spec h (fun h => absurd h hva)
    (fun _ => Wp.pure hzero) fun pte hslot => Wp.bind (loadPte_spec ?_))
  rw [hslot.load]
  exact Wp.ite (fun _ => Wp.pure hzero) fun hV => Wp.ite (fun _ => Wp.pure hzero) fun hU =>
    Wp.pure (hpa (Nat.lt_of_not_le hva) hV hU)

theorem Space.user_page {v : Nat} (h : Space m root fixed T L) (hfixed : NoUser fixed)
    (hU : layout fixed L v &&& PTE_U ≠ 0) :
    ∃ e, L[v]? = some e ∧ PTE2PA (layout fixed L v) = e.1 := by
  cases he : L[v]? with
  | none => exact absurd (hfixed v) (by rwa [layout, he] at hU)
  | some e =>
    have hmem := List.mem_of_getElem? he
    exact ⟨e, rfl, by rw [layout_user he, (h.allocatable hmem).PTE2PA_or (h.flags e hmem).1]⟩

theorem copyoutLoop_spec {fuel dstva : Nat} {src : List UInt8} {Q : Int → Mem → Prop}
    (h : Space m root fixed T L) (hfixed : NoUser fixed)
    (hdone : ∀ r m', Space m' root fixed T L → m.Trade m' (leaves L) (leaves L) → Q r m') :
    Wp (copyoutLoop root fuel dstva src) m P Q := by
  induction fuel generalizing m dstva src with
  | zero => exact Wp.pure (hdone _ m h .refl)
  | succ fuel ih =>
    refine Wp.ite (fun _ => Wp.pure (hdone _ m h .refl)) fun _ =>
      Wp.ite (fun _ => Wp.pure (hdone _ m h .refl)) fun hva =>
      Wp.bind (walk_spec h.maps (fun h => absurd h hva) (fun _ => Wp.pure (hdone _ m h .refl))
        fun pte hslot => Wp.bind (loadPte_spec ?_))
    rw [hslot.load]
    refine Wp.ite (fun _ => Wp.pure (hdone _ m h .refl)) fun hflags =>
      Wp.bind (Wp.get (Wp.bind (Wp.set ?_)))
    push Not at hflags
    obtain ⟨e, he, hpa⟩ := h.user_page hfixed hflags.2.1
    have hmem := mem_leaves (List.mem_of_getElem? he)
    rw [hpa]
    have ht : ∀ p, m.Trade (m.setPage e.1 p) (leaves L) (leaves L) := fun p => .setPage p hmem
    refine ih (h.congr (fun q hq => Mem.setPage_other m _ ?_) (((ht _).frame_left T).owned h.owned))
      fun r m' h' ht' => hdone r m' h' ((ht _).trans ht')
    rintro rfl
    exact h.owned.disjoint hq hmem

theorem walkaddr_keeps (h : Maps m root T F) :
    Wp (walkaddr root va) m P fun _ m' => m' = m :=
  walkaddr_spec h rfl fun _ _ _ => rfl

theorem copyinLoop_spec {fuel srcva len : Nat} (h : Maps m root T F) :
    Wp (copyinLoop root fuel srcva len) m P fun _ m' => m' = m := by
  induction fuel generalizing srcva len with
  | zero => exact Wp.pure rfl
  | succ fuel ih =>
    refine Wp.ite (fun _ => Wp.pure rfl) fun _ => Wp.call (walkaddr_keeps h) fun pa m' hm' => ?_
    subst hm'
    refine Wp.ite (fun _ => Wp.pure rfl) fun _ => Wp.bind (Wp.get (Wp.call ih fun r m'' hm => ?_))
    cases r with
    | none => exact Wp.pure hm
    | some rest => exact Wp.pure hm

end Xv6
