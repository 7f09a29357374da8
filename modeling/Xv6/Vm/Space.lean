import Xv6.Vm.Maps

namespace Xv6

open Lib

-- The number of pages that hold sz bytes.
def pagesFor (sz : Nat) : Nat := (sz + 4095) / 4096

-- The user part of an address space is the list of its pages, each with its physical page
-- and its flags. Above it are the pages of fixed.
def layout (fixed : Nat → Nat) (L : List (Nat × Nat)) (v : Nat) : Nat :=
  (L[v]?).elim (fixed v) fun e => PA2PTE e.1 ||| e.2

def leaves (L : List (Nat × Nat)) : Multiset Nat := (L.map Prod.fst : List Nat)

def LeafFlags (fl : Nat) : Prop :=
  fl < 1024 ∧ fl &&& PTE_V ≠ 0 ∧ fl &&& PTE_R ≠ 0

instance : DecidablePred LeafFlags := fun _ => inferInstanceAs (Decidable (_ ∧ _ ∧ _))

-- Nothing but user pages below the end of what physical memory can hold.
def High (fixed : Nat → Nat) : Prop :=
  ∀ v < NPAGES, fixed v = 0

structure Space (m : Mem) (root : Nat) (fixed : Nat → Nat) (T : Multiset Nat)
    (L : List (Nat × Nat)) : Prop where
  maps : Maps m root T (layout fixed L)
  flags : ∀ e ∈ L, LeafFlags e.2
  owned : m.Owned (T + leaves L)

variable {m m' : Mem} {root sz n : Nat} {T T' X Y : Multiset Nat} {fixed : Nat → Nat}
  {L L' : List (Nat × Nat)} {e : Nat × Nat} {P : Panic → Prop}

@[simp] theorem leaves_nil : leaves [] = 0 := rfl

@[simp] theorem leaves_append : leaves (L ++ L') = leaves L + leaves L' := by
  simp [leaves]

theorem leaves_push {pa : Nat} (fl : Nat) : leaves (L ++ [(pa, fl)]) = leaves L + {pa} :=
  leaves_append

theorem leaves_split (L : List (Nat × Nat)) (n : Nat) :
    leaves L = leaves (L.take n) + leaves (L.drop n) := by
  rw [← leaves_append, List.take_append_drop]

theorem Mem.Trade.keep_take (n : Nat) (ht : m.Trade m' (T + leaves (L.drop n)) T') :
    m.Trade m' (T + leaves L) (T' + leaves (L.take n)) := by
  rw [leaves_split L n, ← add_assoc, add_right_comm]
  exact ht.frame _

theorem mem_leaves (h : e ∈ L) : e.1 ∈ leaves L :=
  List.mem_map_of_mem h

@[simp] theorem layout_nil : layout fixed [] = fixed := rfl

theorem layout_user {v : Nat} (h : L[v]? = some e) : layout fixed L v = PA2PTE e.1 ||| e.2 := by
  rw [layout, h]
  rfl

theorem layout_above {v : Nat} (h : L.length ≤ v) : layout fixed L v = fixed v := by
  rw [layout, List.getElem?_eq_none h]
  rfl

theorem layout_push (e : Nat × Nat) :
    Function.update (layout fixed L) L.length (PA2PTE e.1 ||| e.2) = layout fixed (L ++ [e]) := by
  funext v
  by_cases hv : v = L.length
  · subst hv
    rw [Function.update_self, layout_user (e := e) (by simp)]
  · rw [Function.update_of_ne hv]
    by_cases hlt : v < L.length
    · rw [layout, layout, List.getElem?_append_left hlt]
    · rw [layout_above (by omega), layout_above (by simp; omega)]

theorem layout_update_fixed {v : Nat} (h : L.length ≤ v) (x : Nat) :
    Function.update (layout fixed L) v x = layout (Function.update fixed v x) L := by
  funext w
  by_cases hw : w = v
  · subst hw
    rw [Function.update_self, layout_above h, Function.update_self]
  · rw [Function.update_of_ne hw, layout, layout, Function.update_of_ne hw]

theorem layout_take (hfixed : High fixed) (hL : L.length ≤ NPAGES) (hn : n ≤ L.length) :
    removePages (layout fixed L) n (L.length - n) = layout fixed (L.take n) := by
  funext v
  by_cases hv : n ≤ v ∧ v < n + (L.length - n)
  · rw [removePages, if_pos hv, layout_above (by simp; omega), hfixed v (by omega)]
  · rw [removePages, if_neg hv]
    by_cases hlt : v < n
    · rw [layout, layout, List.getElem?_take_of_lt hlt]
    · rw [layout_above (by omega), layout_above (by simp; omega)]

namespace LeafFlags

variable {fl : Nat}

theorem isLeaf (h : LeafFlags fl) (pa : Nat) : IsLeaf (PA2PTE pa ||| fl) := by
  refine ⟨?_, ?_⟩
  · rw [or_and_flag pa h.1 (by decide)]
    exact h.2.1
  · rw [PTE_FLAGS_or pa h.1]
    intro heq
    apply h.2.2
    rw [heq]
    rfl

theorem user {xperm : Nat} (h : xperm < 1024) :
    LeafFlags (PTE_R ||| PTE_U ||| xperm ||| PTE_V) := by
  refine ⟨?_, PTE_V_iff.mpr ?_, PTE_R_iff.mpr ?_⟩
  · exact Nat.or_lt_two_pow (n := 10) (Nat.or_lt_two_pow (by decide) h) (by decide)
  · simp [PTE_V]
  · rw [Nat.testBit_or, Nat.testBit_or, Nat.testBit_or]
    rfl

end LeafFlags

namespace Space

theorem allocatable (h : Space m root fixed T L) (he : e ∈ L) : m.image.Allocatable e.1 :=
  h.owned.ok_held (Multiset.mem_add.mpr (.inr (mem_leaves he)))

theorem owned_tables (h : Space m root fixed T L) : m.Owned T := h.owned.left

theorem length_le (h : Space m root fixed T L) : L.length ≤ NPAGES := by
  have hcard := h.owned.card_le
  rw [Multiset.card_add] at hcard
  have hL : (leaves L).card = L.length := by simp [leaves]
  omega

theorem congr (h : Space m root fixed T L) (hpage : ∀ p ∈ T, m'.page p = m.page p)
    (hown : m'.Owned (T + leaves L)) : Space m' root fixed T L :=
  ⟨h.maps.congr hpage, h.flags, hown⟩

theorem frame (h : Space m root fixed T L) (ht : m.Trade m' X Y)
    (hown : m.Owned ((T + leaves L) + X)) : Space m' root fixed T L :=
  h.congr (fun _ hp => ht.unchanged hown (Multiset.mem_add.mpr (.inl hp)))
    ((ht.frame_left _).owned hown).left

theorem take (h : Space m root fixed T L) (ht : ∀ X, m.Trade m' X (X + Y)) :
    Space m' root fixed T L :=
  h.frame (ht 0) (by rw [add_zero]; exact h.owned)

theorem give (h : Space m root fixed T L) (ht : ∀ X, m.Trade m' (X + Y) X)
    (hown : m.Owned (T + leaves L + Y)) : Space m' root fixed T L := by
  have hgive := ht 0
  rw [zero_add] at hgive
  exact h.frame hgive hown

theorem frames_eq (h : Space m root fixed T L) (hn : n ≤ L.length) :
    frames (layout fixed L) n (L.length - n) = leaves (L.drop n) := by
  induction hk : L.length - n generalizing n with
  | zero =>
    rw [List.drop_eq_nil_of_le (by omega)]
    rfl
  | succ k ih =>
    have hlt : n < L.length := by omega
    have hmem : L[n] ∈ L := List.getElem_mem hlt
    rw [frames, ih (by omega) (by omega), List.drop_eq_getElem_cons hlt,
      layout_user (List.getElem?_eq_getElem hlt),
      (h.allocatable hmem).PTE2PA_or (h.flags _ hmem).1, add_comm]
    exact Multiset.singleton_add _ _

theorem unmap {Q : Unit → Mem → Prop} (h : Space m root fixed T L) (hfixed : High fixed)
    (hn : n ≤ L.length)
    (hdone : ∀ m', Space m' root fixed T (L.take n) → m.Trade m' (T + leaves (L.drop n)) T →
      Q () m') : Wp (uvmunmap root (n * 4096) (L.length - n) true) m P Q := by
  have hlen := h.length_le
  have hdiv : n * 4096 / 4096 = n := Nat.mul_div_cancel n (by decide)
  have hsplit := leaves_split L n
  refine uvmunmap_spec h.maps (.inr (Nat.mul_mod_left n 4096)) ?_ (.inr fun k hk => ?_) rfl
    (fun q hq => ?_) fun m' hm' ht' => ?_
  · unfold MAXVA
    rw [NPAGES_eq] at hlen
    omega
  · have hlt : n + k < L.length := by omega
    have hmem : L[n + k] ∈ L := List.getElem_mem hlt
    rw [hdiv, layout_user (List.getElem?_eq_getElem hlt),
      (h.allocatable hmem).PTE2PA_or (h.flags _ hmem).1]
    exact ⟨(h.flags _ hmem).isLeaf _, fun _ => h.allocatable hmem⟩
  · rw [if_pos rfl, hdiv, h.frames_eq hn] at hq
    have hq' : q ∈ leaves L := by
      rw [hsplit]
      exact Multiset.mem_add.mpr (.inr hq)
    exact fun hT => h.owned.disjoint hT hq'
  · rw [hdiv, layout_take hfixed hlen hn] at hm'
    rw [if_pos rfl, hdiv, h.frames_eq hn] at ht'
    exact hdone m' ⟨hm', fun e he => h.flags e (List.mem_of_mem_take he),
      (ht'.keep_take n).owned h.owned⟩ ht'

theorem tables_only (h : Space m root fixed T L) (hm : Maps m' root T' (layout fixed L))
    (ht : m.Trade m' T T') : Space m' root fixed T' L :=
  ⟨hm, h.flags, (ht.frame _).owned h.owned⟩

-- Mapping one more page at the end of the user part.
theorem push {Q : Int → Mem → Prop} {mem perm : Nat} (h : Space m root fixed T L)
    (hfixed : High fixed) (hown : m.Owned (T + leaves L + {mem})) (hperm : perm < 1024)
    (hflags : LeafFlags (perm ||| PTE_V))
    (hfail : ∀ m' T', T ≤ T' → Space m' root fixed T' L → m.Trade m' T T' → m.Short 2 →
      Q (-1) m')
    (hdone : ∀ m' T', T ≤ T' → Space m' root fixed T' (L ++ [(mem, perm ||| PTE_V)]) →
      m.Trade m' T T' → T'.card ≤ T.card + 2 → Q 0 m') :
    Wp (mappages root (L.length * 4096) PGSIZE mem perm) m P Q := by
  have hlen : L.length < NPAGES := by
    have hcard := hown.card_le
    have hL : (leaves L).card = L.length := by simp [leaves]
    rw [Multiset.card_add, Multiset.card_add, Multiset.card_singleton] at hcard
    omega
  have hdiv : L.length * 4096 / 4096 = L.length := Nat.mul_div_cancel _ (by decide)
  have hmem : m.image.Allocatable mem := hown.ok_held (by simp)
  refine mappages_page h.maps h.owned_tables (Nat.mul_mod_left _ _) ?_ ?_
    (hmem.lt.trans (by decide)) (hperm.trans (by decide))
    (fun m' T' hle hm' ht' => hfail m' T' hle (h.tables_only hm' ht') ht')
    fun m' T' hle hm' ht' hcard => hdone m' T' hle ⟨?_, fun e he => ?_, ?_⟩ ht' hcard
  · unfold MAXVA
    rw [NPAGES_eq] at hlen
    omega
  · rw [hdiv, layout_above le_rfl, hfixed _ hlen]
    rfl
  · rw [hdiv, Nat.lor_assoc] at hm'
    rwa [← layout_push]
  · rcases List.mem_append.mp he with he | he
    · exact h.flags e he
    · rw [List.mem_singleton.mp he]
      exact hflags
  · rw [leaves_push, ← add_assoc]
    exact ((ht'.frame (leaves L)).frame {mem}).owned hown

end Space

theorem pagesFor_le {n : Nat} (h : pagesFor sz ≤ n) : sz ≤ n * 4096 := by
  unfold pagesFor at h
  omega

theorem pagesFor_mono {sz' : Nat} (h : sz ≤ sz') : pagesFor sz ≤ pagesFor sz' := by
  unfold pagesFor
  omega

theorem PGROUNDUP_pages {n : Nat} (h : pagesFor sz ≤ n) (hn : n ≤ NPAGES) :
    PGROUNDUP sz = pagesFor sz * 4096 := by
  have hle := pagesFor_le h
  rw [NPAGES_eq] at hn
  exact PGROUNDUP_eq (by omega)

theorem i32_of_lt {x : Nat} (h : x < 0x80000000) : i32 x = x := by
  have hmod : x % 0x100000000 = x := Nat.mod_eq_of_lt (by omega)
  rw [i32, hmod, if_pos h]

theorem uvmdealloc_spec {Q : Nat → Mem → Prop} {oldsz newsz : Nat}
    (h : Space m root fixed T L) (hfixed : High fixed) (hold : L.length = pagesFor oldsz)
    (hdone : ∀ m', Space m' root fixed T (L.take (pagesFor (min oldsz newsz))) →
      m.Trade m' (T + leaves (L.drop (pagesFor (min oldsz newsz)))) T →
      Q (min oldsz newsz) m') : Wp (uvmdealloc root oldsz newsz) m P Q := by
  have hkeep : pagesFor (min oldsz newsz) = L.length →
      Q (min oldsz newsz) m := by
    intro heq
    have hd := hdone m
    rw [heq, List.take_length, List.drop_length, leaves_nil, add_zero] at hd
    exact hd h .refl
  refine Wp.ite (fun hge => Wp.pure ?_) fun hlt => ?_
  · rw [Nat.min_eq_left hge] at hkeep
    exact hkeep hold.symm
  · have hmin : min oldsz newsz = newsz := Nat.min_eq_right (by omega)
    rw [hmin] at hdone hkeep
    have hlen := h.length_le
    have hle : pagesFor newsz ≤ L.length := by
      rw [hold]
      exact pagesFor_mono (by omega)
    rw [PGROUNDUP_pages hle hlen, PGROUNDUP_pages hold.ge hlen]
    refine Wp.ite (fun hless => ?_) fun hless => Wp.pure (hkeep (by omega))
    have hcount : i32 ((pagesFor oldsz * 4096 - pagesFor newsz * 4096) / PGSIZE) =
        L.length - pagesFor newsz := by
      have hdiv : (pagesFor oldsz * 4096 - pagesFor newsz * 4096) / PGSIZE =
          L.length - pagesFor newsz := by
        unfold PGSIZE
        omega
      rw [hdiv]
      rw [NPAGES_eq] at hlen
      exact i32_of_lt (by omega)
    rw [hcount]
    exact Wp.bind (h.unmap hfixed hle fun m' hm' ht' => Wp.pure (hdone m' hm' ht'))

theorem uvmallocLoop_spec {Q : Nat → Mem → Prop} {oldsz newsz xperm fuel a : Nat}
    (h : Space m root fixed T L) (hfixed : High fixed) (ha : a = L.length * 4096)
    (hold : oldsz = n * 4096) (hn : n ≤ L.length) (hnew : L.length ≤ pagesFor newsz)
    (hxperm : xperm < 1024) (hfuel : m.freelist.length < fuel)
    (hfail : ∀ m' T', T ≤ T' → Space m' root fixed T' (L.take n) →
      m.Trade m' (T + leaves (L.drop n)) T' → m.Short (3 * (pagesFor newsz - L.length)) → Q 0 m')
    (hdone : ∀ m' T' A, T ≤ T' → (L ++ A).length = pagesFor newsz →
      (∀ e ∈ A, e.2 = PTE_R ||| PTE_U ||| xperm ||| PTE_V ∧ m'.page e.1 = .fill 0) →
      Space m' root fixed T' (L ++ A) → m.Trade m' T (T' + leaves A) → Q newsz m') :
    Wp (uvmallocLoop root oldsz newsz xperm fuel a) m P Q := by
  induction fuel generalizing m T L a with
  | zero => exact absurd hfuel (Nat.not_lt_zero _)
  | succ fuel ih =>
    subst ha
    -- giving back what this call has added
    have hundo : ∀ m₁ T₁, T ≤ T₁ → Space m₁ root fixed T₁ L → m.Trade m₁ T T₁ →
        m.Short (3 * (pagesFor newsz - L.length)) →
        Wp (do let _ ← uvmdealloc root (L.length * 4096) oldsz; return 0) m₁ P Q := by
      intro m₁ T₁ hle h₁ ht₁ hs
      have hpages : pagesFor (L.length * 4096) = L.length := by
        rw [pagesFor]
        omega
      have hmin : min (L.length * 4096) oldsz = oldsz := Nat.min_eq_right (by omega)
      have hold' : pagesFor oldsz = n := by
        rw [hold, pagesFor]
        omega
      refine Wp.bind (uvmdealloc_spec h₁ hfixed hpages.symm fun m' h' ht' => Wp.pure ?_)
      rw [hmin, hold'] at h' ht'
      exact hfail m' T₁ hle h' ((ht₁.frame _).trans ht') hs
    refine Wp.ite (fun hlt => ?_) fun hge => Wp.pure ?_
    · have hmore : L.length < pagesFor newsz := by
        unfold pagesFor
        omega
      refine Wp.bind (kalloc_spec (fun m₁ ht₁ hpool hs => ?_) fun mem m₁ hfree htake hkept => ?_)
      · exact hundo m₁ T le_rfl (h.frame (ht₁ 0) (by rw [add_zero]; exact h.owned)) (ht₁ _)
          (hs.mono (by omega))
      have ht₂ : ∀ X, m.Trade (m₁.setPage mem (.fill 0)) X (X + {mem}) := fun X =>
        (htake X).trans (.setPage _ (by simp))
      refine Wp.bind (memset_spec (Wp.bind ?_))
      refine (h.take ht₂).push hfixed ((ht₂ _).owned h.owned) ?_ (.user hxperm)
        (fun m₃ T₃ hle h₃ ht₃ hs => ?_) fun m₃ T₃ hle h₃ ht₃ hgrown => ?_
      · exact Nat.or_lt_two_pow (n := 10) (by decide) hxperm
      · -- no memory for an interior page
        have hall := (ht₂ T).trans (ht₃.frame {mem})
        have hown₃ := (hall.frame (leaves L)).owned h.owned
        rw [add_right_comm] at hown₃
        rw [if_pos (by decide)]
        refine Wp.bind (kfree_spec (.inr (hown₃.ok_held (by simp))) fun m₄ ht₄ _ => ?_)
        exact hundo m₄ T₃ hle (h₃.give ht₄ hown₃) (hall.trans (ht₄ _))
          (((ht₂ 0).short le_rfl hs).mono (by simp; omega))
      · have hall := (ht₂ T).trans (ht₃.frame {mem})
        have hzero : m₃.page mem = .fill 0 := by
          have hown := (ht₂ T).owned h.owned_tables
          rw [add_comm] at hown
          rw [ht₃.unchanged hown (Multiset.mem_singleton_self _)]
          exact Mem.setPage_self _ _ _
        have hlen := h₃.length_le
        rw [List.length_append, List.length_singleton] at hlen
        have hnext : u64 (L.length * 4096 + PGSIZE) = (L.length + 1) * 4096 := by
          rw [NPAGES_eq] at hlen
          unfold u64 PGSIZE
          omega
        have hcard := hall.card
        rw [Multiset.card_add, Multiset.card_singleton] at hcard
        have hgrow := Multiset.card_le_card hle
        rw [if_neg (by decide), hnext]
        refine ih h₃ (by simp) (by simp; omega) ?_ (by omega) (fun m' T' hle' h' ht' hs => ?_)
          fun m' T' A hle' hlen' hA h' ht' => ?_
        · rw [List.length_append, List.length_singleton, pagesFor]
          omega
        · rw [List.take_append_of_le_length hn] at h'
          rw [List.drop_append_of_le_length hn, leaves_push, ← add_assoc, add_right_comm] at ht'
          have hless : (T₃ + {mem}).card ≤ T.card + 3 := by simp; omega
          rw [List.length_append, List.length_singleton] at hs
          exact hfail m' T' (hle.trans hle') h' ((hall.frame _).trans ht')
            ((hall.short hless hs).mono (by omega))
        · have hkept : m'.page mem = .fill 0 := by
            have hown := h₃.owned
            rw [leaves_push, ← add_assoc, add_right_comm] at hown
            rw [ht'.unchanged (add_comm T₃ {mem} ▸ hown.left) (Multiset.mem_singleton_self _), hzero]
          have htrade := hall.trans (ht'.frame {mem})
          rw [add_assoc, ← leaves_push (PTE_R ||| PTE_U ||| xperm ||| PTE_V), leaves_append,
            add_comm (leaves A), ← leaves_append] at htrade
          rw [List.append_assoc] at h' hlen'
          refine hdone m' T' _ (hle.trans hle') hlen' (fun e he => ?_) h' htrade
          rcases List.mem_append.mp he with he | he
          · rw [List.mem_singleton.mp he]
            exact ⟨rfl, hkept⟩
          · exact hA e he
    · have hlast : pagesFor newsz ≤ L.length := by
        unfold pagesFor
        omega
      have hd := hdone m T [] le_rfl
      rw [List.append_nil, leaves_nil, add_zero] at hd
      exact hd (by omega) (fun e he => absurd he List.not_mem_nil) h .refl

theorem uvmalloc_spec {Q : Nat → Mem → Prop} {oldsz newsz xperm : Nat}
    (h : Space m root fixed T L) (hfixed : High fixed) (hold : L.length = pagesFor oldsz)
    (hxperm : xperm < 1024) (hless : newsz < oldsz → Q oldsz m)
    (hfail : ∀ m' T', oldsz ≤ newsz → T ≤ T' → Space m' root fixed T' L → m.Trade m' T T' →
      m.Short (3 * (pagesFor newsz - pagesFor oldsz)) → Q 0 m')
    (hdone : ∀ m' T' A, oldsz ≤ newsz → T ≤ T' → (L ++ A).length = pagesFor newsz →
      (∀ e ∈ A, e.2 = PTE_R ||| PTE_U ||| xperm ||| PTE_V ∧ m'.page e.1 = .fill 0) →
      Space m' root fixed T' (L ++ A) → m.Trade m' T (T' + leaves A) → Q newsz m') :
    Wp (uvmalloc root oldsz newsz xperm) m P Q := by
  refine Wp.ite (fun hlt => Wp.pure (hless hlt)) fun hge => Wp.bind (Wp.get ?_)
  replace hge : oldsz ≤ newsz := Nat.le_of_not_lt hge
  have hround : PGROUNDUP oldsz = L.length * 4096 := by
    rw [PGROUNDUP_pages hold.ge h.length_le, hold]
  rw [hround]
  refine uvmallocLoop_spec h hfixed rfl rfl le_rfl ?_ hxperm (Nat.lt_succ_self _)
    (fun m' T' hle h' ht' hs => ?_) fun m' T' A => hdone m' T' A hge
  · rw [hold]
    exact pagesFor_mono hge
  · rw [List.take_length] at h'
    rw [List.drop_length, leaves_nil, add_zero] at ht'
    exact hfail m' T' hge hle h' ht' (hold ▸ hs)

end Xv6
