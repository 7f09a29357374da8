import Xv6.Vm.Space

namespace Xv6

open Lib

-- A tree in which nothing is mapped.
structure Bare (m : Mem) (d t : Nat) : Prop where
  linked : ptes.Linked Interior m.load d t
  clear : ∀ ix, ptes.Path ix → ptes.lookup m.load d t ix &&& PTE_V = 0

-- The tables under the entries l of table t.
def below (m : Mem) (d t : Nat) (l : List Nat) : Multiset Nat :=
  (l.flatMap fun i => (ptes.link (m.load t i)).elim [] (ptes.tables m.load d) : List Nat)

variable {m m' : Mem} {root d t sz : Nat} {T : Multiset Nat} {L : List (Nat × Nat)}
  {P : Panic → Prop}

namespace Bare

theorem congr (h : Bare m d t) (hpage : ∀ p ∈ ptes.tables m.load d t, m'.page p = m.page p) :
    Bare m' d t := by
  have hload : ∀ p ∈ ptes.tables m.load d t, ∀ i ∈ ptes.idx, m'.load p i = m.load p i :=
    fun p hp i _ => by simp only [Mem.load, hpage p hp]
  refine ⟨h.linked.congr hload, fun ix hix => ?_⟩
  rw [Radix.lookup_congr hix hload]
  exact h.clear ix hix

theorem child {i c : Nat} (h : Bare m (d + 1) t) (hi : i ∈ ptes.idx)
    (hc : ptes.link (m.load t i) = some c) : Interior (m.load t i) ∧ Bare m d c := by
  refine ⟨(h.linked i hi c hc).1, (h.linked i hi c hc).2, fun ix hix => ?_⟩
  -- a path of the child, with the index of the child on top
  have hix' : ptes.Path (Function.update ix (d + 1) i) := by
    intro l
    by_cases hl : l = d + 1
    · subst hl
      rwa [Function.update_self]
    · rw [Function.update_of_ne hl]
      exact hix l
  have hclear := h.clear _ hix'
  rw [Radix.lookup_some (c := c) (by rwa [Function.update_self])] at hclear
  have hpath : ∀ l ≤ d, Function.update ix (d + 1) i l = ix l :=
    fun l hl => Function.update_of_ne (by omega) _ _
  rwa [Radix.lookup_path hpath] at hclear

end Bare

theorem Maps.bare {F : Nat → Nat} (h : Maps m root T F) (hF : ∀ v, F v &&& PTE_V = 0) :
    Bare m 2 root := by
  refine ⟨h.linked, fun ix hix => ?_⟩
  have h0 := mem_ptes_idx.mp (hix 0)
  have h1 := mem_ptes_idx.mp (hix 1)
  have h2 := mem_ptes_idx.mp (hix 2)
  have hpath : ∀ l ≤ 2, ix l = pageIndex (ix 2 * 262144 + ix 1 * 512 + ix 0) l := by
    intro l hl
    obtain rfl | rfl | rfl : l = 0 ∨ l = 1 ∨ l = 2 := by omega
    all_goals
      simp only [pageIndex]
      omega
  rw [Radix.lookup_path hpath, h.flat _ (by omega)]
  exact hF _

theorem below_cons (i : Nat) (l : List Nat) :
    below m d t (i :: l) = below m d t [i] + below m d t l := by
  simp [below]

theorem below_none {i : Nat} (h : ptes.link (m.load t i) = none) : below m d t [i] = 0 := by
  simp [below, h]

theorem below_some {i c : Nat} (h : ptes.link (m.load t i) = some c) :
    below m d t [i] = ptes.tables m.load d c := by
  simp [below, h]

theorem below_congr {l : List Nat} (ht : ∀ i ∈ l, m'.load t i = m.load t i)
    (hpage : ∀ p ∈ below m d t l, m'.page p = m.page p) : below m' d t l = below m d t l := by
  refine congrArg Multiset.ofList (List.flatMap_congr fun i hi => ?_)
  rw [ht i hi]
  cases hc : ptes.link (m.load t i) with
  | none => rw [Option.elim_none, Option.elim_none]
  | some c =>
    refine Radix.tables_congr fun p hp j _ => ?_
    have hmem : p ∈ below m d t l := by
      refine List.mem_flatMap.mpr ⟨i, hi, ?_⟩
      rw [hc]
      exact hp
    simp only [Mem.load, hpage p hmem]

-- Freeing the subtrees of the entries l clears these entries and touches nothing else.
theorem freeEntries_spec {free : Nat → MemM Unit} {l : List Nat} {Q : Unit → Mem → Prop}
    (hfree : ∀ m c, Bare m d c → m.Owned (ptes.tables m.load d c) → ∀ Q : Unit → Mem → Prop,
      (∀ m', m.Trade m' (ptes.tables m.load d c) 0 → Q () m') → Wp (free c) m P Q)
    (hl : l.Nodup) (hent : ∀ i ∈ l, ∀ c, ptes.link (m.load t i) = some c →
      Interior (m.load t i) ∧ Bare m d c) (hown : m.Owned ({t} + below m d t l))
    (hdone : ∀ m', m.Trade m' ({t} + below m d t l) {t} → Q () m') :
    Wp (freeEntries free t l) m P Q := by
  induction l generalizing m with
  | nil =>
    refine Wp.pure (hdone m ?_)
    simp only [below, List.flatMap_nil, Multiset.coe_nil, add_zero]
    exact .refl
  | cons i l ih =>
    obtain ⟨hil, hl⟩ := List.nodup_cons.mp hl
    rw [below_cons] at hown hdone
    refine Wp.bind (loadPte_spec ?_)
    by_cases hvalid : m.load t i &&& PTE_V = 0
    · rw [below_none (ptes_link_invalid hvalid), zero_add] at hown hdone
      rw [if_neg fun h => h.1 hvalid, if_neg (not_not.mpr hvalid)]
      exact ih hl (fun j hj => hent j (List.mem_cons_of_mem i hj)) hown hdone
    · have hc := ptes_link_valid hvalid
      obtain ⟨hint, hbare⟩ := hent i List.mem_cons_self _ hc
      rw [below_some hc, add_left_comm] at hown hdone
      rw [if_pos ⟨hvalid, hint⟩]
      refine Wp.bind (hfree m _ hbare hown.left _ fun m₁ ht₁ => Wp.bind (storePte_spec ?_))
      have hkept : ∀ p ∈ {t} + below m d t l, m₁.page p = m.page p := fun p hp =>
        ht₁.unchanged (by rwa [add_comm]) hp
      have htrade : m.Trade (m₁.store t i 0) (ptes.tables m.load d (PTE2PA (m.load t i)) +
          ({t} + below m d t l)) ({t} + below m d t l) := by
        have hframe := ht₁.frame ({t} + below m d t l)
        rw [zero_add] at hframe
        exact hframe.trans (.store (by simp))
      have hstore : ∀ p ∈ below m d t l, (m₁.store t i 0).page p = m.page p := by
        intro p hp
        have hpt : p ≠ t := by
          rintro rfl
          exact hown.right.disjoint (Multiset.mem_singleton_self p) hp
        rw [← hkept p (Multiset.mem_add.mpr (.inr hp))]
        exact Mem.setPage_other _ _ hpt
      have hload : ∀ j ∈ l, (m₁.store t i 0).load t j = m.load t j := by
        intro j hj
        have hji : j ≠ i := fun heq => hil (heq ▸ hj)
        rw [Mem.load_store_index _ hji]
        simp only [Mem.load, hkept t (by simp)]
      have hbelow := below_congr hload hstore
      refine ih hl (fun j hj c hjc => ?_) ?_ fun m' ht' => ?_
      · rw [hload j hj] at hjc ⊢
        obtain ⟨hint', hbare'⟩ := hent j (List.mem_cons_of_mem i hj) c hjc
        refine ⟨hint', hbare'.congr fun p hp => hstore p ?_⟩
        refine List.mem_flatMap.mpr ⟨j, hj, ?_⟩
        rw [hjc]
        exact hp
      · rw [hbelow]
        exact htrade.owned hown
      · rw [hbelow] at ht'
        exact hdone m' (htrade.trans ht')

theorem freeEntries_clear {free : Nat → MemM Unit} {l : List Nat} {Q : Unit → Mem → Prop}
    (hl : ∀ i ∈ l, m.load t i &&& PTE_V = 0) (hq : Q () m) : Wp (freeEntries free t l) m P Q := by
  induction l with
  | nil => exact Wp.pure hq
  | cons i l ih =>
    have hi := hl i List.mem_cons_self
    refine Wp.bind (loadPte_spec ?_)
    rw [if_neg fun h => h.1 hi, if_neg (not_not.mpr hi)]
    exact ih fun j hj => hl j (List.mem_cons_of_mem i hj)

theorem freewalk_spec {Q : Unit → Mem → Prop} (hbare : Bare m d t)
    (hown : m.Owned (ptes.tables m.load d t))
    (hdone : ∀ m', m.Trade m' (ptes.tables m.load d t) 0 → Q () m') :
    Wp (freewalk (d + 1) t) m P Q := by
  induction d generalizing m t Q with
  | zero =>
    rw [freewalk]
    refine Wp.bind (freeEntries_clear (fun i hi => ?_) (kfree_spec (.inr ?_) fun m' ht' _ => ?_))
    · exact hbare.clear (fun _ => i) fun _ => hi
    · exact hown.ok_held (mem_tables_self m 0 t)
    · have hgive := ht' 0
      rw [zero_add] at hgive
      exact hdone m' hgive
  | succ d ih =>
    have htables : (ptes.tables m.load (d + 1) t : Multiset Nat) =
        {t} + below m d t entryIndices := by
      rw [Radix.tables, ptes_idx, ← Multiset.cons_coe, Multiset.singleton_add, below]
    rw [htables] at hown hdone
    rw [freewalk]
    refine Wp.bind (freeEntries_spec (d := d) (fun m c hc hown Q hQ => ih hc hown hQ)
      nodup_entryIndices (fun i hi c hc => hbare.child hi hc) hown fun m₁ ht₁ => ?_)
    refine kfree_spec (.inr ((ht₁.owned hown).ok_held (Multiset.mem_singleton_self t)))
      fun m' ht' _ => ?_
    have hgive := ht' 0
    rw [zero_add] at hgive
    exact hdone m' (ht₁.trans hgive)

theorem uvmfree_spec {Q : Unit → Mem → Prop} (h : Space m root (fun _ => 0) T L)
    (hsz : L.length = pagesFor sz) (hdone : ∀ m', m.Trade m' (T + leaves L) 0 → Q () m') :
    Wp (uvmfree root sz) m P Q := by
  have hwalk : ∀ m₁, Space m₁ root (fun _ => 0) T [] → m.Trade m₁ (T + leaves L) T →
      Wp (freewalk 3 root) m₁ P Q := by
    intro m₁ h₁ ht₁
    refine freewalk_spec (d := 2) (h₁.maps.bare fun _ => by simp)
      (h₁.maps.owned_tables h₁.owned_tables) fun m' ht' => ?_
    rw [h₁.maps.tables] at ht'
    exact hdone m' (ht₁.trans ht')
  refine Wp.ite (fun hpos => ?_) fun hzero => ?_
  · have hround : PGROUNDUP sz / PGSIZE = L.length := by
      rw [PGROUNDUP_pages hsz.ge h.length_le, ← hsz]
      exact Nat.mul_div_cancel _ (by decide)
    have hunmap := h.unmap (n := 0) (P := P) (Q := fun _ m₁ => Wp (freewalk 3 root) m₁ P Q)
      (fun _ _ => rfl) (Nat.zero_le _) fun m₁ h₁ ht₁ => ?_
    · rw [hround]
      exact Wp.bind hunmap
    · rw [List.take_zero] at h₁
      rw [List.drop_zero] at ht₁
      exact hwalk m₁ h₁ ht₁
  · have hnil : L = [] := by
      rw [← List.length_eq_zero_iff, hsz, Nat.eq_zero_of_not_pos hzero]
      rfl
    subst hnil
    refine hwalk m h ?_
    rw [leaves_nil, add_zero]
    exact .refl

end Xv6
