import Xv6.Vm
import Xv6.Lib.Radix

namespace Xv6

open Lib

theorem mem_entryIndices {i : Nat} : i ∈ entryIndices ↔ i < 512 := by
  unfold entryIndices
  exact List.mem_range

theorem nodup_entryIndices : entryIndices.Nodup := by
  unfold entryIndices
  exact List.nodup_range

-- Page tables as trees: an entry with PTE_V above the bottom level links to a table.
def ptes : Radix Nat Nat Nat where
  idx := entryIndices
  link e := if e &&& PTE_V ≠ 0 then some (PTE2PA e) else none
  empty := 0
  nodup := nodup_entryIndices
  link_empty := by simp

-- An entry that freewalk takes for a link.
def Interior (e : Nat) : Prop :=
  e &&& (PTE_R ||| PTE_W ||| PTE_X) = 0

theorem ptes_link_valid {e : Nat} (h : e &&& PTE_V ≠ 0) : ptes.link e = some (PTE2PA e) :=
  if_pos h

theorem ptes_link_invalid {e : Nat} (h : e &&& PTE_V = 0) : ptes.link e = none :=
  if_neg (not_not.mpr h)

theorem ptes_idx : ptes.idx = entryIndices := rfl

theorem mem_ptes_idx {i : Nat} : i ∈ ptes.idx ↔ i < 512 := mem_entryIndices

theorem ptes_path (v : Nat) : ptes.Path (pageIndex v) :=
  fun l => mem_ptes_idx.mpr (pageIndex_lt v l)

theorem ptes_link_new {im : KernelImage} {page : Nat} (h : im.Allocatable page) :
    ptes.link (PA2PTE page ||| PTE_V) = some page ∧ Interior (PA2PTE page ||| PTE_V) ∧
      (PA2PTE page ||| PTE_V) < 0x10000000000000000 := by
  have hflag : (PA2PTE page ||| PTE_V) &&& PTE_V = 1 := or_and_flag page (by decide) (by decide)
  refine ⟨?_, or_and_flag page (by decide) (by decide), ?_⟩
  · rw [ptes_link_valid (by rw [hflag]; decide), h.PTE2PA_or (by decide)]
  · rw [PA2PTE_or page (by decide)]
    have hlt := h.lt
    unfold PTE_V
    omega

variable {m m' : Mem} {P : Panic → Prop} {d t va : Nat}

theorem loadPte_spec {pte : Nat × Nat} {Q : Nat → Mem → Prop} (h : Q (m.load pte.1 pte.2) m) :
    Wp (loadPte pte) m P Q := h

theorem storePte_spec {pte : Nat × Nat} {v : Nat} {Q : Unit → Mem → Prop}
    (h : Q () (m.store pte.1 pte.2 v)) : Wp (storePte pte v) m P Q := h

theorem memset_spec {pa : Nat} {c : UInt8} {Q : Unit → Mem → Prop}
    (h : Q () (m.setPage pa (.fill c))) : Wp (memset pa c) m P Q := h

theorem memmove_spec {dst src : Nat} {Q : Unit → Mem → Prop}
    (h : Q () (m.setPage dst (m.page src))) : Wp (memmove dst src) m P Q := h

theorem child_le {get : Nat → Nat → Nat} {i c : Nat} (hnd : (ptes.tables get (d + 1) t).Nodup)
    (hi : i ∈ ptes.idx) (hc : ptes.link (get t i) = some c) :
    (ptes.tables get d c : Multiset Nat) ≤ ptes.tables get (d + 1) t :=
  (Multiset.le_iff_subset (Multiset.coe_nodup.mpr (Radix.nodup_child hnd hi hc))).mpr
    fun _ hp => Radix.mem_tables_child hi hc hp

theorem mem_tables_self (m : Mem) (d t : Nat) : t ∈ (ptes.tables m.load d t : Multiset Nat) :=
  Radix.self_mem_tables

theorem tables_nodup (h : m.Owned (ptes.tables m.load d t)) : (ptes.tables m.load d t).Nodup :=
  Multiset.coe_nodup.mp h.nodup_held

theorem grows_child {new : List Nat} {i c : Nat} (hi : i ∈ ptes.idx)
    (hown : m.Owned (ptes.tables m.load (d + 1) t)) (hc : ptes.link (m.load t i) = some c)
    (hg : ptes.Grows Interior m.load m'.load d c new)
    (ht : m.Trade m' (ptes.tables m.load d c) (ptes.tables m.load d c + new)) :
    ptes.Grows Interior m.load m'.load (d + 1) t new ∧
      m.Trade m' (ptes.tables m.load (d + 1) t) (ptes.tables m.load (d + 1) t + new) ∧
      ∀ j, m'.load t j = m.load t j := by
  have hnd := tables_nodup hown
  obtain ⟨W, hW⟩ := Multiset.le_iff_exists_add.mp (child_le hnd hi hc)
  have hkept : ∀ p ∈ ptes.tables m.load (d + 1) t, p ∉ ptes.tables m.load d c →
      ∀ j, m'.load p j = m.load p j := by
    intro p hp hpc j
    have hpW : p ∈ W := by
      have hmem : p ∈ (ptes.tables m.load (d + 1) t : Multiset Nat) := hp
      rw [hW] at hmem
      exact (Multiset.mem_add.mp hmem).resolve_left hpc
    have hown' : m.Owned (W + ptes.tables m.load d c) := by rwa [add_comm, ← hW]
    simp only [Mem.load, ht.unchanged hown' hpW]
  refine ⟨hg.child hnd hi hc fun p hp hpc j _ => hkept p hp hpc j, ?_, ?_⟩
  · rw [hW, add_right_comm]
    exact ht.frame W
  · exact hkept t Radix.self_mem_tables (Radix.notMem_child hnd hi hc)

theorem leaf_above {get : Nat → Nat → Nat} {c v : Nat} {pte : Nat × Nat}
    (hc : ptes.link (get t (pageIndex v (d + 1))) = some c)
    (h : ptes.leaf get d c (pageIndex v) = some pte.1 ∧ pte.2 = pageIndex v 0) :
    ptes.leaf get (d + 1) t (pageIndex v) = some pte.1 ∧ pte.2 = pageIndex v 0 :=
  ⟨by rw [Radix.leaf_some hc, h.1], h.2⟩

theorem link_new {i page : Nat} {m₁ : Mem} (hi : i ∈ ptes.idx)
    (hown : m.Owned (ptes.tables m.load (d + 1) t)) (hinvalid : m.load t i &&& PTE_V = 0)
    (hfree : m.freelist = page :: m₁.freelist) (htake : ∀ X, m.Trade m₁ X (X + {page}))
    (hkept : ∀ q, q ≠ page → m₁.page q = m.page q)
    (hm' : m' = (m₁.setPage page (.fill 0)).store t i (PA2PTE page ||| PTE_V)) :
    ptes.Grows Interior m.load m'.load (d + 1) t [page] ∧
      m.Trade m' (ptes.tables m.load (d + 1) t) (ptes.tables m.load (d + 1) t + [page]) ∧
      ptes.link (m'.load t i) = some page ∧ ∀ e, ptes.tables m'.load e page = [page] := by
  have hpage : page ∈ m.freelist := by rw [hfree]; exact List.mem_cons_self
  have hnew : page ∉ ptes.tables m.load (d + 1) t := fun h => hown.notMem_free h hpage
  obtain ⟨hlink, hgood, hlt⟩ := ptes_link_new (hown.ok page (by simp [hpage]))
  have htp : t ≠ page := fun h => hnew (h ▸ Radix.self_mem_tables)
  have hhere : m'.load t i = PA2PTE page ||| PTE_V := by
    rw [hm', Mem.load_store_self _ (mem_ptes_idx.mp hi) hlt]
  have hempty : ∀ j ∈ ptes.idx, m'.load page j = 0 := by
    intro j _
    rw [hm', Mem.load_store_other _ htp.symm]
    simp [Mem.load, Mem.page]
  have hold : ∀ p, p ≠ page → ∀ j, (m₁.setPage page (.fill 0)).load p j = m.load p j := by
    intro p hp j
    rw [Mem.load_setPage_other _ _ hp]
    simp only [Mem.load, hkept p hp]
  refine ⟨Radix.Grows.alloc hi (ptes_link_invalid hinvalid) hlink hgood hhere ?_ hempty ?_
    (tables_nodup hown), ?_, by rw [hhere, hlink], fun e => Radix.Grows.tables_empty hempty⟩
  · intro j _ hji
    rw [hm', Mem.load_store_index _ hji, hold t htp]
  · intro p hp hpt j _
    rw [hm', Mem.load_store_other _ hpt, hold p fun h => hnew (h ▸ hp)]
  · have hall := ((htake (ptes.tables m.load (d + 1) t)).trans
      (.setPage (.fill 0) (Multiset.mem_add.mpr (.inr (Multiset.mem_singleton_self _))))).trans
      (.store (k := i) (v := PA2PTE page ||| PTE_V)
        (Multiset.mem_add.mpr (.inl (mem_tables_self m (d + 1) t))))
    rwa [← hm'] at hall

theorem walkLevels_alloc (hown : m.Owned (ptes.tables m.load d t)) :
    Wp (walkLevels true d t va) m P fun r m' =>
      ∃ new : List Nat, ptes.Grows Interior m.load m'.load d t new ∧
        m.Trade m' (ptes.tables m.load d t) (ptes.tables m.load d t + new) ∧
        new.length ≤ d ∧ (r = none → m.Short d) ∧
        ∀ pte, r = some pte → ptes.leaf m'.load d t (pageIndex (va / 4096)) = some pte.1 ∧
          pte.2 = pageIndex (va / 4096) 0 := by
  induction d generalizing t m with
  | zero =>
    refine Wp.pure ⟨[], .refl, by rw [Multiset.coe_nil, add_zero]; exact .refl, le_rfl,
      (fun hn => by cases hn), ?_⟩
    intro pte hpte
    cases hpte
    exact ⟨rfl, PX_eq 0 va⟩
  | succ d ih =>
    have hi := ptes_path (va / 4096) (d + 1)
    have hnd := tables_nodup hown
    refine Wp.bind (loadPte_spec ?_)
    simp only [PX_eq]
    refine Wp.ite (fun hvalid => ?_) fun hinvalid => Wp.ite (fun h => by cases h) fun _ => ?_
    · -- the table of the next level exists
      have hc := ptes_link_valid hvalid
      refine (ih (hown.mono (child_le hnd hi hc))).post fun r m' hpost => ?_
      obtain ⟨new, hg, ht, hle, hs, hr⟩ := hpost
      obtain ⟨hg', ht', hsame⟩ := grows_child hi hown hc hg ht
      refine ⟨new, hg', ht', Nat.le_succ_of_le hle, fun hn => (hs hn).mono (Nat.le_succ d),
        fun pte hpte => leaf_above ?_ (hr pte hpte)⟩
      rw [hsame, hc]
    · refine Wp.bind (kalloc_spec (fun m' htrade hpool hs => ?_) fun page m₁ hfree htake hkept => ?_)
      · have hload : m'.load = m.load := by
          funext p k
          simp only [Mem.load, Mem.page, hpool]
        refine Wp.pure ⟨[], ?_, ?_, Nat.zero_le _, fun _ => hs.mono (Nat.le_add_left 1 d),
          fun pte hpte => by cases hpte⟩
        · rw [hload]
          exact .refl
        · rw [Multiset.coe_nil, add_zero]
          exact htrade _
      · -- it is new, and the walk goes on in it
        refine Wp.bind (memset_spec (Wp.bind (storePte_spec ?_)))
        obtain ⟨hg₁, ht₁, hc, hfresh⟩ :=
          link_new hi hown (not_not.mp hinvalid) hfree htake hkept rfl
        have htables := Multiset.coe_eq_coe.mpr hg₁.tables
        rw [← Multiset.coe_add] at htables
        have hown₁ := ht₁.owned hown
        rw [← htables] at hown₁
        refine (ih (hown₁.mono (child_le (tables_nodup hown₁) hi hc))).post
          fun r m' hpost => ?_
        obtain ⟨new, hg, ht, hle, hs, hr⟩ := hpost
        obtain ⟨hg', ht', hsame⟩ := grows_child hi hown₁ hc hg ht
        refine ⟨[page] ++ new, hg₁.trans hg', ?_, Nat.succ_le_succ hle,
          fun hn => ht₁.short (by simp) (hs hn), fun pte hpte => leaf_above ?_ (hr pte hpte)⟩
        · rw [htables, add_assoc, Multiset.coe_add] at ht'
          exact ht₁.trans ht'
        · rw [hsame, hc]

theorem walkLevels_find {Q : Option (Nat × Nat) → Mem → Prop}
    (hq : Q ((ptes.leaf m.load d t (pageIndex (va / 4096))).map
      fun p => (p, pageIndex (va / 4096) 0)) m) : Wp (walkLevels false d t va) m P Q := by
  induction d generalizing t with
  | zero =>
    refine Wp.pure ?_
    rw [PX_eq]
    exact hq
  | succ d ih =>
    refine Wp.bind (loadPte_spec ?_)
    simp only [PX_eq]
    refine Wp.ite (fun hvalid => ih ?_) fun hinvalid => ?_
    · rwa [Radix.leaf_some (ptes_link_valid hvalid)] at hq
    · rw [if_pos trivial]
      rw [Radix.leaf_none (ptes_link_invalid (not_not.mp hinvalid))] at hq
      exact Wp.pure hq

end Xv6
