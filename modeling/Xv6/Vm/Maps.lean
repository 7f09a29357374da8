import Xv6.Vm.Walk

namespace Xv6

open Lib

-- The page table at root has the interior pages T, none of them shared, and is the flat
-- map F from the numbers of virtual pages to entries.
structure Maps (m : Mem) (root : Nat) (T : Multiset Nat) (F : Nat → Nat) : Prop where
  tables : (ptes.tables m.load 2 root : Multiset Nat) = T
  nodup : T.Nodup
  linked : ptes.Linked Interior m.load 2 root
  flat : ∀ v < 0x8000000, ptes.lookup m.load 2 root (pageIndex v) = F v

-- A pointer to the entry of page v.
structure Slot (m : Mem) (root : Nat) (T : Multiset Nat) (F : Nat → Nat) (v : Nat)
    (pte : Nat × Nat) : Prop where
  mem : pte.1 ∈ T
  load : m.load pte.1 pte.2 = F v
  store : ∀ e, e < 0x10000000000000000 →
    Maps (m.store pte.1 pte.2 e) root T (Function.update F v e)

variable {m m' : Mem} {root va v : Nat} {T T' U W X Y : Multiset Nat} {F : Nat → Nat}
  {P : Panic → Prop}

namespace Maps

theorem congr (h : Maps m root T F) (hpage : ∀ p ∈ T, m'.page p = m.page p) :
    Maps m' root T F := by
  have hload : ∀ p ∈ ptes.tables m.load 2 root, ∀ i ∈ ptes.idx, m'.load p i = m.load p i := by
    intro p hp i _
    have hmem : p ∈ T := by rw [← h.tables]; exact hp
    simp only [Mem.load, hpage p hmem]
  refine ⟨?_, h.nodup, h.linked.congr hload, fun v hv => ?_⟩
  · rw [Radix.tables_congr hload, h.tables]
  · rw [Radix.lookup_congr (ptes_path v) hload, h.flat v hv]

theorem owned_tables (h : Maps m root T F) (hown : m.Owned T) :
    m.Owned (ptes.tables m.load 2 root) := by
  rwa [h.tables]

theorem root_mem (h : Maps m root T F) : root ∈ T := by
  rw [← h.tables]
  exact Radix.self_mem_tables

theorem slot (h : Maps m root T F) (hv : v < 0x8000000) {pte : Nat × Nat}
    (hleaf : ptes.leaf m.load 2 root (pageIndex v) = some pte.1) (hidx : pte.2 = pageIndex v 0) :
    Slot m root T F v pte := by
  have hnd : (ptes.tables m.load 2 root).Nodup := by
    rw [← Multiset.coe_nodup, h.tables]
    exact h.nodup
  have hpath := ptes_path v
  refine ⟨?_, ?_, fun e he => ?_⟩
  · rw [← h.tables]
    exact Radix.leaf_mem_tables hpath hleaf
  · rw [hidx, ← h.flat v hv, Radix.lookup_of_leaf hleaf]
  · rw [hidx]
    have hw : ptes.Written m.load (m.store pte.1 (pageIndex v 0) e).load pte.1 (pageIndex v 0) e :=
      ⟨Mem.load_store_self m (pageIndex_lt v 0) he, fun j _ hj => Mem.load_store_index m hj,
        fun q hq j _ => Mem.load_store_other m hq j⟩
    refine ⟨?_, h.nodup, hw.linked hpath hnd hleaf h.linked, fun w hw' => ?_⟩
    · rw [hw.tables hpath hnd hleaf, h.tables]
    · by_cases hwv : w = v
      · subst hwv
        rw [hw.lookup_self hpath hnd hleaf, Function.update_self]
      · rw [Function.update_of_ne hwv, ← h.flat w hw']
        refine hw.lookup_other hpath (ptes_path w) hnd hleaf ?_
        by_contra hall
        push Not at hall
        exact hwv (pageIndex_injective hw' hv hall)

end Maps

theorem Maps.empty (h : m.page root = .fill 0) : Maps m root {root} fun _ => 0 := by
  have hempty : ∀ j ∈ ptes.idx, m.load root j = ptes.empty := by
    intro j _
    rw [Mem.load, h]
    exact Page.word_fill_zero j
  refine ⟨?_, Multiset.nodup_singleton root, Radix.Grows.linked_empty hempty,
    fun v _ => Radix.Grows.lookup_empty (ptes_path v) hempty⟩
  rw [Radix.Grows.tables_empty hempty]
  rfl

theorem Slot.congr {pte : Nat × Nat} (h : Slot m root T F v pte)
    (hpage : ∀ p ∈ T, m'.page p = m.page p) : Slot m' root T F v pte := by
  refine ⟨h.mem, ?_, fun e he => (h.store e he).congr fun p hp => ?_⟩
  · rw [← h.load]
    simp only [Mem.load, hpage _ h.mem]
  · by_cases hpt : p = pte.1
    · simp_all [Mem.store]
    · simp only [Mem.store, Mem.page, Mem.setPage_other _ _ hpt]
      exact hpage p hp

theorem vpn_lt (h : va < MAXVA) : va / 4096 < 0x8000000 := by
  unfold MAXVA at h
  omega

theorem walk_alloc_spec {Q : Option (Nat × Nat) → Mem → Prop} (h : Maps m root T F)
    (hown : m.Owned T) (hpanic : MAXVA ≤ va → P .walk)
    (hnone : ∀ m' T', T ≤ T' → Maps m' root T' F → m.Trade m' T T' → m.Short 2 → Q none m')
    (hsome : ∀ m' T' pte, va < MAXVA → T ≤ T' → Maps m' root T' F → m.Trade m' T T' →
      T'.card ≤ T.card + 2 → Slot m' root T' F (va / 4096) pte → Q (some pte) m') : Wp (walk root va true) m P Q := by
  refine Wp.ite (fun hva => Wp.throw (hpanic hva)) fun hva => ?_
  have hlt : va < MAXVA := Nat.lt_of_not_le hva
  refine (walkLevels_alloc (h.owned_tables hown)).post fun r m' hpost => ?_
  obtain ⟨new, hg, ht, hle, hs, hr⟩ := hpost
  rw [h.tables] at ht
  have hmaps : Maps m' root (T + new) F := by
    refine ⟨?_, (ht.owned hown).nodup_held, hg.linked h.linked, fun v hv => ?_⟩
    · rw [Multiset.coe_eq_coe.mpr hg.tables, ← Multiset.coe_add, h.tables]
    · rw [hg.lookup _ (ptes_path v), h.flat v hv]
  cases r with
  | none => exact hnone m' _ (Multiset.le_add_right _ _) hmaps ht (hs rfl)
  | some pte =>
    obtain ⟨hleaf, hidx⟩ := hr pte rfl
    exact hsome m' _ pte hlt (Multiset.le_add_right _ _) hmaps ht (by simpa)
      (hmaps.slot (vpn_lt hlt) hleaf hidx)

theorem walk_spec {Q : Option (Nat × Nat) → Mem → Prop} (h : Maps m root T F)
    (hpanic : MAXVA ≤ va → P .walk) (hnone : F (va / 4096) = 0 → Q none m)
    (hsome : ∀ pte, Slot m root T F (va / 4096) pte → Q (some pte) m) :
    Wp (walk root va false) m P Q := by
  refine Wp.ite (fun hva => Wp.throw (hpanic hva)) fun hva => walkLevels_find ?_
  have hv := vpn_lt (Nat.lt_of_not_le hva)
  cases hleaf : ptes.leaf m.load 2 root (pageIndex (va / 4096)) with
  | none =>
    apply hnone
    rw [← h.flat _ hv, Radix.lookup_of_no_leaf hleaf]
    rfl
  | some p => exact hsome _ (h.slot hv hleaf rfl)

-- The flat map with n pages from v on mapped to the pages from pa on.
def addPages (F : Nat → Nat) (v pa perm n : Nat) (w : Nat) : Nat :=
  if v ≤ w ∧ w < v + n then PA2PTE (u64 (pa + (w - v) * PGSIZE)) ||| perm ||| PTE_V else F w

def removePages (F : Nat → Nat) (v n : Nat) (w : Nat) : Nat :=
  if v ≤ w ∧ w < v + n then 0 else F w

theorem addPages_zero (F : Nat → Nat) (v pa perm : Nat) : addPages F v pa perm 0 = F := by
  funext w
  exact if_neg fun h => by omega

theorem addPages_succ (F : Nat → Nat) (v perm n : Nat) {pa : Nat}
    (hpa : pa < 0x10000000000000000) :
    addPages (Function.update F v (PA2PTE pa ||| perm ||| PTE_V)) (v + 1) (u64 (pa + PGSIZE))
      perm n = addPages F v pa perm (n + 1) := by
  funext w
  by_cases hwv : w = v
  · subst hwv
    have hself : u64 (pa + (w - w) * PGSIZE) = pa := by
      rw [Nat.sub_self, Nat.zero_mul, Nat.add_zero, u64_of_lt hpa]
    rw [addPages, if_neg fun h => by omega, Function.update_self, addPages, if_pos (by omega),
      hself]
  · rw [addPages, addPages, Function.update_of_ne hwv]
    by_cases hw : v + 1 ≤ w ∧ w < v + 1 + n
    · have hoff : u64 (u64 (pa + PGSIZE) + (w - (v + 1)) * PGSIZE) =
          u64 (pa + (w - v) * PGSIZE) := by
        unfold u64 PGSIZE
        omega
      rw [if_pos hw, if_pos (by omega), hoff]
    · rw [if_neg hw, if_neg (by omega)]

theorem removePages_zero (F : Nat → Nat) (v : Nat) : removePages F v 0 = F := by
  funext w
  exact if_neg fun h => by omega

theorem removePages_succ (F : Nat → Nat) (v n : Nat) :
    removePages (Function.update F v 0) (v + 1) n = removePages F v (n + 1) := by
  funext w
  by_cases hwv : w = v
  · subst hwv
    rw [removePages, if_neg fun h => by omega, Function.update_self, removePages,
      if_pos (by omega)]
  grind [removePages]

theorem entry_lt {pa perm : Nat} (hpa : pa < 0x10000000000000000)
    (hperm : perm < 0x10000000000000000) :
    (PA2PTE pa ||| perm ||| PTE_V) < 0x10000000000000000 := by
  have h : PA2PTE pa < 2 ^ 64 := by
    rw [PA2PTE, Nat.shiftLeft_eq, Nat.shiftRight_eq_div_pow]
    omega
  exact Nat.or_lt_two_pow (Nat.or_lt_two_pow h hperm) (by decide)

-- Either the code must not panic, and then the range is free and inside the address space,
-- or any panic will do.
theorem mappagesLoop_spec {Q : Int → Mem → Prop} {perm n a pa last : Nat}
    (h : Maps m root T F) (hown : m.Owned T) (ha : a % 4096 = 0) (hn : n ≤ 0x10000000000000)
    (hn0 : 0 < n) (hlast : last = u64 (a + n * 4096 - 4096))
    (hsafe : (∀ e, P e) ∨ a + n * 4096 ≤ MAXVA ∧ ∀ k < n, F (a / 4096 + k) &&& PTE_V = 0)
    (hpa : pa < 0x10000000000000000) (hperm : perm < 0x10000000000000000)
    (hfail : ∀ m' T' k, k < n → T ≤ T' → Maps m' root T' (addPages F (a / 4096) pa perm k) →
      m.Trade m' T T' → m.Short (2 * n) → Q (-1) m')
    (hdone : ∀ m' T', a + n * 4096 ≤ MAXVA → T ≤ T' →
      Maps m' root T' (addPages F (a / 4096) pa perm n) → m.Trade m' T T' →
      T'.card ≤ T.card + 2 * n → Q 0 m') :
    Wp (mappagesLoop root last perm n a pa) m P Q := by
  induction n generalizing m T F a pa with
  | zero => exact absurd hn0 (Nat.lt_irrefl 0)
  | succ n ih =>
    refine Wp.bind (walk_alloc_spec h hown ?_ (fun m' T' hle hm' ht' hs => ?_)
      fun m₁ T₁ pte hlt hle hm₁ ht₁ hcard hslot => ?_)
    · intro hva
      exact hsafe.elim (fun hp => hp _) fun hfit => absurd hfit.1 (by omega)
    · refine Wp.pure (hfail m' T' 0 hn0 hle ?_ ht' (hs.mono (by omega)))
      rwa [addPages_zero]
    · refine Wp.bind (loadPte_spec ?_)
      rw [hslot.load]
      refine Wp.ite (fun hvalid => Wp.throw ?_) fun _ => Wp.bind (storePte_spec ?_)
      · exact hsafe.elim (fun hp => hp _) fun hfit => absurd (hfit.2 0 hn0) hvalid
      have hm₂ := hslot.store _ (entry_lt hpa hperm)
      have ht₂ := ht₁.trans
        (.store (k := pte.2) (v := PA2PTE pa ||| perm ||| PTE_V) hslot.mem)
      have hrange : a < 0x4000000000 := hlt
      by_cases hn1 : n = 0
      · have hend : a = last := by
          rw [hlast, hn1, u64_of_lt (by omega)]
          omega
        rw [if_pos hend]
        refine Wp.pure (hdone _ _ ?_ hle ?_ ht₂ (by omega))
        · unfold MAXVA
          omega
        · rw [← addPages_succ F (a / 4096) perm n hpa, hn1, addPages_zero]
          exact hm₂
      · -- more pages: the end of the range is another address, also modulo 2^64
        have hnot : a ≠ last := by
          rw [hlast, u64]
          omega
        have hnext : u64 (a + PGSIZE) = a + 4096 := u64_of_lt (by unfold PGSIZE; omega)
        have hdiv : (a + 4096) / 4096 = a / 4096 + 1 := by omega
        rw [if_neg hnot, hnext]
        refine ih hm₂ (ht₂.owned hown) (by omega) (by omega) (by omega)
          (hlast.trans (congrArg u64 (by omega))) ?_ (u64_lt _)
          (fun m' T' k hk hle' hm' ht' hs => ?_) fun m' T' hfit hle' hm' ht' hcard' => ?_
        · refine hsafe.imp_right fun hfit => ⟨by omega, fun k hk => ?_⟩
          rw [hdiv, Function.update_of_ne (by omega), Nat.add_assoc, Nat.add_comm 1 k]
          exact hfit.2 (k + 1) (by omega)
        · rw [hdiv, addPages_succ F _ perm k hpa] at hm'
          exact hfail m' T' (k + 1) (by omega) (hle.trans hle') hm' (ht₂.trans ht') (ht₂.short hcard hs)
        · rw [hdiv, addPages_succ F _ perm n hpa] at hm'
          exact hdone m' T' (by omega) (hle.trans hle') hm' (ht₂.trans ht') (by omega)

theorem mappages_spec {Q : Int → Mem → Prop} {perm size pa : Nat} (h : Maps m root T F)
    (hown : m.Owned T)
    (hsafe : (∀ e, P e) ∨ va % 4096 = 0 ∧ size % 4096 = 0 ∧ 0 < size ∧ va + size ≤ MAXVA ∧
      ∀ k < size / 4096, F (va / 4096 + k) &&& PTE_V = 0)
    (hsize : size < 0x10000000000000000) (hpa : pa < 0x10000000000000000)
    (hperm : perm < 0x10000000000000000)
    (hfail : ∀ m' T' k, k < size / 4096 → T ≤ T' →
      Maps m' root T' (addPages F (va / 4096) pa perm k) → m.Trade m' T T' →
      m.Short (2 * (size / 4096)) → Q (-1) m')
    (hdone : ∀ m' T', va + size ≤ MAXVA → T ≤ T' →
      Maps m' root T' (addPages F (va / 4096) pa perm (size / 4096)) →
      m.Trade m' T T' → T'.card ≤ T.card + 2 * (size / 4096) → Q 0 m') : Wp (mappages root va size pa perm) m P Q := by
  have hpanic : ∀ {c : Prop}, (va % 4096 = 0 → size % 4096 = 0 → 0 < size → ¬c) → c →
      ∀ e, P e := by
    intro c hc hcond
    exact hsafe.elim (fun hp => hp) fun hok => absurd hcond (hc hok.1 hok.2.1 hok.2.2.1)
  refine Wp.ite (fun hc => Wp.throw (hpanic (fun hva _ _ hc => hc hva) hc _)) fun hva =>
    Wp.ite (fun hc => Wp.throw (hpanic (fun _ hs _ hc => hc hs) hc _)) fun hs =>
    Wp.ite (fun hc => Wp.throw (hpanic (fun _ _ hpos hc => hpos.ne' hc) hc _)) fun hpos => ?_
  replace hva : va % 4096 = 0 := not_not.mp hva
  replace hs : size % 4096 = 0 := not_not.mp hs
  have hn : size / PGSIZE * 4096 = size := Nat.div_mul_cancel (Nat.dvd_of_mod_eq_zero hs)
  refine mappagesLoop_spec h hown hva ?_ ?_ ?_ ?_ hpa hperm hfail
    fun m' T' hfit hle hm' ht' hcard => ?_
  · unfold PGSIZE
    omega
  · unfold PGSIZE
    omega
  · rw [hn]
    rfl
  · refine hsafe.imp_right fun hok => ⟨?_, hok.2.2.2.2⟩
    rw [hn]
    exact hok.2.2.2.1
  · rw [hn] at hfit
    exact hdone m' T' hfit hle hm' ht' hcard

theorem mappages_page {Q : Int → Mem → Prop} {perm pa : Nat} (h : Maps m root T F)
    (hown : m.Owned T) (hva : va % 4096 = 0) (hlt : va < MAXVA)
    (hfree : F (va / 4096) &&& PTE_V = 0) (hpa : pa < 0x10000000000000000)
    (hperm : perm < 0x10000000000000000)
    (hfail : ∀ m' T', T ≤ T' → Maps m' root T' F → m.Trade m' T T' → m.Short 2 → Q (-1) m')
    (hdone : ∀ m' T', T ≤ T' →
      Maps m' root T' (Function.update F (va / 4096) (PA2PTE pa ||| perm ||| PTE_V)) →
      m.Trade m' T T' → T'.card ≤ T.card + 2 → Q 0 m') : Wp (mappages root va PGSIZE pa perm) m P Q := by
  have hfit : va + PGSIZE ≤ MAXVA := by
    unfold MAXVA PGSIZE at *
    omega
  have hsafe : ∀ k < PGSIZE / 4096, F (va / 4096 + k) &&& PTE_V = 0 := by
    intro k hk
    rwa [Nat.lt_one_iff.mp hk, Nat.add_zero]
  refine mappages_spec h hown (.inr ⟨hva, rfl, by decide, hfit, hsafe⟩) (by decide) hpa hperm
    (fun m' T' k hk hle hm' ht' hs => ?_) fun m' T' _ hle hm' ht' hcard => ?_
  · rw [Nat.lt_one_iff.mp hk, addPages_zero] at hm'
    exact hfail m' T' hle hm' ht' hs
  · have hone := addPages_succ F (va / 4096) perm 0 hpa
    rw [addPages_zero] at hone
    rw [show PGSIZE / 4096 = 0 + 1 from rfl, ← hone] at hm'
    exact hdone m' T' hle hm' ht' hcard

-- The physical pages behind n pages from v on.
def frames (F : Nat → Nat) : Nat → Nat → Multiset Nat
  | _, 0 => 0
  | v, n + 1 => frames F (v + 1) n + {PTE2PA (F v)}

theorem frames_congr {G : Nat → Nat} {n : Nat} (h : ∀ k < n, G (v + k) = F (v + k)) :
    frames G v n = frames F v n := by
  induction n generalizing v with
  | zero => rfl
  | succ n ih =>
    have h0 : G v = F v := h 0 (Nat.succ_pos n)
    rw [frames, frames, h0]
    congr 1
    refine ih fun k hk => ?_
    rw [Nat.add_assoc, Nat.add_comm 1 k]
    exact h (k + 1) (Nat.succ_lt_succ hk)

theorem mem_frames {n q : Nat} : q ∈ frames F v n ↔ ∃ k < n, q = PTE2PA (F (v + k)) := by
  induction n generalizing v with
  | zero => simp [frames]
  | succ n ih =>
    rw [frames, Multiset.mem_add, Multiset.mem_singleton, ih]
    constructor
    · rintro (⟨k, hk, rfl⟩ | rfl)
      · exact ⟨k + 1, Nat.succ_lt_succ hk, by rw [Nat.add_assoc, Nat.add_comm 1 k]⟩
      · exact ⟨0, Nat.succ_pos n, rfl⟩
    · rintro ⟨k, hk, rfl⟩
      cases k with
      | zero => exact .inr rfl
      | succ k =>
        exact .inl ⟨k, Nat.lt_of_succ_lt_succ hk, by rw [Nat.add_assoc, Nat.add_comm 1 k]⟩

def IsLeaf (e : Nat) : Prop :=
  e &&& PTE_V ≠ 0 ∧ PTE_FLAGS e ≠ PTE_V

theorem uvmunmapLoop_spec {Q : Unit → Mem → Prop} {n a stop : Nat} {doFree : Bool}
    (h : Maps m root T F) (ha : a % 4096 = 0) (hfit : a + n * 4096 ≤ MAXVA)
    (hstop : stop = a + n * 4096)
    (hsafe : (∀ e, P e) ∨ ∀ k < n, IsLeaf (F (a / 4096 + k)) ∧
      (doFree = true → m.image.Allocatable (PTE2PA (F (a / 4096 + k)))))
    (hU : U = if doFree then frames F (a / 4096) n else 0) (hsep : ∀ q ∈ U, q ∉ T)
    (hdone : ∀ m', Maps m' root T (removePages F (a / 4096) n) → m.Trade m' (T + U) T →
      Q () m') : Wp (uvmunmapLoop root stop doFree n a) m P Q := by
  induction n generalizing m F a U with
  | zero =>
    have hU0 : U = 0 := by
      rw [hU]
      cases doFree <;> rfl
    refine Wp.pure (hdone m ?_ ?_)
    · rwa [removePages_zero]
    · rw [hU0, add_zero]
      exact .refl
  | succ n ih =>
    have hlt : a < MAXVA := by omega
    have hpanic : ∀ {c : Prop} {e : Panic}, (IsLeaf (F (a / 4096)) → ¬c) → c → P e := by
      intro c e hc hcond
      exact hsafe.elim (fun hp => hp e) fun hok => absurd hcond (hc (hok 0 (by omega)).1)
    rw [uvmunmapLoop, if_pos (by omega)]
    refine Wp.bind (walk_spec h (fun hva => absurd hlt (by omega)) (fun hzero => ?_)
      fun pte hslot => Wp.bind (loadPte_spec ?_))
    · refine Wp.throw (hpanic (fun hleaf hzero => hleaf.1 ?_) hzero)
      rw [hzero]
      rfl
    rw [hslot.load]
    refine Wp.ite (fun hc => Wp.throw (hpanic (fun hleaf hc => hleaf.1 hc) hc)) fun _ =>
      Wp.ite (fun hc => Wp.throw (hpanic (fun hleaf hc => hleaf.2 hc) hc)) fun _ => ?_
    -- after the page is freed, if it is, the entry is cleared and the loop goes on
    have hrest : ∀ m₁ U₁, (∀ p ∈ T, m₁.page p = m.page p) → m.Trade m₁ (T + U) (T + U₁) →
        (U₁ = if doFree then frames F (a / 4096 + 1) n else 0) → (∀ q ∈ U₁, q ∉ T) →
        Wp (do storePte pte 0; uvmunmapLoop root stop doFree n (u64 (a + PGSIZE))) m₁ P Q := by
      intro m₁ U₁ hkept ht₁ hU₁ hsep₁
      have hm₂ := (hslot.congr hkept).store 0 (by decide)
      have ht₂ := ht₁.trans
        (.store (k := pte.2) (v := 0) (Multiset.mem_add.mpr (.inl hslot.mem)))
      have hnext : u64 (a + PGSIZE) = a + 4096 := by
        unfold MAXVA PGSIZE at *
        exact u64_of_lt (by omega)
      have hdiv : (a + 4096) / 4096 = a / 4096 + 1 := by omega
      have hother : ∀ k, Function.update F (a / 4096) 0 (a / 4096 + 1 + k) =
          F (a / 4096 + (k + 1)) := by
        intro k
        rw [Function.update_of_ne (by omega), Nat.add_assoc, Nat.add_comm 1 k]
      refine Wp.bind (storePte_spec ?_)
      rw [hnext]
      refine ih hm₂ (by omega) (by omega) (by omega) ?_ ?_ hsep₁ fun m' hm' ht' => ?_
      · refine hsafe.imp_right fun hok k hk => ?_
        rw [hdiv, hother k]
        show _ ∧ (_ → m₁.image.Allocatable _)
        rw [ht₁.image]
        exact hok (k + 1) (by omega)
      · rw [hU₁, hdiv, frames_congr fun k _ => Function.update_of_ne (by omega) _ _]
      · rw [hdiv, removePages_succ] at hm'
        exact hdone m' hm' (ht₂.trans ht')
    cases doFree with
    | false => exact hrest m U (fun _ _ => rfl) .refl hU hsep
    | true =>
      replace hU : U = frames F (a / 4096 + 1) n + {PTE2PA (F (a / 4096))} := hU
      have hnew : PTE2PA (F (a / 4096)) ∉ T := hsep _ (by simp [hU])
      refine Wp.bind (kfree_spec ?_ fun m₁ ht₁ hkept => ?_)
      · exact hsafe.imp (fun hp => hp _) fun hok => (hok 0 (by omega)).2 rfl
      refine hrest m₁ _ (fun p hp => hkept p fun heq => hnew (heq ▸ hp)) ?_ rfl fun q hq =>
        hsep q (by rw [hU]; exact Multiset.mem_add.mpr (.inl hq))
      rw [hU, ← add_assoc]
      exact ht₁ _

theorem uvmunmap_spec {Q : Unit → Mem → Prop} {n : Nat} {doFree : Bool}
    (h : Maps m root T F) (hva : P .uvmunmapAlign ∨ va % 4096 = 0)
    (hfit : va + n * 4096 ≤ MAXVA)
    (hsafe : (∀ e, P e) ∨ ∀ k < n, IsLeaf (F (va / 4096 + k)) ∧
      (doFree = true → m.image.Allocatable (PTE2PA (F (va / 4096 + k)))))
    (hU : U = if doFree then frames F (va / 4096) n else 0) (hsep : ∀ q ∈ U, q ∉ T)
    (hdone : ∀ m', Maps m' root T (removePages F (va / 4096) n) → m.Trade m' (T + U) T →
      Q () m') : Wp (uvmunmap root va n doFree) m P Q := by
  refine Wp.ite (fun hc => Wp.throw (hva.resolve_right hc)) fun ha =>
    uvmunmapLoop_spec h (not_not.mp ha) hfit ?_ hsafe hU hsep hdone
  unfold MAXVA at hfit
  exact u64_of_lt (by unfold PGSIZE; omega)

-- What the page table at root says of a virtual page: the value of its entry, 0 if the
-- tree has no place for it.
def flat (m : Mem) (root v : Nat) : Nat :=
  ptes.lookup m.load 2 root (pageIndex v)

-- The valid entries above the bottom level are links, and no interior page is shared: none
-- occurs twice and none is on the free list.
structure IsTree (m : Mem) (root : Nat) : Prop where
  linked : ptes.Linked Interior m.load 2 root
  owned : m.Owned (ptes.tables m.load 2 root)

theorem IsTree.maps (h : IsTree m root) : Maps m root (ptes.tables m.load 2 root) (flat m root) :=
  ⟨rfl, h.owned.nodup_held, h.linked, fun _ _ => rfl⟩

theorem Maps.isTree (h : Maps m root T F) (hown : m.Owned T) : IsTree m root :=
  ⟨h.linked, h.owned_tables hown⟩

theorem page_table_refines_flat_map (m : Mem) (root va size pa perm npages : Nat) (doFree : Bool)
    (htree : IsTree m root) (hva : va < MAXVA) (hsize : size < 0x10000000000000000)
    (hpa : pa < 0x10000000000000000) (hperm : perm < 0x10000000000000000) :
    (∃ r m', walk root va true m = .ok (r, m') ∧ IsTree m' root ∧
      (∃ new : List Nat, (ptes.tables m'.load 2 root).Perm (ptes.tables m.load 2 root ++ new)) ∧
      (∀ v < 0x8000000, flat m' root v = flat m root v) ∧ (r = none → m.Short 2) ∧
      ∀ pte, r = some pte → m'.load pte.1 pte.2 = flat m root (va / PGSIZE)) ∧
    (∀ m', mappages root va size pa perm m = .ok (0, m') → IsTree m' root ∧
      ∀ v < 0x8000000, flat m' root v =
        if va / PGSIZE ≤ v ∧ v < va / PGSIZE + size / PGSIZE then
          PA2PTE (u64 (pa + (v - va / PGSIZE) * PGSIZE)) ||| perm ||| PTE_V
        else flat m root v) ∧
    (va % PGSIZE = 0 → size % PGSIZE = 0 → 0 < size → va + size ≤ MAXVA →
      (∀ k < size / PGSIZE, flat m root (va / PGSIZE + k) &&& PTE_V = 0) →
      ¬m.Short (2 * (size / PGSIZE)) → ∃ m', mappages root va size pa perm m = .ok (0, m')) ∧
    (va + npages * PGSIZE ≤ MAXVA →
      (doFree = true → ∀ k < npages,
        PTE2PA (flat m root (va / PGSIZE + k)) ∉ ptes.tables m.load 2 root) →
      (∀ m', uvmunmap root va npages doFree m = .ok ((), m') →
        (ptes.tables m'.load 2 root).Perm (ptes.tables m.load 2 root) ∧
        ∀ v < 0x8000000, flat m' root v =
          if va / PGSIZE ≤ v ∧ v < va / PGSIZE + npages then 0 else flat m root v) ∧
      (va % PGSIZE = 0 → (∀ k < npages, IsLeaf (flat m root (va / PGSIZE + k)) ∧
        (doFree = true → m.image.Allocatable (PTE2PA (flat m root (va / PGSIZE + k))))) →
        ∃ m', uvmunmap root va npages doFree m = .ok ((), m'))) ∧
    ∀ pa' flags, pa' % PGSIZE = 0 → pa' < 0x100000000000000 → flags < 1024 →
      PTE2PA (PA2PTE pa' ||| flags) = pa' ∧ PTE_FLAGS (PA2PTE pa' ||| flags) = flags := by
  have hmaps := htree.maps
  refine ⟨?_, fun m' hm' => ?_, fun hal hmul hpos hfit hfree hs => ?_, fun hfit hsep => ?_,
    fun pa' flags h₁ h₂ h₃ => ⟨PTE2PA_or h₁ h₂ h₃, PTE_FLAGS_or pa' h₃⟩⟩
  · have hspec : Wp (walk root va true) m (fun _ => False) fun r m' => IsTree m' root ∧
        (ptes.tables m.load 2 root : Multiset Nat) ≤ ptes.tables m'.load 2 root ∧
        (∀ v < 0x8000000, flat m' root v = flat m root v) ∧ (r = none → m.Short 2) ∧
        ∀ pte, r = some pte → m'.load pte.1 pte.2 = flat m root (va / PGSIZE) := by
      refine walk_alloc_spec hmaps htree.owned (fun h => absurd hva (Nat.not_lt.mpr h))
        (fun m' T' hle hm' ht' hs => ?_) fun m' T' pte _ hle hm' ht' _ hslot => ?_
      · refine ⟨hm'.isTree (ht'.owned htree.owned), ?_, hm'.flat, fun _ => hs,
          fun pte h => by cases h⟩
        rwa [hm'.tables]
      · refine ⟨hm'.isTree (ht'.owned htree.owned), ?_, hm'.flat, (fun h => by cases h),
          fun pte h => ?_⟩
        · rwa [hm'.tables]
        · cases h
          exact hslot.load
    obtain ⟨r, m', hm', htree', hle, hflat, hload⟩ := hspec.exists_ok
    obtain ⟨new, hnew⟩ := Multiset.le_iff_exists_add.mp hle
    induction new using Quotient.inductionOn with
    | h new =>
      refine ⟨r, m', hm', htree', ⟨new, ?_⟩, hflat, hload⟩
      exact Multiset.coe_eq_coe.mp hnew
  · have hspec : Wp (mappages root va size pa perm) m (fun _ => True) fun r m' => r = 0 →
        ∃ T', Maps m' root T' (addPages (flat m root) (va / 4096) pa perm (size / 4096)) ∧
          m.Trade m' (ptes.tables m.load 2 root) T' :=
      mappages_spec hmaps htree.owned (.inl fun _ => trivial) hsize hpa hperm
        (fun _ _ _ _ _ _ _ _ h => by cases h) fun m' T' _ _ hm' ht' _ _ => ⟨T', hm', ht'⟩
    obtain ⟨T', hT', ht'⟩ := hspec.ok hm' rfl
    exact ⟨hT'.isTree (ht'.owned htree.owned), hT'.flat⟩
  · have hspec : Wp (mappages root va size pa perm) m (fun _ => False) fun r _ => r = 0 :=
      mappages_spec hmaps htree.owned (.inr ⟨hal, hmul, hpos, hfit, hfree⟩) hsize hpa hperm
        (fun _ _ _ _ _ _ _ hshort => absurd hshort hs) fun _ _ _ _ _ _ _ => rfl
    obtain ⟨r, m', hm', rfl⟩ := hspec.exists_ok
    exact ⟨m', hm'⟩
  · have hout : ∀ q ∈ (if doFree then frames (flat m root) (va / 4096) npages else 0),
        q ∉ (ptes.tables m.load 2 root : Multiset Nat) := by
      intro q hq
      cases doFree with
      | false => exact absurd hq (Multiset.notMem_zero q)
      | true =>
        obtain ⟨k, hk, rfl⟩ := mem_frames.mp hq
        exact hsep rfl k hk
    refine ⟨fun m' hm' => ?_, fun hal hleaf => ?_⟩
    · have hspec : Wp (uvmunmap root va npages doFree) m (fun _ => True) fun _ m' => Maps m' root
          (ptes.tables m.load 2 root) (removePages (flat m root) (va / 4096) npages) :=
        uvmunmap_spec hmaps (.inl trivial) hfit (.inl fun _ => trivial) rfl hout
          fun m' hm' _ => hm'
      exact ⟨Multiset.coe_eq_coe.mp (hspec.ok hm').tables, (hspec.ok hm').flat⟩
    · have hspec : Wp (uvmunmap root va npages doFree) m (fun _ => False) fun _ _ => True :=
        uvmunmap_spec hmaps (.inr hal) hfit (.inr hleaf) rfl hout fun _ _ _ => trivial
      obtain ⟨_, m', hm', _⟩ := hspec.exists_ok
      exact ⟨m', hm'⟩

def sampleImage : KernelImage :=
  ⟨0x80022000, 0x80007000, by decide, by decide, by decide, by decide⟩

-- Zeroed memory with five free pages.
def sampleMem : Mem where
  image := sampleImage
  pool := ⟨fun _ => .fill 0, [0x80024000, 0x80025000, 0x80026000, 0x80027000, 0x80028000]⟩
  deny := []

theorem sampleMem_owned : sampleMem.Owned {0x80023000} := by
  refine ⟨by decide, fun p hp => ?_⟩
  have hmem : p ∈ [0x80023000, 0x80024000, 0x80025000, 0x80026000, 0x80027000, 0x80028000] := hp
  have hall : ∀ p ∈ [0x80023000, 0x80024000, 0x80025000, 0x80026000, 0x80027000, 0x80028000],
      p % PGSIZE = 0 ∧ 0x80022000 ≤ p ∧ p < PHYSTOP := by decide
  exact hall p hmem

theorem page_table_refines_flat_map_sample :
    IsTree sampleMem 0x80023000 ∧
    ∃ m', mappages 0x80023000 0x1000 0x2000 0x80007000 PTE_R sampleMem = .ok (0, m') ∧
      (∀ v < 0x8000000, flat m' 0x80023000 v =
        if 1 ≤ v ∧ v < 3 then PA2PTE (u64 (0x80007000 + (v - 1) * PGSIZE)) ||| PTE_R ||| PTE_V
        else flat sampleMem 0x80023000 v) ∧
      ∃ m'', uvmunmap 0x80023000 0x1000 2 false m' = .ok ((), m'') ∧
        ∀ v < 0x8000000, flat m'' 0x80023000 v =
          if 1 ≤ v ∧ v < 3 then 0 else flat m' 0x80023000 v := by
  have hmaps : Maps sampleMem 0x80023000 {0x80023000} fun _ => 0 := Maps.empty rfl
  have htree := hmaps.isTree sampleMem_owned
  refine ⟨htree, ?_⟩
  obtain ⟨-, hmapped, hmaps', -⟩ := page_table_refines_flat_map sampleMem 0x80023000 0x1000 0x2000
    0x80007000 PTE_R 0 false htree (by decide) (by decide) (by decide) (by decide)
  obtain ⟨m', hm'⟩ := hmaps' rfl rfl (by decide) (by decide) (by decide +kernel) (by decide)
  obtain ⟨htree', hflat⟩ := hmapped m' hm'
  obtain ⟨-, -, -, hunmap, -⟩ := page_table_refines_flat_map m' 0x80023000 0x1000 0x2000 0x80007000
    PTE_R 2 false htree' (by decide) (by decide) (by decide) (by decide)
  obtain ⟨hgone, hreturns⟩ := hunmap (by decide) (fun h => by cases h)
  have hleaf : ∀ k < 2, IsLeaf (flat m' 0x80023000 (0x1000 / PGSIZE + k)) := by
    intro k hk
    have hall : ∀ k < 2, let e := PA2PTE (u64 (0x80007000 + (0x1000 / PGSIZE + k - 1) * PGSIZE)) |||
        PTE_R ||| PTE_V; e &&& PTE_V ≠ 0 ∧ PTE_FLAGS e ≠ PTE_V := by decide
    rw [hflat _ (by unfold PGSIZE; omega), if_pos (by unfold PGSIZE; omega)]
    exact hall k hk
  obtain ⟨m'', hm''⟩ := hreturns rfl fun k hk => ⟨hleaf k hk, fun h => by cases h⟩
  exact ⟨m', hm', hflat, m'', hm'', (hgone m'' hm'').2⟩

end Xv6
