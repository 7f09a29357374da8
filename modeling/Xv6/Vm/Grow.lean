import Xv6.Vm.User

namespace Xv6

open Lib

-- The page table at root has the pages from oldsz to newsz more than before. They are
-- filled with zeros.
structure Added (m m' : Mem) (root oldsz newsz flags : Nat) : Prop where
  kept : ∀ v < 0x8000000, v < pagesFor oldsz ∨ pagesFor newsz ≤ v →
    flat m' root v = flat m root v
  new : ∀ v, pagesFor oldsz ≤ v → v < pagesFor newsz →
    ∃ pa, flat m' root v = PA2PTE pa ||| flags ∧ m'.page pa = .fill 0

-- It has the pages from newsz to oldsz less than before.
structure Removed (m m' : Mem) (root oldsz newsz : Nat) : Prop where
  kept : ∀ v < 0x8000000, v < pagesFor newsz ∨ pagesFor oldsz ≤ v →
    flat m' root v = flat m root v
  gone : ∀ v, pagesFor newsz ≤ v → v < pagesFor oldsz → flat m' root v = 0

variable {m m' : Mem} {root sz tf oldsz newsz xperm : Nat} {T T' : Multiset Nat} {fixed : Nat → Nat}
  {L A : List (Nat × Nat)} {P : Panic → Prop}

theorem Space.flat_eq (h : Space m root fixed T L) {v : Nat} (hv : v < 0x8000000) :
    flat m root v = layout fixed L v := h.maps.flat v hv

theorem Space.page_eq {Y : Multiset Nat} (h : Space m root fixed T L) (ht : m.Trade m' T Y) :
    ∀ e ∈ L, m'.page e.1 = m.page e.1 := by
  intro e he
  have hown := h.owned
  rw [add_comm] at hown
  exact ht.unchanged hown (mem_leaves he)

theorem Space.page_take {n : Nat} (h : Space m root fixed T L)
    (ht : m.Trade m' (T + leaves (L.drop n)) T) : ∀ e ∈ L.take n, m'.page e.1 = m.page e.1 := by
  intro e he
  have hown := h.owned
  rw [leaves_split L n, add_left_comm] at hown
  exact ht.unchanged hown (mem_leaves he)

theorem Space.vpn_lt {v : Nat} (h : Space m root fixed T L) (hv : v < L.length) : v < 0x8000000 := by
  have hlen := h.length_le
  rw [NPAGES_eq] at hlen
  omega

theorem Space.added {flags : Nat} (h : Space m root fixed T L) (h' : Space m' root fixed T' (L ++ A))
    (hold : L.length = pagesFor oldsz) (hnew : (L ++ A).length = pagesFor newsz)
    (hA : ∀ e ∈ A, e.2 = flags ∧ m'.page e.1 = .fill 0) : Added m m' root oldsz newsz flags where
  kept v hv hout := by
    rw [h'.flat_eq hv, h.flat_eq hv]
    rcases hout with hlt | hge
    · rw [layout, layout, List.getElem?_append_left (hold ▸ hlt)]
    · have hle : L.length ≤ v := by
        rw [List.length_append] at hnew
        omega
      rw [layout_above (hnew ▸ hge), layout_above hle]
  new v hge hlt := by
    have hlt : v < (L ++ A).length := hnew ▸ hlt
    have hget : (L ++ A)[v]? = some (L ++ A)[v] := List.getElem?_eq_getElem hlt
    have hmem : (L ++ A)[v] ∈ A := by
      rw [List.getElem?_append_right (hold ▸ hge)] at hget
      exact List.mem_of_getElem? hget
    obtain ⟨hflags, hzero⟩ := hA _ hmem
    exact ⟨_, by rw [h'.flat_eq (h'.vpn_lt hlt), layout_user hget, hflags], hzero⟩

theorem Space.removed (h : Space m root fixed T L) (hfixed : High fixed)
    (h' : Space m' root fixed T' (L.take (pagesFor newsz))) (hold : L.length = pagesFor oldsz) :
    Removed m m' root oldsz newsz where
  kept v hv hout := by
    rw [h'.flat_eq hv, h.flat_eq hv]
    rcases hout with hlt | hge
    · rw [layout, layout, List.getElem?_take_of_lt hlt]
    · rw [layout_above (by simp; omega), layout_above (by omega)]
  gone v hge hlt := by
    have hlt : v < L.length := hold ▸ hlt
    rw [h'.flat_eq (h.vpn_lt hlt), layout_above (by simp; omega)]
    exact hfixed v (hlt.trans_le h.length_le)

-- uvmalloc() adds exactly the pages that are missing or takes back what it has done, and
-- uvmdealloc() leaves exactly the pages of the new size.
theorem uvmalloc_uvmdealloc_exact (h : Space m root fixed T L) (hfixed : High fixed)
    (hold : L.length = pagesFor oldsz) :
    (∀ newsz xperm, oldsz ≤ newsz → 0 < newsz → xperm < 1024 →
      ∃ r m' T' A, uvmalloc root oldsz newsz xperm m = .ok (r, m') ∧
        Space m' root fixed T' (L ++ A) ∧ m.Trade m' T (T' + leaves A) ∧
        (∀ e ∈ L, m'.page e.1 = m.page e.1) ∧
        (r = newsz ∧ Added m m' root oldsz newsz (PTE_R ||| PTE_U ||| xperm ||| PTE_V) ∨
          r = 0 ∧ A = [] ∧ (∀ v < 0x8000000, flat m' root v = flat m root v) ∧
            m.Short (3 * (pagesFor newsz - pagesFor oldsz)))) ∧
    ∀ newsz < oldsz, ∃ m', uvmdealloc root oldsz newsz m = .ok (newsz, m') ∧
      Space m' root fixed T (L.take (pagesFor newsz)) ∧
      m.Trade m' (T + leaves (L.drop (pagesFor newsz))) T ∧
      (∀ e ∈ L.take (pagesFor newsz), m'.page e.1 = m.page e.1) ∧
      Removed m m' root oldsz newsz := by
  refine ⟨?_, ?_⟩
  · intro newsz xperm hle hpos hxperm
    have hwp : Wp (uvmalloc root oldsz newsz xperm) m (fun _ => False) fun r m' => ∃ T' A,
        Space m' root fixed T' (L ++ A) ∧ m.Trade m' T (T' + leaves A) ∧
        (∀ e ∈ L, m'.page e.1 = m.page e.1) ∧
        (r = newsz ∧ Added m m' root oldsz newsz (PTE_R ||| PTE_U ||| xperm ||| PTE_V) ∨
          r = 0 ∧ A = [] ∧ (∀ v < 0x8000000, flat m' root v = flat m root v) ∧
            m.Short (3 * (pagesFor newsz - pagesFor oldsz))) := by
      refine uvmalloc_spec h hfixed hold hxperm (fun hlt => absurd hle (by omega)) ?_ ?_
      · intro m' T' _ _ h' ht' hs
        refine ⟨T', [], ?_, ?_, h.page_eq ht', .inr ⟨rfl, rfl, ?_, hs⟩⟩
        · rwa [List.append_nil]
        · rwa [leaves_nil, add_zero]
        · intro v hv
          rw [h'.flat_eq hv, h.flat_eq hv]
      · intro m' T' A _ _ hlen hA h' ht'
        exact ⟨T', A, h', ht', h.page_eq ht', .inl ⟨rfl, h.added h' hold hlen hA⟩⟩
    obtain ⟨r, m', hrun, T', A, hq⟩ := hwp.exists_ok
    exact ⟨r, m', T', A, hrun, hq⟩
  · intro newsz hlt
    have hmin : min oldsz newsz = newsz := Nat.min_eq_right hlt.le
    have hwp : Wp (uvmdealloc root oldsz newsz) m (fun _ => False) fun r m' => r = newsz ∧
        Space m' root fixed T (L.take (pagesFor newsz)) ∧
        m.Trade m' (T + leaves (L.drop (pagesFor newsz))) T ∧
        (∀ e ∈ L.take (pagesFor newsz), m'.page e.1 = m.page e.1) ∧
        Removed m m' root oldsz newsz := by
      refine uvmdealloc_spec h hfixed hold ?_
      rw [hmin]
      intro m' h' ht'
      exact ⟨rfl, h', ht', h.page_take ht', h.removed hfixed h' hold⟩
    obtain ⟨r, m', hrun, rfl, hq⟩ := hwp.exists_ok
    exact ⟨m', hrun, hq⟩

theorem space_sampleMem : Space sampleMem 0x80023000 (fun _ => 0) {0x80023000} [] :=
  ⟨Maps.empty rfl, fun _ he => absurd he List.not_mem_nil, sampleMem_owned⟩

theorem uvmalloc_uvmdealloc_exact_sample : ∃ m' T' A,
    uvmalloc 0x80023000 0 100 PTE_W sampleMem = .ok (100, m') ∧
    Space m' 0x80023000 (fun _ => 0) T' A ∧
    Added sampleMem m' 0x80023000 0 100 (PTE_R ||| PTE_U ||| PTE_W ||| PTE_V) := by
  have hold : ([] : List (Nat × Nat)).length = pagesFor 0 := rfl
  obtain ⟨r, m', T', A, hrun, hspace, -, -, hr⟩ :=
    (uvmalloc_uvmdealloc_exact space_sampleMem (fun _ _ => rfl) hold).1 100 PTE_W (by decide)
      (by decide) (by decide)
  obtain ⟨rfl, hadded⟩ | ⟨-, -, -, hs⟩ := hr
  · exact ⟨m', T', A, hrun, hspace, hadded⟩
  · exact absurd hs (by decide)

-- What growproc() returns is what it has done to the size: nothing on failure.
def Reports (m m' : Mem) (root sz : Nat) (n : Int) (L : List (Nat × Nat)) (r : Int × Nat) : Prop :=
  r.1 = -1 ∧ r.2 = sz ∧ (∀ v < 0x8000000, flat m' root v = flat m root v) ∧
      (∀ e ∈ L, m'.page e.1 = m.page e.1) ∨
    r.1 = 0 ∧ (r.2 : Int) = sz + n

theorem le_u64Int_of_neg {x : Int} (h : x < 0) (hle : -0x80000000 ≤ x) : 0x8000000 ≤ u64Int x := by
  unfold u64Int
  omega

-- growproc() does what it says unless it shrinks below zero, where it does nothing and
-- says that it did.
theorem growproc_reports_iff {n : Int} (h : UserSpace m root sz tf T L)
    (hn : -0x80000000 ≤ n ∧ n < 0x80000000) :
    ∃ r m', growproc root sz n m = .ok (r, m') ∧ (Reports m m' root sz n L r ↔ 0 ≤ sz + n) := by
  have hsz := h.sz_le
  have hwp : Wp (growproc root sz n) m (fun _ => False) fun r m' =>
      (Reports m m' root sz n L r ↔ 0 ≤ sz + n) := by
    refine growproc_exact h ?_ ?_ ?_
    · intro m' T' hpos h' ht' _
      refine iff_of_true (.inl ⟨rfl, rfl, ?_, h.space.page_eq ht'⟩) (by omega)
      intro v hv
      rw [h'.flat_eq hv, h.flat_eq hv, ht'.image]
    · intro m' T' A hpos _ _ _
      refine iff_of_true (.inr ⟨rfl, ?_⟩) (by omega)
      exact u64Int_of_nonneg (by omega) (by omega)
    · intro m' sz' hsz' hwrap h' _
      by_cases hneg : 0 ≤ sz + n
      · have hsum := u64Int_of_nonneg hneg (by omega)
        refine iff_of_true (.inr ⟨rfl, ?_⟩) hneg
        split at hsz' <;> omega
      · have hbig := le_u64Int_of_neg (by omega : (sz : Int) + n < 0) (by omega)
        refine iff_of_false ?_ hneg
        rintro (⟨hr, -⟩ | ⟨-, hr⟩)
        · cases hr
        · split at hsz' <;> omega
  obtain ⟨r, m', hrun, hq⟩ := hwp.exists_ok
  exact ⟨r, m', hrun, hq⟩

theorem growproc_reports_iff_sample : ∃ m root sz tf T L r m', UserSpace m root sz tf T L ∧
    growproc root sz 1 m = .ok (r, m') ∧ Reports m m' root sz 1 L r := by
  obtain ⟨m, old, new, To, Tn, Lo, -, hO, -, -⟩ :=
    sampleTables_some (fun _ _ => true) (freshMem_owned (n := 20) (by decide)) (by decide +kernel)
  obtain ⟨r, m', hrun, hiff⟩ := growproc_reports_iff (n := 1) hO (by decide)
  exact ⟨m, old, 1, _, To, Lo, r, m', hO, hrun, hiff.mpr (by omega)⟩

-- A process that shrinks by 2 GiB is told that it has shrunk.
theorem growproc_misreports : ∃ m root sz tf T L r m', UserSpace m root sz tf T L ∧
    growproc root sz (-0x80000000) m = .ok (r, m') ∧ r = (0, sz) ∧
    ¬Reports m m' root sz (-0x80000000) L r := by
  obtain ⟨m, old, new, To, Tn, Lo, -, hO, -, -⟩ :=
    sampleTables_some (fun _ _ => true) (freshMem_owned (n := 20) (by decide)) (by decide +kernel)
  have hbig := le_u64Int_of_neg (x := ((1 : Nat) : Int) + -0x80000000) (by omega) (by omega)
  have hwp : Wp (growproc old 1 (-0x80000000)) m (fun _ => False) fun r m' => r = (0, 1) := by
    refine growproc_exact hO (fun _ _ h => absurd h (by decide)) (fun _ _ _ h => absurd h (by decide))
      fun m' sz' hsz' _ _ _ => ?_
    rw [hsz', if_pos (by decide), Nat.min_eq_left (by omega)]
  obtain ⟨r, m', hrun, rfl⟩ := hwp.exists_ok
  refine ⟨m, old, 1, _, To, Lo, _, m', hO, hrun, rfl, ?_⟩
  rintro (⟨hr, -⟩ | ⟨-, hr⟩)
  · cases hr
  · dsimp only at hr
    omega

end Xv6
