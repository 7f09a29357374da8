import Xv6.Vm.User

namespace Xv6

open Lib

-- A byte of physical memory.
def Mem.byte (m : Mem) (a : Nat) : UInt8 := (m.page (PGROUNDDOWN a)).byte (a % PGSIZE)

-- The physical address of va.
def physical (m : Mem) (root va : Nat) : Nat := PTE2PA (flat m root (va / PGSIZE)) + va % PGSIZE

-- The page table lets user code read at va.
def Readable (m : Mem) (root va : Nat) : Prop :=
  va < MAXVA ∧ flat m root (va / PGSIZE) &&& PTE_V ≠ 0 ∧ flat m root (va / PGSIZE) &&& PTE_U ≠ 0

instance (m : Mem) (root va : Nat) : Decidable (Readable m root va) :=
  inferInstanceAs (Decidable (_ ∧ _ ∧ _))

-- A page table whose user pages are different pages, of which none is a page of the table
-- and none is at address 0.
structure Proper (m : Mem) (root : Nat) : Prop where
  tables : ∀ va, Readable m root va →
    PTE2PA (flat m root (va / PGSIZE)) ∉ ptes.tables m.load 2 root
  inj : ∀ va va', Readable m root va → Readable m root va' →
    PTE2PA (flat m root (va / PGSIZE)) = PTE2PA (flat m root (va' / PGSIZE)) →
    va / PGSIZE = va' / PGSIZE
  pos : ∀ va, Readable m root va → PTE2PA (flat m root (va / PGSIZE)) ≠ 0

-- The memory has changed exactly at the physical addresses from va on, which hold src.
structure Wrote (m m' : Mem) (root va : Nat) (src : List UInt8) : Prop where
  bytes : ∀ k b, src[k]? = some b → m'.byte (physical m root (va + k)) = b
  other : ∀ a, (∀ k < src.length, a ≠ physical m root (va + k)) → m'.byte a = m.byte a
  rest : m'.image = m.image ∧ m'.freelist = m.freelist ∧ m'.deny = m.deny

-- The bytes of bs at va, inside one page.
def Mem.put (m : Mem) (root va : Nat) (bs : List UInt8) : Mem :=
  m.setPage (PTE2PA (flat m root (va / PGSIZE)))
    ((m.page (PTE2PA (flat m root (va / PGSIZE)))).putBytes (va % PGSIZE) bs)

variable {m m' m'' : Mem} {root va va' len fuel k : Nat} {src bs cs : List UInt8}

theorem PTE2PA_mod (e : Nat) : PTE2PA e % 4096 = 0 := by
  rw [PTE2PA_eq, u64]
  omega

theorem physical_div (m : Mem) (root va : Nat) :
    PGROUNDDOWN (physical m root va) = PTE2PA (flat m root (va / PGSIZE)) := by
  have hmod := PTE2PA_mod (flat m root (va / PGSIZE))
  unfold PGROUNDDOWN physical
  unfold PGSIZE at hmod ⊢
  omega

theorem physical_mod (m : Mem) (root va : Nat) : physical m root va % PGSIZE = va % PGSIZE := by
  have hmod := PTE2PA_mod (flat m root (va / PGSIZE))
  unfold physical
  unfold PGSIZE at hmod ⊢
  omega

theorem byte_physical (m m' : Mem) (root va : Nat) : m'.byte (physical m root va) =
    (m'.page (PTE2PA (flat m root (va / PGSIZE)))).byte (va % PGSIZE) := by
  rw [Mem.byte, physical_div, physical_mod]

theorem Writable.readable (h : Writable m root va) : Readable m root va := ⟨h.1, h.2.1, h.2.2.1⟩

theorem lt_MAXVA_of_div (hpage : va' / PGSIZE = va / PGSIZE) (h : va < MAXVA) : va' < MAXVA := by
  unfold PGSIZE MAXVA at *
  omega

theorem Writable.same_page (h : Writable m root va) (hpage : va' / PGSIZE = va / PGSIZE) :
    Writable m root va' := by
  refine ⟨lt_MAXVA_of_div hpage h.1, ?_⟩
  rw [hpage]
  exact h.2

theorem Readable.same_page (h : Readable m root va) (hpage : va' / PGSIZE = va / PGSIZE) :
    Readable m root va' := by
  refine ⟨lt_MAXVA_of_div hpage h.1, ?_⟩
  rw [hpage]
  exact h.2

theorem add_div_page (h : va % PGSIZE + k < PGSIZE) : (va + k) / PGSIZE = va / PGSIZE := by
  unfold PGSIZE at *
  omega

theorem add_mod_page (h : va % PGSIZE + k < PGSIZE) : (va + k) % PGSIZE = va % PGSIZE + k := by
  unfold PGSIZE at *
  omega

theorem physical_add (h : va % PGSIZE + k < PGSIZE) :
    physical m root (va + k) = physical m root va + k := by
  rw [physical, physical, add_div_page h, add_mod_page h, Nat.add_assoc]

theorem Proper.physical_inj (hp : Proper m root) (h : Readable m root va) (h' : Readable m root va')
    (heq : physical m root va = physical m root va') : va = va' := by
  have hdiv := congrArg PGROUNDDOWN heq
  have hmod := congrArg (· % PGSIZE) heq
  simp only [physical_div] at hdiv
  simp only [physical_mod] at hmod
  have hpage := hp.inj va va' h h' hdiv
  unfold PGSIZE at hmod hpage
  omega

-- Page tables are not written, so addresses mean the same as before.
structure SameTable (m m' : Mem) (root : Nat) : Prop where
  flat : ∀ v, flat m' root v = flat m root v
  tables : ptes.tables m'.load 2 root = ptes.tables m.load 2 root

theorem SameTable.trans (h : SameTable m m' root) (h' : SameTable m' m'' root) :
    SameTable m m'' root :=
  ⟨fun v => (h'.flat v).trans (h.flat v), h'.tables.trans h.tables⟩

theorem SameTable.writable (h : SameTable m m' root) :
    Writable m' root va ↔ Writable m root va := by
  rw [Writable, Writable, h.flat]

theorem SameTable.readable (h : SameTable m m' root) :
    Readable m' root va ↔ Readable m root va := by
  rw [Readable, Readable, h.flat]

theorem SameTable.physical (h : SameTable m m' root) (va : Nat) :
    physical m' root va = physical m root va := by
  rw [Xv6.physical, Xv6.physical, h.flat]

theorem SameTable.proper (h : SameTable m m' root) (hp : Proper m root) : Proper m' root := by
  refine ⟨?_, ?_, ?_⟩
  · intro va hr
    rw [h.flat, h.tables]
    exact hp.tables va (h.readable.mp hr)
  · intro va va' hr hr'
    rw [h.flat, h.flat]
    exact hp.inj va va' (h.readable.mp hr) (h.readable.mp hr')
  · intro va hr
    rw [h.flat]
    exact hp.pos va (h.readable.mp hr)

theorem Proper.put (hp : Proper m root) (hr : Readable m root va) (bs : List UInt8) :
    SameTable m (m.put root va bs) root := by
  have hload : ∀ p ∈ ptes.tables m.load 2 root, ∀ i ∈ ptes.idx,
      (m.put root va bs).load p i = m.load p i := by
    intro p hmem i _
    refine Mem.load_setPage_other _ _ ?_ i
    rintro rfl
    exact hp.tables va hr hmem
  exact ⟨fun v => Radix.lookup_congr (ptes_path v) hload, Radix.tables_congr hload⟩

theorem byte_putBytes (p : Page) {off i : Nat} (hi : i < PGSIZE) :
    (p.putBytes off bs).byte i =
      if off ≤ i ∧ i < off + bs.length then bs.getD (i - off) 0 else p.byte i := by
  rw [Page.byte, dif_pos hi, Page.putBytes, Page.byte, dif_pos hi]

theorem wrote_put (m : Mem) (root : Nat) (hfit : va % PGSIZE + bs.length ≤ PGSIZE) :
    Wrote m (m.put root va bs) root va bs := by
  refine ⟨?_, ?_, rfl, rfl, rfl⟩
  · intro k b hb
    obtain ⟨hk, rfl⟩ := List.getElem?_eq_some_iff.mp hb
    have hin : va % PGSIZE + k < PGSIZE := by omega
    rw [byte_physical, add_div_page hin, add_mod_page hin, Mem.put, Mem.page, Mem.setPage_self,
      byte_putBytes _ hin, if_pos (by omega), Nat.add_sub_cancel_left,
      List.getD_eq_getElem _ _ hk]
  · intro a ha
    have hmod : a % PGSIZE < PGSIZE := Nat.mod_lt _ (by decide)
    by_cases hpage : PGROUNDDOWN a = PTE2PA (flat m root (va / PGSIZE))
    · rw [Mem.byte, Mem.byte, hpage, Mem.put, Mem.page, Mem.setPage_self, byte_putBytes _ hmod, if_neg]
      rintro ⟨hle, hlt⟩
      refine ha (a % PGSIZE - va % PGSIZE) (by omega) ?_
      rw [physical_add (by omega), physical, ← hpage]
      unfold PGROUNDDOWN
      unfold PGSIZE at hle ⊢
      omega
    · rw [Mem.byte, Mem.byte, Mem.put, Mem.page, Mem.setPage_other _ _ hpage]

theorem Wrote.append (hp : Proper m root) (hbs : Wrote m m' root va bs)
    (hcs : Wrote m' m'' root (va + bs.length) cs) (hsame : SameTable m m' root)
    (hreadable : ∀ k < (bs ++ cs).length, Readable m root (va + k)) :
    Wrote m m'' root va (bs ++ cs) := by
  have hlen : (bs ++ cs).length = bs.length + cs.length := List.length_append
  refine ⟨?_, ?_, ?_⟩
  · intro k b hb
    have hk := (List.getElem?_eq_some_iff.mp hb).1
    by_cases hfirst : k < bs.length
    · rw [hcs.other, hbs.bytes k b]
      · rwa [List.getElem?_append_left hfirst] at hb
      · intro j hj heq
        rw [hsame.physical] at heq
        have := hp.physical_inj (hreadable k hk) (Nat.add_assoc va bs.length j ▸ hreadable (bs.length + j) (by omega)) heq
        omega
    · rw [List.getElem?_append_right (by omega)] at hb
      have hbyte := hcs.bytes (k - bs.length) b hb
      rwa [hsame.physical, Nat.add_assoc, Nat.add_sub_cancel' (by omega)] at hbyte
  · intro a ha
    rw [hcs.other, hbs.other]
    · intro k hk
      exact ha k (by omega)
    · intro k hk
      rw [hsame.physical, Nat.add_assoc]
      exact ha (bs.length + k) (by omega)
  · obtain ⟨h₁, h₂, h₃⟩ := hcs.rest
    rw [h₁, h₂, h₃]
    exact hbs.rest

theorem Wrote.nil (m : Mem) (root va : Nat) : Wrote m m root va [] :=
  ⟨fun k b hb => by simp at hb, fun _ _ => rfl, rfl, rfl, rfl⟩

theorem copyoutLoop_succ (fuel : Nat) (hsrc : src ≠ []) : copyoutLoop root (fuel + 1) va src m =
    if Writable m root va then
      copyoutLoop root fuel (u64 (PGROUNDDOWN va + PGSIZE))
        (src.drop (min (PGSIZE - va % PGSIZE) src.length))
        (m.put root va (src.take (min (PGSIZE - va % PGSIZE) src.length)))
    else .ok (-1, m) := by
  have herase : copyoutLoop root (fuel + 1) va src m = _ :=
    User.copyoutLoop_erases (fuel + 1) ⟨m, []⟩
  rw [User.copyoutLoop_succ fuel hsrc] at herase
  refine herase.trans ?_
  split
  · exact (User.copyoutLoop_erases fuel _).symm
  · rfl

theorem copyoutLoop_nil (fuel : Nat) : copyoutLoop root fuel va [] m = .ok (0, m) := by
  cases fuel <;> rfl

-- copyout() has written the first k bytes of src, which is as far as it can.
structure CopiedOut (m m' : Mem) (root va : Nat) (src : List UInt8) (k : Nat) : Prop where
  le : k ≤ src.length
  writable : ∀ j < k, Writable m root (va + j)
  stop : k < src.length → ¬Writable m root (va + k)
  wrote : Wrote m m' root va (src.take k)
  same : SameTable m m' root

theorem CopiedOut.none (h : src ≠ [] → ¬Writable m root va) : CopiedOut m m root va src 0 where
  le := Nat.zero_le _
  writable j hj := absurd hj (Nat.not_lt_zero j)
  stop hlt := h (List.length_pos_iff.mp hlt)
  wrote := Wrote.nil m root va
  same := ⟨fun _ => rfl, rfl⟩

theorem CopiedOut.page {n : Nat} (hp : Proper m root) (hw : Writable m root va)
    (hle : n ≤ src.length) (hfit : va % PGSIZE + n ≤ PGSIZE)
    (hrest : CopiedOut (m.put root va (src.take n)) m' root (va + n) (src.drop n) k) :
    CopiedOut m m' root va src (n + k) := by
  have hlen : (src.take n).length = n := List.length_take_of_le hle
  have hdrop : (src.drop n).length = src.length - n := List.length_drop
  have hsame := hp.put hw.readable (src.take n)
  have hkle := hrest.le
  have hwritable : ∀ j < n + k, Writable m root (va + j) := by
    intro j hj
    by_cases hfirst : j < n
    · exact hw.same_page (add_div_page (by omega))
    · have hj := hrest.writable (j - n) (by omega)
      rwa [hsame.writable, Nat.add_assoc, Nat.add_sub_cancel' (by omega)] at hj
  refine ⟨by omega, hwritable, ?_, ?_, hsame.trans hrest.same⟩
  · intro hlt hwk
    refine hrest.stop (by omega) ?_
    rwa [hsame.writable, Nat.add_assoc]
  · have hfirst : Wrote m (m.put root va (src.take n)) root va (src.take n) :=
      wrote_put m root (by omega)
    rw [List.take_add]
    refine hfirst.append hp (hlen.symm ▸ hrest.wrote) hsame ?_
    intro j hj
    refine (hwritable j ?_).readable
    rw [List.length_append, hlen, List.length_take] at hj
    omega

theorem next_page {n : Nat} (hva : va < MAXVA) (hn : va % PGSIZE + n = PGSIZE) :
    u64 (PGROUNDDOWN va + PGSIZE) = va + n := by
  unfold PGROUNDDOWN
  rw [u64_of_lt] <;> unfold PGSIZE MAXVA at * <;> omega

-- copyout() writes up to the first address that cannot be written.
theorem copyoutLoop_exact (va : Nat) (hp : Proper m root) (hfuel : src.length ≤ fuel) :
    ∃ k m', copyoutLoop root fuel va src m = .ok (if k = src.length then 0 else -1, m') ∧
      CopiedOut m m' root va src k := by
  induction fuel generalizing m va src with
  | zero =>
    obtain rfl : src = [] := List.length_eq_zero_iff.mp (Nat.le_zero.mp hfuel)
    exact ⟨0, m, rfl, .none fun h => absurd rfl h⟩
  | succ fuel ih =>
    by_cases hsrc : src = []
    · subst hsrc
      exact ⟨0, m, rfl, .none fun h => absurd rfl h⟩
    · have hpos := List.length_pos_iff.mpr hsrc
      rw [copyoutLoop_succ fuel hsrc]
      by_cases hw : Writable m root va
      · rw [if_pos hw]
        generalize hn : min (PGSIZE - va % PGSIZE) src.length = n
        have hlt : va % PGSIZE < PGSIZE := Nat.mod_lt _ (by decide)
        have hdrop : (src.drop n).length = src.length - n := List.length_drop
        have hsame := hp.put hw.readable (src.take n)
        by_cases hmore : src.drop n = []
        · rw [hmore, copyoutLoop_nil]
          rw [hmore, List.length_nil] at hdrop
          refine ⟨n + 0, _, ?_, .page hp hw (by omega) (by omega) (.none fun h => absurd hmore h)⟩
          rw [if_pos (by omega)]
        · have hne := List.length_pos_iff.mpr hmore
          have hnext : u64 (PGROUNDDOWN va + PGSIZE) = va + n := next_page hw.1 (by omega)
          have hless : (src.drop n).length ≤ fuel := by omega
          obtain ⟨k, m', hrun, hk⟩ := ih (va + n) (hsame.proper hp) hless
          have hiff : k = (src.drop n).length ↔ n + k = src.length := by
            omega
          refine ⟨n + k, m', ?_, .page hp hw (by omega) (by omega) hk⟩
          rw [hnext, hrun]
          simp only [hiff]
      · rw [if_neg hw]
        refine ⟨0, m, ?_, .none fun _ => hw⟩
        rw [if_neg hpos.ne]

theorem Space.page_inj {fixed : Nat → Nat} {T : Multiset Nat} {L : List (Nat × Nat)}
    {e e' : Nat × Nat} {v v' : Nat} (h : Space m root fixed T L) (he : L[v]? = some e)
    (he' : L[v']? = some e') (heq : e.1 = e'.1) : v = v' := by
  have hnodup : (L.map Prod.fst).Nodup := h.owned.right.nodup_held
  have hlt : v < (L.map Prod.fst).length := by
    rw [List.length_map]
    exact (List.getElem?_eq_some_iff.mp he).1
  refine (List.getElem?_inj hlt hnodup).mp ?_
  rw [List.getElem?_map, List.getElem?_map, he, he', Option.map_some, Option.map_some, heq]

theorem UserSpace.proper {sz tf : Nat} {T : Multiset Nat} {L : List (Nat × Nat)}
    (h : UserSpace m root sz tf T L) : Proper m root := by
  have hpage : ∀ va, Readable m root va →
      ∃ e, L[va / PGSIZE]? = some e ∧ PTE2PA (flat m root (va / PGSIZE)) = e.1 := by
    intro va hr
    have hflat : flat m root (va / PGSIZE) = _ := h.flat_eq (vpn_lt hr.1)
    have hU := hr.2.2
    rw [hflat] at hU ⊢
    exact h.space.user_page NoUser.kernelPages hU
  refine ⟨?_, ?_, ?_⟩
  · intro va hr hmem
    obtain ⟨e, he, hpa⟩ := hpage va hr
    rw [hpa] at hmem
    have hT : e.1 ∈ T := h.space.maps.tables ▸ hmem
    exact h.space.owned.disjoint hT (mem_leaves (List.mem_of_getElem? he))
  · intro va va' hr hr' heq
    obtain ⟨e, he, hpa⟩ := hpage va hr
    obtain ⟨e', he', hpa'⟩ := hpage va' hr'
    exact h.space.page_inj he he' (hpa ▸ hpa' ▸ heq)
  · intro va hr
    obtain ⟨e, he, hpa⟩ := hpage va hr
    rw [hpa]
    exact (h.space.allocatable (List.mem_of_getElem? he)).pos.ne'

theorem walkaddr_eq (m : Mem) (root va : Nat) : walkaddr root va m =
    .ok (if Readable m root va then PTE2PA (flat m root (va / PGSIZE)) else 0, m) := by
  rw [walkaddr]
  by_cases hva : va < MAXVA
  · rw [if_neg (Nat.not_le.mpr hva), Fallible.bind_ok (walk_eq hva)]
    have hflat : flat m root (va / PGSIZE) = ptes.lookup m.load 2 root (pageIndex (va / 4096)) := rfl
    cases hleaf : ptes.leaf m.load 2 root (pageIndex (va / 4096)) with
    | none =>
      have hnot : ¬Readable m root va := fun h => h.2.1 (by
        rw [hflat, Radix.lookup_of_no_leaf hleaf]
        rfl)
      rw [if_neg hnot]
      rfl
    | some p =>
      have hload : loadPte (p, pageIndex (va / 4096) 0) m = .ok (flat m root (va / PGSIZE), m) := by
        rw [hflat, Radix.lookup_of_leaf hleaf]
        rfl
      rw [Option.map_some]
      refine (Fallible.bind_ok hload).trans ?_
      by_cases hV : flat m root (va / PGSIZE) &&& PTE_V = 0
      · rw [if_pos hV, if_neg fun h => h.2.1 hV]
        rfl
      · rw [if_neg hV]
        by_cases hU : flat m root (va / PGSIZE) &&& PTE_U = 0
        · rw [if_pos hU, if_neg fun h => h.2.2 hU]
          rfl
        · rw [if_neg hU, if_pos ⟨hva, hV, hU⟩]
          rfl
  · rw [if_pos (Nat.not_lt.mp hva), if_neg fun h => hva h.1]
    rfl

theorem walkaddr_page (m : Mem) (root va : Nat) : walkaddr root (PGROUNDDOWN va) m =
    .ok (if Readable m root va then PTE2PA (flat m root (va / PGSIZE)) else 0, m) := by
  have hdiv : PGROUNDDOWN va / PGSIZE = va / PGSIZE := PGROUNDDOWN_div va
  have hiff : Readable m root (PGROUNDDOWN va) ↔ Readable m root va :=
    ⟨fun h => h.same_page hdiv.symm, fun h => h.same_page hdiv⟩
  rw [walkaddr_eq, hdiv]
  simp only [hiff]

-- The bytes that user code reads from va on.
def userBytes (m : Mem) (root va len : Nat) : List UInt8 :=
  (List.range len).map fun k => m.byte (physical m root (va + k))

theorem userBytes_zero (m : Mem) (root va : Nat) : userBytes m root va 0 = [] := rfl

theorem userBytes_add (m : Mem) (root va n len : Nat) :
    userBytes m root va (n + len) = userBytes m root va n ++ userBytes m root (va + n) len := by
  rw [userBytes, List.range_add, List.map_append, List.map_map]
  simp only [userBytes, Function.comp_def, Nat.add_assoc]

theorem getBytes_page {n : Nat} (m : Mem) (root : Nat) (hfit : va % PGSIZE + n ≤ PGSIZE) :
    (m.page (PTE2PA (flat m root (va / PGSIZE)))).getBytes (va % PGSIZE) n = userBytes m root va n := by
  refine List.map_congr_left fun k hk => ?_
  have hlt := List.mem_range.mp hk
  rw [byte_physical, add_div_page (by omega), add_mod_page (by omega)]

theorem copyinLoop_exact (hp : Proper m root) (hfuel : len ≤ fuel) :
    copyinLoop root fuel va len m =
      .ok (if ∀ k < len, Readable m root (va + k) then some (userBytes m root va len) else none, m) := by
  induction fuel generalizing va len with
  | zero =>
    obtain rfl : len = 0 := Nat.le_zero.mp hfuel
    rw [if_pos fun k hk => absurd hk (Nat.not_lt_zero k)]
    rfl
  | succ fuel ih =>
    rw [copyinLoop]
    by_cases hzero : len = 0
    · subst hzero
      rw [if_pos rfl, if_pos fun k hk => absurd hk (Nat.not_lt_zero k)]
      rfl
    · rw [if_neg hzero, Fallible.bind_ok (walkaddr_page m root va)]
      by_cases hr : Readable m root va
      · rw [if_pos hr, if_neg (hp.pos va hr), sub_PGROUNDDOWN]
        generalize hn : min (PGSIZE - va % PGSIZE) len = n
        have hlt : va % PGSIZE < PGSIZE := Nat.mod_lt _ (by decide)
        have hrest : copyinLoop root fuel (u64 (PGROUNDDOWN va + PGSIZE)) (len - n) m =
            .ok (if ∀ k < len - n, Readable m root (va + n + k)
              then some (userBytes m root (va + n) (len - n)) else none, m) := by
          rw [ih (by omega)]
          by_cases hmore : len - n = 0
          · rw [hmore, if_pos fun k hk => absurd hk (Nat.not_lt_zero k),
              if_pos fun k hk => absurd hk (Nat.not_lt_zero k), userBytes_zero, userBytes_zero]
          · have hnext : u64 (PGROUNDDOWN va + PGSIZE) = va + n := next_page hr.1 (by omega)
            rw [hnext]
        have hall : (∀ k < len, Readable m root (va + k)) ↔
            ∀ k < len - n, Readable m root (va + n + k) := by
          refine ⟨fun h k hk => Nat.add_assoc va n k ▸ h (n + k) (by omega), fun h k hk => ?_⟩
          by_cases hfirst : k < n
          · exact hr.same_page (add_div_page (by omega))
          · have := h (k - n) (by omega)
            rwa [Nat.add_assoc, Nat.add_sub_cancel' (by omega)] at this
        have hbytes : userBytes m root va len =
            userBytes m root va n ++ userBytes m root (va + n) (len - n) := by
          rw [← userBytes_add, Nat.add_sub_cancel' (by omega)]
        have hget : (get : MemM Mem) m = .ok (m, m) := rfl
        rw [Fallible.bind_ok hget, hn, Fallible.bind_ok hrest, hbytes, getBytes_page m root (by omega)]
        by_cases hrange : ∀ k < len - n, Readable m root (va + n + k)
        · rw [if_pos hrange, if_pos (hall.mpr hrange)]
          rfl
        · rw [if_neg hrange, if_neg (mt hall.mp hrange)]
          rfl
      · rw [if_neg hr, if_pos rfl, if_neg fun h => hr (h 0 (by omega))]
        rfl

-- copyout() and copyin() move exactly the bytes of the range.
theorem copyout_copyin_exact (hp : Proper m root) :
    (∀ dstva src, ∃ k m', copyout root dstva src m = .ok (if k = src.length then 0 else -1, m') ∧
      k ≤ src.length ∧ (∀ j < k, Writable m root (dstva + j)) ∧
      (k < src.length → ¬Writable m root (dstva + k)) ∧ Wrote m m' root dstva (src.take k) ∧
      (k = src.length → copyin root dstva src.length m' = .ok (some src, m'))) ∧
    ∀ srcva len, copyin root srcva len m =
      .ok (if ∀ k < len, Readable m root (srcva + k) then some (userBytes m root srcva len) else none,
        m) := by
  refine ⟨?_, fun srcva len => copyinLoop_exact hp le_rfl⟩
  intro dstva src
  obtain ⟨k, m', hrun, hk⟩ := copyoutLoop_exact dstva hp (Nat.le_refl src.length)
  refine ⟨k, m', hrun, hk.le, hk.writable, hk.stop, hk.wrote, ?_⟩
  · rintro rfl
    have hread : ∀ j < src.length, Readable m' root (dstva + j) := fun j hj =>
      hk.same.readable.mpr (hk.writable j hj).readable
    have hbytes : userBytes m' root dstva src.length = src := by
      refine List.ext_getElem (by simp [userBytes]) ?_
      intro j hj hj'
      have hwrote := hk.wrote.bytes j src[j]
      rw [List.take_length] at hwrote
      simp only [userBytes, List.getElem_map, List.getElem_range, hk.same.physical]
      exact hwrote (List.getElem?_eq_getElem hj')
    rw [copyin, copyinLoop_exact (hk.same.proper hp) le_rfl, if_pos hread, hbytes]

-- The range ends in a page that is not mapped.
theorem copyout_copyin_exact_sample : ∃ m root, Proper m root ∧
    Writable m root 4094 ∧ Writable m root 4095 ∧ ¬Writable m root 4096 ∧ ∃ m',
      copyout root 4094 [1, 2, 3] m = .ok (-1, m') ∧ Wrote m m' root 4094 [1, 2] := by
  obtain ⟨m, old, new, To, Tn, Lo, hgood, hO, -, -⟩ := sampleTables_some (fun root m =>
    decide (Writable m root 4094 ∧ Writable m root 4095 ∧ ¬Writable m root 4096))
    (freshMem_owned (n := 20) (by decide)) (by decide +kernel)
  obtain ⟨h₀, h₁, h₂⟩ := of_decide_eq_true hgood
  obtain ⟨k, m', hrun, hle, hall, hstop, hwrote, -⟩ :=
    (copyout_copyin_exact hO.proper).1 4094 [1, 2, 3]
  obtain rfl : k = 2 := by
    match k, hle with
    | 0, _ => exact absurd h₀ (hstop (by decide))
    | 1, _ => exact absurd h₁ (hstop (by decide))
    | 2, _ => rfl
    | 3, _ => exact absurd (hall 2 (by decide)) h₂
  exact ⟨m, old, hO.proper, h₀, h₁, h₂, m', hrun, hwrote⟩

-- A table that maps its own bottom page for user code.
def selfMapped : Mem where
  image := sampleImage
  pool := ⟨fun pa =>
    if pa = 0x80023000 then (Page.fill 0).putWord 0 (PA2PTE 0x80024000 ||| PTE_V)
    else if pa = 0x80024000 then (Page.fill 0).putWord 0 (PA2PTE 0x80025000 ||| PTE_V)
    else if pa = 0x80025000 then
      (Page.fill 0).putWord 0 (PA2PTE 0x80025000 ||| (PTE_V ||| PTE_R ||| PTE_W ||| PTE_U))
    else .fill 0, []⟩
  deny := []

-- The byte that is copied out removes the page.
theorem copyout_unmaps : ∃ m', copyout 0x80023000 0 [0] selfMapped = .ok (0, m') ∧
    copyin 0x80023000 0 1 m' = .ok (none, m') := by
  have hw : Writable selfMapped 0x80023000 0 := by decide +kernel
  have hr : ¬Readable (selfMapped.put 0x80023000 0 [0]) 0x80023000 0 := by decide +kernel
  refine ⟨selfMapped.put 0x80023000 0 [0], ?_, ?_⟩
  · have hrun : copyout 0x80023000 0 [0] selfMapped = _ := User.copyout_erases ⟨selfMapped, []⟩
    rw [hrun, User.copyout_one, if_pos hw]
    rfl
  · rw [copyin, copyinLoop, if_neg (by decide), Fallible.bind_ok (walkaddr_page _ _ _), if_neg hr,
      if_pos rfl]
    rfl

end Xv6
