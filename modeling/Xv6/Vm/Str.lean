import Xv6.Vm.Exact

namespace Xv6

open Lib

-- The inner loop of copyinstr(), from the byte at off on: whether it has found a zero, and
-- what it has stored at dst.
def copyinstrBytes (p : Page) : Nat → Nat → Bool × List UInt8
  | 0, _ => (false, [])
  | n + 1, off =>
    if p.byte off = 0 then
      (true, [0])
    else
      let rest := copyinstrBytes p n (off + 1)
      (rest.1, p.byte off :: rest.2)

-- What copyinstr() has done: its result, the bytes that it has stored from dst on, and the
-- user pages that it has read.
structure Fetched where
  ret : Int
  dst : List UInt8
  pages : List Nat

-- copyinstr() with all that it does.
def copyinstrFetch (pagetable : Nat) : Nat → Nat → Nat → MemM Fetched
  | 0, _, _ => return ⟨-1, [], []⟩
  | fuel + 1, srcva, max =>
    if max = 0 then
      return ⟨-1, [], []⟩
    else do
      let pa0 ← walkaddr pagetable (PGROUNDDOWN srcva)
      if pa0 = 0 then
        return ⟨-1, [], []⟩
      else do
        let m ← get
        let off := srcva - PGROUNDDOWN srcva
        let n := min (PGSIZE - off) max
        let bytes := copyinstrBytes (m.page pa0) n off
        if bytes.1 then
          return ⟨0, bytes.2, [srcva / PGSIZE]⟩
        else do
          let rest ← copyinstrFetch pagetable fuel (u64 (PGROUNDDOWN srcva + PGSIZE)) (max - n)
          return ⟨rest.ret, bytes.2 ++ rest.dst, srcva / PGSIZE :: rest.pages⟩

-- The string at va ends at its byte k.
structure NulAt (m : Mem) (root va k : Nat) : Prop where
  readable : ∀ j ≤ k, Readable m root (va + j)
  zero : m.byte (physical m root (va + k)) = 0
  first : ∀ j < k, m.byte (physical m root (va + j)) ≠ 0

variable {m : Mem} {root va max fuel k n off : Nat}

theorem getBytes_succ (p : Page) (off n : Nat) :
    p.getBytes off (n + 1) = p.byte off :: p.getBytes (off + 1) n := by
  rw [Page.getBytes, List.range_succ_eq_map, List.map_cons, List.map_map]
  simp only [Page.getBytes, Function.comp_def, Nat.add_zero, Nat.succ_eq_add_one, Nat.add_assoc,
    Nat.add_comm 1]

theorem copyinstrBytes_cases (p : Page) (n off : Nat) :
    (∃ k < n, p.byte (off + k) = 0 ∧ (∀ j < k, p.byte (off + j) ≠ 0) ∧
      copyinstrBytes p n off = (true, p.getBytes off (k + 1))) ∨
    ((∀ j < n, p.byte (off + j) ≠ 0) ∧ copyinstrBytes p n off = (false, p.getBytes off n)) := by
  induction n generalizing off with
  | zero => exact .inr ⟨fun j hj => absurd hj (Nat.not_lt_zero j), rfl⟩
  | succ n ih =>
    rw [copyinstrBytes]
    by_cases hzero : p.byte off = 0
    · refine .inl ⟨0, Nat.succ_pos n, hzero, fun j hj => absurd hj (Nat.not_lt_zero j), ?_⟩
      rw [if_pos hzero, getBytes_succ, hzero]
      rfl
    · rw [if_neg hzero]
      have hshift : ∀ j, off + (j + 1) = off + 1 + j := fun j => by omega
      rcases ih (off + 1) with ⟨k, hk, hbyte, hfirst, hrun⟩ | ⟨hnone, hrun⟩
      · refine .inl ⟨k + 1, by omega, hshift k ▸ hbyte, ?_, ?_⟩
        · intro j hj
          cases j with
          | zero => exact hzero
          | succ j => exact hshift j ▸ hfirst j (by omega)
        · rw [hrun, getBytes_succ p off (k + 1)]
      · refine .inr ⟨?_, ?_⟩
        · intro j hj
          cases j with
          | zero => exact hzero
          | succ j => exact hshift j ▸ hnone j (by omega)
        · rw [hrun, getBytes_succ p off n]

theorem byte_page {j : Nat} (m : Mem) (root : Nat) (h : va % PGSIZE + j < PGSIZE) :
    (m.page (PTE2PA (flat m root (va / PGSIZE)))).byte (va % PGSIZE + j) =
      m.byte (physical m root (va + j)) := by
  rw [byte_physical, add_div_page h, add_mod_page h]

theorem NulAt.unique {k' : Nat} (h : NulAt m root va k) (h' : NulAt m root va k') : k = k' := by
  by_contra hne
  rcases Nat.lt_or_gt_of_ne hne with hlt | hlt
  · exact h'.first k hlt h.zero
  · exact h.first k' hlt h'.zero

theorem nulAt_add (hread : ∀ j < n, Readable m root (va + j))
    (hbyte : ∀ j < n, m.byte (physical m root (va + j)) ≠ 0) :
    NulAt m root va (n + k) ↔ NulAt m root (va + n) k := by
  refine ⟨fun h => ⟨?_, ?_, ?_⟩, fun h => ⟨?_, ?_, ?_⟩⟩
  · intro j hj
    rw [Nat.add_assoc]
    exact h.readable (n + j) (by omega)
  · rw [Nat.add_assoc]
    exact h.zero
  · intro j hj
    rw [Nat.add_assoc]
    exact h.first (n + j) (by omega)
  · intro j hj
    by_cases hlt : j < n
    · exact hread j hlt
    · have := h.readable (j - n) (by omega)
      rwa [Nat.add_assoc, Nat.add_sub_cancel' (by omega)] at this
  · rw [← Nat.add_assoc]
    exact h.zero
  · intro j hj
    by_cases hlt : j < n
    · exact hbyte j hlt
    · have := h.first (j - n) (by omega)
      rwa [Nat.add_assoc, Nat.add_sub_cancel' (by omega)] at this

-- What copyinstr() may have done.
inductive Fetches (m : Mem) (root va max : Nat) (r : Fetched) : Prop
  | found {k : Nat} (hk : k < max) (hnul : NulAt m root va k) (hret : r.ret = 0)
      (hdst : r.dst = userBytes m root va (k + 1)) (hpages : ∀ v ∈ r.pages, v ≤ (va + k) / PGSIZE)
  | failed (hnone : ∀ k < max, ¬NulAt m root va k) (hret : r.ret = -1) (hdst : r.dst.length ≤ max)

theorem copyinstrFetch_spec (va : Nat) (hpos : ∀ va, Readable m root va → PTE2PA (flat m root (va / PGSIZE)) ≠ 0)
    (hfuel : max ≤ fuel) :
    ∃ r, copyinstrFetch root fuel va max m = .ok (r, m) ∧ Fetches m root va max r := by
  induction fuel generalizing va max with
  | zero =>
    obtain rfl : max = 0 := Nat.le_zero.mp hfuel
    exact ⟨_, rfl, .failed (fun k hk => absurd hk (Nat.not_lt_zero k)) rfl (Nat.le_refl 0)⟩
  | succ fuel ih =>
    rw [copyinstrFetch]
    by_cases hmax : max = 0
    · subst hmax
      exact ⟨_, rfl, .failed (fun k hk => absurd hk (Nat.not_lt_zero k)) rfl (Nat.le_refl 0)⟩
    · rw [if_neg hmax, Fallible.bind_ok (walkaddr_page m root va)]
      by_cases hr : Readable m root va
      · have hget : (get : MemM Mem) m = .ok (m, m) := rfl
        rw [if_pos hr, if_neg (hpos va hr), sub_PGROUNDDOWN, Fallible.bind_ok hget]
        generalize hn : min (PGSIZE - va % PGSIZE) max = n
        have hlt : va % PGSIZE < PGSIZE := Nat.mod_lt _ (by decide)
        have hread : ∀ j < n, Readable m root (va + j) := fun j hj =>
          hr.same_page (add_div_page (by omega))
        rcases copyinstrBytes_cases (m.page (PTE2PA (flat m root (va / PGSIZE)))) n (va % PGSIZE) with
          ⟨k, hk, hbyte, hfirst, hrun⟩ | ⟨hnone, hrun⟩
        · rw [byte_page m root (by omega)] at hbyte
          rw [hrun, if_pos rfl]
          refine ⟨_, rfl, .found (k := k) (by omega) ⟨?_, hbyte, ?_⟩ rfl ?_ ?_⟩
          · intro j hj
            exact hread j (by omega)
          · intro j hj
            have := hfirst j hj
            rwa [byte_page m root (by omega)] at this
          · exact getBytes_page m root (by omega)
          · intro v hv
            rw [List.mem_singleton.mp hv]
            exact Nat.div_le_div_right (Nat.le_add_right va k)
        · have hbyte : ∀ j < n, m.byte (physical m root (va + j)) ≠ 0 := by
            intro j hj
            have := hnone j hj
            rwa [byte_page m root (by omega)] at this
          have hlen : (userBytes m root va n).length = n := by simp [userBytes]
          obtain ⟨r, hrest, hr'⟩ := ih (u64 (PGROUNDDOWN va + PGSIZE)) (show max - n ≤ fuel by omega)
          rw [hrun, if_neg Bool.false_ne_true, Fallible.bind_ok hrest, getBytes_page m root (by omega)]
          refine ⟨_, rfl, ?_⟩
          by_cases hmore : max - n = 0
          · rw [hmore] at hr'
            cases hr' with
            | found hk => exact absurd hk (Nat.not_lt_zero _)
            | failed _ hret hdst =>
              refine .failed (fun k hk h => hbyte k (by omega) h.zero) hret ?_
              rw [List.length_append, hlen]
              omega
          · have hnext : u64 (PGROUNDDOWN va + PGSIZE) = va + n := next_page hr.1 (by omega)
            rw [hnext] at hr'
            cases hr' with
            | @found k hk hnul hret hdst hpages =>
              refine .found (k := n + k) (by omega) ((nulAt_add hread hbyte).mpr hnul) hret ?_ ?_
              · rw [Nat.add_assoc, userBytes_add, ← hdst]
              · intro v hv
                rcases List.mem_cons.mp hv with rfl | hv
                · exact Nat.div_le_div_right (Nat.le_add_right va _)
                · rw [← Nat.add_assoc]
                  exact hpages v hv
            | failed hnot hret hdst =>
              refine .failed ?_ hret ?_
              · intro k hk h
                by_cases hfirst : k < n
                · exact hbyte k hfirst h.zero
                · obtain ⟨j, rfl⟩ := Nat.exists_eq_add_of_le (Nat.le_of_not_lt hfirst)
                  exact hnot j (by omega) ((nulAt_add hread hbyte).mp h)
              · rw [List.length_append, hlen]
                omega
      · rw [if_neg hr, if_pos rfl]
        refine ⟨_, rfl, .failed (fun k _ h => hr (h.readable 0 (Nat.zero_le k))) rfl (Nat.zero_le _)⟩

theorem copyinstrBytes_eq (p : Page) (n off : Nat) :
    if 0 ∈ p.getBytes off n then
      (copyinstrBytes p n off).1 = true ∧ (copyinstrBytes p n off).2 ≠ [] ∧
        (copyinstrBytes p n off).2.dropLast = (p.getBytes off n).takeWhile (· ≠ 0)
    else copyinstrBytes p n off = (false, p.getBytes off n) := by
  induction n generalizing off with
  | zero =>
    rw [if_neg (by simp [Page.getBytes])]
    rfl
  | succ n ih =>
    have hrest := ih (off + 1)
    rw [getBytes_succ, copyinstrBytes]
    by_cases hzero : p.byte off = 0
    · rw [if_pos (by simp [hzero]), if_pos hzero]
      simp [hzero]
    · rw [if_neg hzero]
      by_cases hmem : 0 ∈ p.getBytes (off + 1) n
      · rw [if_pos hmem] at hrest
        rw [if_pos (List.mem_cons_of_mem _ hmem)]
        refine ⟨hrest.1, List.cons_ne_nil _ _, ?_⟩
        rw [List.dropLast_cons_of_ne_nil hrest.2.1, hrest.2.2, List.takeWhile_cons, if_pos (by simpa using hzero)]
      · rw [if_neg hmem] at hrest
        rw [if_neg (by simp [hmem, Ne.symm hzero]), hrest]

-- copyinstr() as the other system calls see it.
theorem copyinstrLoop_eq (fuel va max : Nat) :
    ∃ r, copyinstrFetch root fuel va max m = .ok (r, m) ∧ (r.ret = 0 → r.dst ≠ []) ∧
      copyinstrLoop root fuel va max m = .ok (if r.ret = 0 then some r.dst.dropLast else none, m) := by
  have hstop : ∃ r : Fetched, (.ok (⟨-1, [], []⟩, m) : Except Panic (Fetched × Mem)) = .ok (r, m) ∧
      (r.ret = 0 → r.dst ≠ []) ∧
      (.ok (none, m) : Except Panic (Option (List UInt8) × Mem)) =
        .ok (if r.ret = 0 then some r.dst.dropLast else none, m) :=
    ⟨_, rfl, fun h => absurd h (by decide), rfl⟩
  induction fuel generalizing va max with
  | zero => exact hstop
  | succ fuel ih =>
    rw [copyinstrFetch, copyinstrLoop]
    by_cases hmax : max = 0
    · rw [if_pos hmax, if_pos hmax]
      exact hstop
    · rw [if_neg hmax, if_neg hmax, Fallible.bind_ok (walkaddr_page m root va),
        Fallible.bind_ok (walkaddr_page m root va)]
      generalize (if Readable m root va then PTE2PA (flat m root (va / PGSIZE)) else 0) = pa0
      by_cases hpa : pa0 = 0
      · rw [if_pos hpa, if_pos hpa]
        exact hstop
      · have hget : (get : MemM Mem) m = .ok (m, m) := rfl
        rw [if_neg hpa, if_neg hpa, Fallible.bind_ok hget, Fallible.bind_ok hget]
        generalize va - PGROUNDDOWN va = off
        generalize min (PGSIZE - off) max = n
        have hbytes := copyinstrBytes_eq (m.page pa0) n off
        by_cases hmem : 0 ∈ (m.page pa0).getBytes off n
        · rw [if_pos hmem] at hbytes
          rw [if_pos hbytes.1, if_pos hmem]
          refine ⟨_, rfl, fun _ => hbytes.2.1, ?_⟩
          rw [if_pos rfl, hbytes.2.2]
          rfl
        · rw [if_neg hmem] at hbytes
          obtain ⟨r, hfetch, hne, hloop⟩ := ih (u64 (PGROUNDDOWN va + PGSIZE)) (max - n)
          rw [hbytes, if_neg Bool.false_ne_true, if_neg hmem, Fallible.bind_ok hfetch,
            Fallible.bind_ok hloop]
          refine ⟨_, rfl, fun h => ?_, ?_⟩
          · exact List.append_ne_nil_of_right_ne_nil _ (hne h)
          · by_cases hret : r.ret = 0
            · rw [if_pos hret, if_pos hret, List.dropLast_append_of_ne_nil (hne hret)]
              rfl
            · rw [if_neg hret, if_neg hret]
              rfl

-- copyinstr() finds the string if there is one, stores it with its zero and reads no page
-- behind it.
theorem copyinstr_exact
    (hpos : ∀ va, Readable m root va → PTE2PA (flat m root (va / PGSIZE)) ≠ 0) (srcva max : Nat) :
    ∃ r, copyinstrFetch root max srcva max m = .ok (r, m) ∧ (r.ret = 0 ∨ r.ret = -1) ∧
      (r.ret = 0 ↔ ∃ k < max, NulAt m root srcva k) ∧
      (∀ k < max, NulAt m root srcva k → r.dst = userBytes m root srcva (k + 1) ∧
        ∀ v ∈ r.pages, v ≤ (srcva + k) / PGSIZE) ∧
      r.dst.length ≤ max ∧
      copyinstr root srcva max m = .ok (if r.ret = 0 then some r.dst.dropLast else none, m) := by
  obtain ⟨r, hrun, hr⟩ := copyinstrFetch_spec srcva hpos (Nat.le_refl max)
  obtain ⟨r', hrun', -, hcopy⟩ := @copyinstrLoop_eq m root max srcva max
  rw [hrun] at hrun'
  cases hrun'
  refine ⟨r, hrun, ?_⟩
  cases hr with
  | @found k hk hnul hret hdst hpages =>
    refine ⟨.inl hret, iff_of_true hret ⟨k, hk, hnul⟩, ?_, ?_, hcopy⟩
    · intro j hj hnul'
      rw [hnul'.unique hnul]
      exact ⟨hdst, hpages⟩
    · rw [hdst, userBytes, List.length_map, List.length_range]
      omega
  | failed hnone hret hdst =>
    refine ⟨.inr hret, ?_, ?_, hdst, hcopy⟩
    · refine iff_of_false (by rw [hret]; decide) ?_
      rintro ⟨k, hk, hnul⟩
      exact hnone k hk hnul
    · intro k hk hnul
      exact absurd hnul (hnone k hk)

theorem copyinstr_exact_sample : ∃ m root r, Proper m root ∧
    copyinstrFetch root 10 4094 10 m = .ok (r, m) ∧ (r.ret = 0 ↔ ∃ k < 10, NulAt m root 4094 k) := by
  obtain ⟨m, old, new, To, Tn, Lo, -, hO, -, -⟩ :=
    sampleTables_some (fun _ _ => true) (freshMem_owned (n := 20) (by decide)) (by decide +kernel)
  obtain ⟨r, hrun, -, hiff, -⟩ := copyinstr_exact hO.proper.pos 4094 10
  exact ⟨m, old, r, hO.proper, hrun, hiff⟩

-- A table that maps the physical page 0.
def zeroMapped : Mem where
  image := sampleImage
  pool := ⟨fun pa =>
    if pa = 0x80023000 then (Page.fill 0).putWord 0 (PA2PTE 0x80024000 ||| PTE_V)
    else if pa = 0x80024000 then (Page.fill 0).putWord 0 (PA2PTE 0x80025000 ||| PTE_V)
    else if pa = 0x80025000 then (Page.fill 0).putWord 0 (PTE_V ||| PTE_R ||| PTE_U)
    else .fill 0, []⟩
  deny := []

-- The address of the page is taken for a failure of walkaddr().
theorem copyinstr_misses : NulAt zeroMapped 0x80023000 0 0 ∧
    ∃ r, copyinstrFetch 0x80023000 1 0 1 zeroMapped = .ok (r, zeroMapped) ∧ r.ret = -1 := by
  have hr : Readable zeroMapped 0x80023000 0 := by decide +kernel
  have hzero : PTE2PA (flat zeroMapped 0x80023000 (0 / PGSIZE)) = 0 := by decide +kernel
  refine ⟨⟨?_, by decide +kernel, fun j hj => absurd hj (Nat.not_lt_zero j)⟩, ⟨-1, [], []⟩, ?_, rfl⟩
  · intro j hj
    rw [Nat.le_zero.mp hj]
    exact hr
  · rw [copyinstrFetch, if_neg (by decide), Fallible.bind_ok (walkaddr_page _ _ _), if_pos hr, hzero,
      if_pos rfl]
    rfl

end Xv6
