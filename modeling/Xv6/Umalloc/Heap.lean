import Xv6.Umalloc.Inv

namespace Xv6.Umalloc

open Lib

variable {base limit nbytes fuel k n : Nat} {s s' : State} {h : Heap} {l l' : List Block} {b t x y : Block}

-- The free list, whose nodes are base and the free blocks, and the live blocks.
structure Sound (base : Nat) (s : State) (free : List Block) : Prop where
  circular : Cyclic s.heap.next ((node base :: free).map Block.addr)
  freep : ∃ x ∈ node base :: free, x.addr = s.heap.freep
  order : (node base :: free).Pairwise fun x y => x.addr < y.addr
  header : ∀ x ∈ node base :: free ++ s.blocks, s.heap.size x.addr = x.size
  disjoint : (free ++ s.blocks).Pairwise fun x y => ∀ a, x.extent.Has a → ¬y.extent.Has a
  inside : ∀ x ∈ free ++ s.blocks, ∀ a, x.extent.Has a → ∃ e ∈ s.heap.regions, e.Has a
  apart : ∀ x ∈ free, ∀ y ∈ free, x.stop ≠ y.addr
  total : HEADER * total (free ++ s.blocks) = s.heap.obtained
  usable : ∀ a ∈ s.live, (blockOf a).addr + HEADER = a.1 ∧ a.1 + a.2 ≤ (blockOf a).stop

theorem le_units (h : nbytes < 2 ^ 32) : nbytes + HEADER ≤ HEADER * Heap.units nbytes := by
  simp only [Heap.units, HEADER]
  omega

theorem Gaps.pairwise (h : Gaps l) : l.Pairwise fun x y => x.stop < y.addr := by
  have : IsTrans Block fun x y => x.stop < y.addr :=
    ⟨fun x y z hxy hyz => (hxy.trans_le (Nat.le_add_right _ _)).trans hyz⟩
  exact List.IsChain.pairwise h

theorem Inv.sound (hi : Inv base s l) : ∃ free, Sound base s free := by
  obtain ⟨free, rfl⟩ := List.head?_eq_some_iff.mp hi.linked.head
  have hpair := hi.tiles.pairwise
  rw [List.cons_append] at hpair
  refine ⟨free, hi.linked.cyclic, hi.freep, hi.linked.order.imp fun h => h.1, ?_,
    (List.pairwise_cons.mp hpair).2, ?_, ?_, ?_, ?_⟩
  · intro x hx
    rcases List.mem_append.mp hx with hx | hx
    · exact hi.linked.size x hx
    · exact hi.header x hx
  · intro x hx a ha
    rw [← cover_pos_iff, ← hi.tiles.cover, cover_pos_iff]
    exact ⟨x.extent, List.mem_map_of_mem (List.mem_cons_of_mem _ hx), ha⟩
  · intro x hx y hy
    have hgaps := (List.pairwise_cons.mp hi.gaps.pairwise).2
    have : Std.Symm fun x y : Block => x.stop ≠ y.addr ∧ y.stop ≠ x.addr := ⟨fun _ _ h => h.symm⟩
    refine (List.Pairwise.forall_of_forall (R := fun x y => x.stop ≠ y.addr ∧ y.stop ≠ x.addr) ?_ (hgaps.imp ?_)
      hx hy).1
    · intro x hx
      have hlt : x.addr < x.stop :=
        Nat.lt_add_of_pos_right (Nat.mul_pos (by decide) (hi.linked.pos x hx))
      exact ⟨hlt.ne', hlt.ne'⟩
    · intro x y hlt
      have hx : x.addr ≤ x.stop := Nat.le_add_right _ _
      have hy : y.addr ≤ y.stop := Nat.le_add_right _ _
      omega
  · rw [← hi.tiles.total, List.cons_append, total_cons]
    exact congrArg _ (Nat.zero_add _).symm
  · intro a ha
    obtain ⟨hle, hlt⟩ := hi.ptr a ha
    have hunits := le_units hlt
    simp only [blockOf, Block.stop]
    omega

-- Every run of a program, as long as all sizes fit in a uint.
theorem malloc_free_sound (hbase : 0 < base) (hr : Reach base (HEADER * 2 ^ 32) s) :
    (Start s ∨ ∃ free, Sound base s free) ∧
      (∀ sbrk nbytes, Small nbytes → s.heap.Answers base (HEADER * 2 ^ 32) sbrk →
        ∃ fuel r, s.heap.malloc sbrk base fuel nbytes = some r) ∧
      ∀ a ∈ s.live, ∃ fuel h, s.heap.free fuel a.1 = some h := by
  have hready := hr.ready hbase
  refine ⟨hready.imp_right fun ⟨l, hi⟩ => hi.sound, ?_, ?_⟩
  · intro sbrk nbytes hsmall hanswers
    obtain ⟨fuel, r, l', hcall, -⟩ := hready.malloc hbase hsmall hanswers.toAbove
    exact ⟨fuel, r, hcall⟩
  · intro a ha
    rcases hready with hs | ⟨l, hi⟩
    · rw [hs.2.2] at ha
      cases ha
    · obtain ⟨h', l', hcall, hi'⟩ := hi.free ha (Nat.le_refl _)
      exact ⟨_, h', hcall⟩

-- sbrk() where only m bytes are given.
def sbrkOnly (m : Int) (p : Nat) (n : Int) : Option Nat := if n = m then some p else none

theorem answers_sbrkOnly {m : Int} {p : Nat} (haligned : p % HEADER = 0) (hbase : base + HEADER ≤ p)
    (hfresh : ∀ e ∈ h.regions, e.stop ≤ p) (hlimit : h.obtained + m.toNat < limit) :
    h.Answers base limit (sbrkOnly m p) := by
  have hsome : ∀ n q, sbrkOnly m p n = some q → n = m ∧ q = p := by
    intro n q hq
    by_cases hn : n = m
    · rw [sbrkOnly, if_pos hn] at hq
      exact ⟨hn, (Option.some.inj hq).symm⟩
    · rw [sbrkOnly, if_neg hn] at hq
      cases hq
  refine ⟨⟨?_, ?_, ?_⟩, ?_⟩
  all_goals
    intro n q hq
    obtain ⟨rfl, rfl⟩ := hsome n q hq
    assumption

-- A program that has not called malloc().
def empty : State := ⟨⟨fun _ => ⟨0, 0⟩, 0, []⟩, []⟩

theorem start_empty : Start empty := ⟨rfl, rfl, rfl⟩

theorem malloc_free_sound_first : ∃ s, Reach 16 (HEADER * 2 ^ 32) s ∧ s.live = [(65552, 8)] ∧
    (Start s ∨ ∃ free, Sound 16 s free) := by
  have hanswers : empty.heap.Answers 16 (HEADER * 2 ^ 32) (sbrkOnly 65536 32) :=
    answers_sbrkOnly rfl (by decide) (by simp [empty, Heap.regions])
      (by simp [empty, Heap.obtained, HEADER])
  obtain ⟨h, hcall⟩ : ∃ h, empty.heap.malloc (sbrkOnly 65536 32) 16 3 8 = some (65552, h) := ⟨_, rfl⟩
  have hr : Reach 16 (HEADER * 2 ^ 32) ⟨h, [(65552, 8)]⟩ :=
    .step (.start start_empty) (.malloc (by decide) hanswers hcall)
  exact ⟨_, hr, rfl, (malloc_free_sound (by decide) hr).1⟩

-- Blocks of 2^27 - 1 units one after the other.
def wide (k : Nat) : Block := ⟨32 + 2147483632 * k, 134217727⟩

-- The pointers to k of them.
def wides (k : Nat) : List (Nat × Nat) :=
  (List.range k).reverse.map fun j => ((wide j).addr + HEADER, 2147483616)

theorem wides_succ (k : Nat) : wides (k + 1) = ((wide k).addr + HEADER, 2147483616) :: wides k := by
  rw [wides, List.range_succ, List.reverse_append]
  rfl

-- The calls of sbrk() for k of them.
def wideSbrks (k : Nat) : List (Int × Nat) := (List.range k).map fun j => (2147483632, (wide j).addr)

-- A heap where malloc() has returned k of them.
structure Full (k : Nat) (h : Heap) : Prop where
  linked : Linked 16 h [node 16]
  freep : h.freep = 16
  blocks : ∀ j < k, h.size (wide j).addr = 134217727
  sbrks : h.sbrks = wideSbrks k

-- A heap with k of them left, where n units after them are free.
structure Part (k n : Nat) (h : Heap) : Prop where
  freep : h.freep = 16
  next : h.next 16 = (wide k).addr
  last : h.next (wide k).addr = 16
  base : h.size 16 = 0
  size : h.size (wide k).addr = n
  blocks : ∀ j < k, h.size (wide j).addr = 134217727
  sbrks : h.sbrks = wideSbrks 33

theorem wide_ne {j k : Nat} (h : j < k) : (wide j).addr ≠ (wide k).addr := by
  simp only [wide]
  omega

theorem lt_wide (k : Nat) : 16 < (wide k).addr := by
  simp only [wide]
  omega

theorem Full.malloc (hf : Full k (h.start 16)) :
    ∃ h', h.malloc (sbrkOnly 2147483632 (wide k).addr) 16 3 2147483616 = some ((wide k).addr + HEADER, h') ∧
      Full (k + 1) h' := by
  have hfresh : Fresh 16 [node 16] ⟨(wide k).addr, 134217727⟩ :=
    ⟨lt_wide k, by simp [node, Block.stop, (lt_wide k).le], by simp [total, node]⟩
  have hnone : ∀ y ∈ [node 16], y.size < 134217727 := by simp [node]
  have hsbrk : sbrkOnly 2147483632 (wide k).addr (Heap.sbrkArg (Heap.moreUnits 134217727)) = some (wide k).addr := if_pos rfl
  obtain ⟨r, l', t, hcall, hdone, hsbrks, hstop⟩ := hf.linked.malloc_grown (List.isChain_singleton _)
    ⟨node 16, List.mem_singleton_self _, hf.freep.symm⟩ (by decide) (by decide) hnone hsbrk hfresh
    (Nat.le_refl 3)
  have hmore : Heap.moreUnits 134217727 = 134217727 := rfl
  have ht : t.addr = (wide k).addr := by
    have hunits := hdone.units
    rw [Block.stop, hunits, hmore] at hstop
    exact Nat.add_right_cancel hstop
  -- All the units are taken.
  have hl' : l' = [node 16] := by
    obtain ⟨free, rfl⟩ := List.head?_eq_some_iff.mp hdone.linked.head
    have htotal := hdone.total
    rw [hmore, total_cons t, hdone.units] at htotal
    cases free with
    | nil => rfl
    | cons y free =>
      have hpos := hdone.linked.pos y List.mem_cons_self
      simp [total, node] at htotal
      omega
  subst hl'
  obtain ⟨y, hy, hfreep⟩ := hdone.freep
  rw [List.mem_singleton.mp hy] at hfreep
  refine ⟨r.2, ?_, hdone.linked, hfreep.symm, ?_, ?_⟩
  · exact hcall.trans (congrArg some (Prod.ext (by rw [hdone.ret, ht]) rfl))
  · intro j hj
    rcases Nat.lt_succ_iff_lt_or_eq.mp hj with hlt | rfl
    · rw [hdone.frame, hf.blocks j hlt]
      · rw [ht]
        exact wide_ne hlt
      · intro y hy
        rcases List.mem_cons.mp hy with rfl | hy
        · exact wide_ne hlt
        · rw [List.mem_singleton.mp hy]
          exact (lt_wide j).ne'
    · rw [← ht, hdone.header, hdone.units]
  · rw [hsbrks, hf.sbrks, wideSbrks, wideSbrks, List.range_succ, List.map_append]
    rfl

theorem Full.free (hf : Full (k + 1) h) (hsbrks : h.sbrks = wideSbrks 33) :
    ∃ h', h.free 1 ((wide k).addr + HEADER) = some h' ∧ Part k 134217727 h' := by
  have hnext : h.next 16 = 16 := (List.cons.inj (cyclic_cons.mp hf.linked.cyclic)).1
  have hbase : h.size 16 = 0 := hf.linked.size (node 16) (List.mem_singleton_self _)
  have hsize := hf.blocks k (Nat.lt_succ_self k)
  have hlt := lt_wide k
  have hloop : h.freeLoop (wide k).addr 1 h.freep = some 16 := by
    rw [Heap.freeLoop, hf.freep, hnext, if_neg (by omega), if_pos ⟨Nat.le_refl _, .inl hlt⟩]
  have hlink : h.link 16 (wide k).addr =
      ((h.setPtr (wide k).addr 16).setPtr 16 (wide k).addr).setFreep 16 := by
    rw [Heap.link, Heap.linkNext, if_neg (by omega), Heap.linkPrev, if_neg, hnext]
    simp only [Heap.size_setPtr, hbase]
    omega
  rw [Heap.free, Nat.add_sub_cancel, hloop]
  refine ⟨_, rfl, ?_⟩
  dsimp only
  rw [hlink]
  refine ⟨rfl, ?_, ?_, ?_, ?_, ?_, hsbrks⟩
  · simp
  · simp [hlt.ne']
  · simpa using hbase
  · simpa using hsize
  · intro j hj
    simpa using hf.blocks j (by omega)

theorem Part.free (hp : Part (k + 1) n h) :
    ∃ h', h.free 1 ((wide k).addr + HEADER) = some h' ∧ Part k ((134217727 + n) % 2 ^ 32) h' := by
  have hsize := hp.blocks k (Nat.lt_succ_self k)
  have hlt := lt_wide k
  have hloop : h.freeLoop (wide k).addr 1 h.freep = some 16 := by
    rw [Heap.freeLoop, hp.freep, hp.next, if_pos (by simp only [wide]; omega)]
  have hmeet : (wide k).addr + HEADER * h.size (wide k).addr = h.next 16 := by
    rw [hsize, hp.next]
    simp only [wide, HEADER]
    omega
  have hlink : h.link 16 (wide k).addr =
      (((h.setSize (wide k).addr (134217727 + n)).setPtr (wide k).addr 16).setPtr 16
        (wide k).addr).setFreep 16 := by
    rw [Heap.link, Heap.linkNext, if_pos hmeet, hp.next, hsize, hp.size, Heap.linkPrev, if_neg]
    · simp [hp.next, hp.last]
    · simp [hlt.ne, hp.base]
  rw [Heap.free, Nat.add_sub_cancel, hloop]
  refine ⟨_, rfl, ?_⟩
  dsimp only
  rw [hlink]
  refine ⟨rfl, ?_, ?_, ?_, ?_, ?_, hp.sbrks⟩
  · simp
  · simp [hlt.ne']
  · simp [hlt.ne, hp.base]
  · simp
  · intro j hj
    simp [wide_ne hj, hp.blocks j (by omega)]

theorem answers_wide (hs : h.sbrks = wideSbrks k) (hk : k ≤ 32) :
    h.Answers 16 (HEADER * 2 ^ 33) (sbrkOnly 2147483632 (wide k).addr) := by
  have hobtained : h.obtained = k * 2147483632 := by
    rw [Heap.obtained, hs, wideSbrks, List.map_map]
    simp [Function.comp_def]
  refine answers_sbrkOnly ?_ ?_ ?_ ?_
  · simp only [wide, HEADER]
    omega
  · simp only [wide, HEADER]
    omega
  · intro e he
    rw [Heap.regions, hs, wideSbrks, List.map_map, List.mem_map] at he
    obtain ⟨j, hj, rfl⟩ := he
    have hj := List.mem_range.mp hj
    simp only [wide, Function.comp_apply]
    omega
  · rw [hobtained]
    simp only [HEADER]
    omega

theorem reach_step {s : State} (hk : k ≤ 32) (hr : Reach 16 (HEADER * 2 ^ 33) s) (hf : Full k (s.heap.start 16))
    (hlive : s.live = wides k) :
    ∃ s, Reach 16 (HEADER * 2 ^ 33) s ∧ Full (k + 1) s.heap ∧ s.live = wides (k + 1) := by
  obtain ⟨h', hcall, hf'⟩ := hf.malloc
  have hsbrks : s.heap.sbrks = wideSbrks k := by rw [← sbrks_start s.heap 16, hf.sbrks]
  have hsmall : Small 2147483616 := by decide
  refine ⟨_, .step hr (.malloc hsmall (answers_wide hsbrks hk) hcall), hf', ?_⟩
  rw [wides_succ, ← hlive]
  have hne : (wide k).addr + HEADER ≠ 0 := by
    have := lt_wide k
    omega
  dsimp only
  rw [if_neg hne]

theorem reach_full (hk : k ≤ 32) :
    ∃ s, Reach 16 (HEADER * 2 ^ 33) s ∧ Full (k + 1) s.heap ∧ s.live = wides (k + 1) := by
  induction k with
  | zero =>
    refine reach_step hk (.start start_empty) ⟨start_empty.inv.linked, rfl, ?_, rfl⟩ rfl
    intro j hj
    omega
  | succ k ih =>
    obtain ⟨s, hr, hf, hlive⟩ := ih (by omega)
    have hstart : s.heap.start 16 = s.heap := if_neg (by simp [hf.freep])
    exact reach_step hk hr (hstart.symm ▸ hf) hlive

theorem reach_part {m : Nat} (hm : m ≤ 32) :
    ∃ s, Reach 16 (HEADER * 2 ^ 33) s ∧ Part (32 - m) ((m + 1) * 134217727 % 2 ^ 32) s.heap ∧
      s.live = wides (32 - m) := by
  induction m with
  | zero =>
    obtain ⟨s, hr, hf, hlive⟩ := reach_full (Nat.le_refl 32)
    obtain ⟨h', hcall, hp⟩ := hf.free hf.sbrks
    have hmem : ((wide 32).addr + HEADER, 2147483616) ∈ s.live := hlive ▸ wides_succ 32 ▸ List.mem_cons_self
    refine ⟨_, .step hr (.free hmem hcall), hp, ?_⟩
    dsimp only
    rw [hlive, wides_succ, List.erase_cons_head]
  | succ m ih =>
    obtain ⟨s, hr, hp, hlive⟩ := ih (by omega)
    obtain ⟨k, hk⟩ : ∃ k, 32 - m = k + 1 := ⟨31 - m, by omega⟩
    have hk' : 32 - (m + 1) = k := by omega
    rw [hk] at hp hlive
    obtain ⟨h', hcall, hp'⟩ := hp.free
    have hmem : ((wide k).addr + HEADER, 2147483616) ∈ s.live := hlive ▸ wides_succ k ▸ List.mem_cons_self
    have hsum : (134217727 + (m + 1) * 134217727 % 2 ^ 32) % 2 ^ 32 =
        (m + 1 + 1) * 134217727 % 2 ^ 32 := by omega
    rw [hk', ← hsum]
    refine ⟨_, .step hr (.free hmem hcall), hp', ?_⟩
    dsimp only
    rw [hlive, wides_succ, List.erase_cons_head]

-- With 33 blocks of nearly 2 GiB the size of the free block does not fit in a uint.
theorem free_size_wraps : ∃ s, Reach 16 (HEADER * 2 ^ 33) s ∧ ¬(Start s ∨ ∃ free, Sound 16 s free) := by
  obtain ⟨s, hr, hp, hlive⟩ := reach_part (Nat.le_refl 32)
  refine ⟨s, hr, ?_⟩
  rintro (hs | ⟨free, hs⟩)
  · have := hs.1
    rw [hp.freep] at this
    cases this
  · have hobtained : s.heap.obtained = 33 * 2147483632 := by
      rw [Heap.obtained, hp.sbrks]
      rfl
    have hblocks : s.blocks = [] := by
      rw [State.blocks, hlive]
      rfl
    have htotal := hs.total
    rw [hblocks, hobtained, List.append_nil] at htotal
    have hcirc := cyclic_cons.mp hs.circular
    cases free with
    | nil => simp [total] at htotal
    | cons x free =>
      obtain ⟨hx, hrest⟩ := List.cons.inj hcirc
      cases free with
      | nil =>
        have hsize := hs.header x (by simp)
        have hx : x.addr = (wide 0).addr := hx.symm.trans hp.next
        rw [hx, hp.size] at hsize
        rw [total_cons, ← hsize] at htotal
        exact absurd htotal (by decide)
      | cons y free =>
        have hx : x.addr = (wide 0).addr := hx.symm.trans hp.next
        have hy : y.addr = 16 := by
          rw [List.map_cons, List.map_cons, hx] at hrest
          exact (List.cons.inj hrest).1.symm.trans hp.last
        have hlt := (List.pairwise_cons.mp hs.order).1 y (by simp)
        simp only [node] at hlt
        omega

end Xv6.Umalloc
