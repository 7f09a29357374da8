import Xv6.Umalloc.Free

namespace Xv6.Umalloc

open Lib

variable {base fuel nunits prevp : Nat} {h h' : Heap} {l l₁ l₂ : List Block} {b t w x y : Block}
  {sbrk : Int → Option Nat}

-- A free list without the units of t, which were the last ones of a block.
structure Taken (t : Block) (l l' : List Block) : Prop where
  cover : ∀ a, cover (extents l) a = cover (extents (t :: l')) a
  total : total l = total (t :: l')
  mem : ∃ y ∈ l, y.addr ≤ t.addr ∧ y.stop = t.stop ∧ t.size ≤ y.size
  addr : ∀ y ∈ l', ∃ z ∈ l, y.addr = z.addr

theorem size_le_total (hy : y ∈ l) : y.size ≤ total l := by
  obtain ⟨l₁, l₂, rfl⟩ := List.append_of_mem hy
  simp only [total, List.map_append, List.map_cons, List.sum_append, List.sum_cons]
  omega

theorem Linked.nodup (hl : Linked base h l) : (l.map Block.addr).Nodup := by
  refine List.Pairwise.map _ (fun x y hxy => ?_) hl.order
  exact Nat.ne_of_lt hxy.1

-- The whole block y is taken, which comes after w.
theorem Linked.take_whole (hl : Linked base h (l₁ ++ w :: y :: l₂)) (hgaps : Gaps (l₁ ++ w :: y :: l₂)) :
    Linked base (h.setPtr w.addr (h.next y.addr)) (l₁ ++ w :: l₂) ∧ Gaps (l₁ ++ w :: l₂) ∧
      Taken y (l₁ ++ w :: y :: l₂) (l₁ ++ w :: l₂) := by
  have hsub : (l₁ ++ w :: l₂).Sublist (l₁ ++ w :: y :: l₂) := by simp
  obtain ⟨hg₁, hgw, hg⟩ := gaps_split.mp hgaps
  obtain ⟨hwy, hg⟩ := gaps_cons.mp hg
  obtain ⟨hy₂, hg₂⟩ := gaps_cons.mp hg
  refine ⟨⟨?_, ?_, ?_, ?_, hl.order.sublist hsub⟩, ?_, ⟨?_, ?_, ?_, ?_⟩⟩
  · have := hl.head
    cases l₁ <;> simpa using this
  · have hcyclic := hl.cyclic
    rw [List.map_append, List.map_cons, List.map_cons] at hcyclic
    rw [List.map_append, List.map_cons]
    apply hcyclic.erase
    · rw [Heap.next_setPtr, Function.update_self]
    · intro a ha
      rw [← List.map_append] at ha
      obtain ⟨z, hz, rfl⟩ := List.mem_map.mp ha
      have hne := hl.ne_addr z (by
        simp only [List.mem_append, List.mem_cons] at hz ⊢
        tauto)
      rw [Heap.next_setPtr, Function.update_of_ne hne]
  · intro z hz
    rw [Heap.size_setPtr]
    exact hl.size z (hsub.subset hz)
  · intro z hz
    exact hl.pos z (hsub.tail.subset hz)
  · refine gaps_split.mpr ⟨hg₁, hgw, gaps_cons.mpr ⟨?_, hg₂⟩⟩
    intro z hz
    have hstop : y.addr ≤ y.stop := Nat.le_add_right ..
    have := hwy y rfl
    have := hy₂ z hz
    omega
  · intro a
    simp only [extents, List.map_append, List.map_cons, cover_append, cover_cons]
    omega
  · simp only [total, List.map_append, List.map_cons, List.sum_append, List.sum_cons]
    omega
  · exact ⟨y, by simp, Nat.le_refl _, rfl, Nat.le_refl _⟩
  · intro z hz
    exact ⟨z, hsub.subset hz, rfl⟩

-- The last n units of the block y are taken.
theorem Linked.take_tail {n : Nat} (hl : Linked base h (l₁ ++ y :: l₂)) (hgaps : Gaps (l₁ ++ y :: l₂))
    (hn : 0 < n) (hlt : n < y.size) (hsize : y.size < 2 ^ 32)
    (ht : t = ⟨y.addr + HEADER * (y.size - n), n⟩) :
    Linked base ((h.setSize y.addr (y.size - n)).setSize t.addr n) (l₁ ++ ⟨y.addr, y.size - n⟩ :: l₂) ∧
      Gaps (l₁ ++ ⟨y.addr, y.size - n⟩ :: l₂) ∧
      Taken t (l₁ ++ y :: l₂) (l₁ ++ ⟨y.addr, y.size - n⟩ :: l₂) := by
  subst ht
  have hadd : HEADER * (y.size - n) + HEADER * n = HEADER * y.size := by
    rw [← Nat.mul_add, Nat.sub_add_cancel (Nat.le_of_lt hlt)]
  have hpos : 0 < HEADER * (y.size - n) := Nat.mul_pos (by decide) (by omega)
  have hposn : 0 < HEADER * n := Nat.mul_pos (by decide) hn
  obtain ⟨h₁, h₂, h₁₂⟩ := List.pairwise_append.mp hl.order
  rw [List.pairwise_cons] at h₂
  -- No node is within y.
  have hne : ∀ z ∈ l₁ ++ l₂, z.addr ≠ y.addr ∧ z.addr ≠ y.addr + HEADER * (y.size - n) := by
    intro z hz
    rcases List.mem_append.mp hz with hz | hz
    · have := (h₁₂ z hz y (by simp)).1
      omega
    · have := h₂.1 z hz
      simp only [Block.Before, Block.stop] at this
      omega
  obtain ⟨hg₁, hgy, hg⟩ := gaps_split.mp hgaps
  obtain ⟨hy₂, hg₂⟩ := gaps_cons.mp hg
  have hl₁ : l₁ ≠ [] := by
    rintro rfl
    have hy : y = node base := by simpa using hl.head
    simp [hy, node] at hlt
  refine ⟨⟨?_, ?_, ?_, ?_, ?_⟩, ?_, ⟨?_, ?_, ?_, ?_⟩⟩
  · rw [List.head?_append_of_ne_nil _ hl₁, ← List.head?_append_of_ne_nil _ hl₁]
    exact hl.head
  · have hcyclic := hl.cyclic
    rw [List.map_append, List.map_cons] at hcyclic ⊢
    simpa using hcyclic
  · intro z hz
    have hz : z = ⟨y.addr, y.size - n⟩ ∨ z ∈ l₁ ++ l₂ := by
      simp only [List.mem_append, List.mem_cons] at hz ⊢
      tauto
    rw [Heap.size_setSize, Heap.size_setSize]
    rcases hz with rfl | hz
    · rw [Function.update_of_ne (by simp only; omega), Function.update_self, Nat.mod_eq_of_lt (by omega)]
    · rw [Function.update_of_ne (hne z hz).2, Function.update_of_ne (hne z hz).1]
      apply hl.size
      simp only [List.mem_append, List.mem_cons] at hz ⊢
      tauto
  · intro z hz
    have hold := hl.pos
    rw [List.tail_append_of_ne_nil hl₁] at hz hold
    simp only [List.mem_append, List.mem_cons] at hz hold
    rcases hz with hz | rfl | hz
    · exact hold z (.inl hz)
    · exact Nat.sub_pos_of_lt hlt
    · exact hold z (.inr (.inr hz))
  · refine List.pairwise_append.mpr ⟨h₁, List.pairwise_cons.mpr ⟨?_, h₂.2⟩, ?_⟩
    · intro z hz
      have := h₂.1 z hz
      simp only [Block.Before, Block.stop] at this ⊢
      omega
    · intro z hz v hv
      rcases List.mem_cons.mp hv with rfl | hv
      · exact h₁₂ z hz y List.mem_cons_self
      · exact h₁₂ z hz v (List.mem_cons_of_mem _ hv)
  · refine gaps_split.mpr ⟨hg₁, hgy, gaps_cons.mpr ⟨?_, hg₂⟩⟩
    intro z hz
    have := hy₂ z hz
    simp only [Block.stop] at this ⊢
    omega
  · intro a
    have hjoin : cover (extents [y]) a =
        cover (extents [⟨y.addr, y.size - n⟩, ⟨y.addr + HEADER * (y.size - n), n⟩]) a := by
      rw [← cover_join rfl, Block.join, Nat.sub_add_cancel (Nat.le_of_lt hlt)]
    simp only [extents, List.map_append, List.map_cons, List.map_nil, cover_append, cover_cons,
      cover_nil] at hjoin ⊢
    omega
  · simp only [total, List.map_append, List.map_cons, List.sum_append, List.sum_cons]
    omega
  · exact ⟨y, by simp, Nat.le_add_right .., by simp only [Block.stop]; omega, Nat.le_of_lt hlt⟩
  · intro z hz
    simp only [List.mem_append, List.mem_cons] at hz
    rcases hz with hz | rfl | hz
    · exact ⟨z, by simp [hz], rfl⟩
    · exact ⟨y, by simp, rfl⟩
    · exact ⟨z, by simp [hz], rfl⟩

-- What malloc() has done for a block t of nunits units.
structure Gives (base nunits : Nat) (h : Heap) (l : List Block) (r : Nat × Heap) (l' : List Block)
    (t : Block) : Prop where
  ret : r.1 = t.addr + HEADER
  units : t.size = nunits
  header : r.2.size t.addr = t.size
  linked : Linked base r.2 l'
  gaps : Gaps l'
  freep : ∃ y ∈ l', y.addr = r.2.freep
  taken : Taken t l l'
  sbrks : r.2.sbrks = h.sbrks
  frame : ∀ a, a ≠ t.addr → (∀ y ∈ l, a ≠ y.addr) → r.2.size a = h.size a

-- The block y is large enough, which comes after w.
theorem Linked.take (hl : Linked base h (l₁ ++ w :: y :: l₂)) (hgaps : Gaps (l₁ ++ w :: y :: l₂))
    (hn : 0 < nunits) (hle : nunits ≤ y.size) (hsize : y.size < 2 ^ 32) :
    ∃ l' t, Gives base nunits h (l₁ ++ w :: y :: l₂) (h.take nunits w.addr y.addr) l' t := by
  have hsy : h.size y.addr = y.size := hl.size y (by simp)
  by_cases heq : y.size = nunits
  · obtain ⟨hlinked, hgaps', htaken⟩ := hl.take_whole hgaps
    have htake : h.take nunits w.addr y.addr =
        (y.addr + HEADER, (h.setPtr w.addr (h.next y.addr)).setFreep w.addr) := by
      rw [Heap.take, if_pos (hsy.trans heq)]
    rw [htake]
    exact ⟨l₁ ++ w :: l₂, y, ⟨rfl, heq, by simpa using hsy, hlinked.congr (fun _ _ => rfl) fun _ _ => rfl,
      hgaps', ⟨w, by simp, rfl⟩, htaken, rfl, fun a _ _ => by simp⟩⟩
  · have hlt : nunits < y.size := by omega
    have htake : h.take nunits w.addr y.addr =
        (y.addr + HEADER * (y.size - nunits) + HEADER,
          ((h.setSize y.addr (y.size - nunits)).setSize (y.addr + HEADER * (y.size - nunits)) nunits).setFreep
            w.addr) := by
      have hmod : (y.size - nunits) % 2 ^ 32 = y.size - nunits := Nat.mod_eq_of_lt (by omega)
      simp only [Heap.take, hsy, heq, if_false, Heap.size_setSize, Function.update_self, hmod]
    rw [htake]
    have hassoc : ∀ r, l₁ ++ w :: r = (l₁ ++ [w]) ++ r := fun r => List.append_cons ..
    rw [hassoc] at hl hgaps ⊢
    obtain ⟨hlinked, hgaps', htaken⟩ := hl.take_tail hgaps hn hlt hsize rfl
    refine ⟨_, _, ⟨rfl, rfl, ?_, hlinked.congr (fun _ _ => rfl) fun _ _ => rfl, hgaps',
      ⟨w, by simp, rfl⟩, htaken, rfl, ?_⟩⟩
    · simp only [Heap.size_setFreep, Heap.size_setSize, Function.update_self]
      exact Nat.mod_eq_of_lt (by omega)
    · intro a hat hay
      have hay := hay y (by simp)
      simp only [Heap.size_setFreep, Heap.size_setSize]
      rw [Function.update_of_ne hat, Function.update_of_ne hay]

theorem mallocLoop_skip {s : List Block} {m : List Nat} {p : Nat}
    (hchain : List.IsChain (fun a b => h.next a = b) (prevp :: (s.map Block.addr ++ p :: m)))
    (hsmall : ∀ y ∈ s, h.size y.addr < nunits) (hfreep : ∀ y ∈ s, y.addr ≠ h.freep) :
    Heap.mallocLoop sbrk nunits (fuel + s.length) h prevp (h.next prevp) =
      Heap.mallocLoop sbrk nunits fuel h ((prevp :: s.map Block.addr).getLast (by simp)) p := by
  induction s generalizing prevp with
  | nil =>
    have hnext : h.next prevp = p := by simpa using (List.isChain_cons_cons.mp hchain).1
    simp [hnext]
  | cons y s ih =>
    rw [List.map_cons, List.cons_append, List.isChain_cons_cons] at hchain
    have hloop : Heap.mallocLoop sbrk nunits (fuel + (s.length + 1)) h prevp (h.next prevp) =
        Heap.mallocLoop sbrk nunits (fuel + s.length) h y.addr (h.next y.addr) := by
      rw [hchain.1, ← Nat.add_assoc, Heap.mallocLoop,
        if_neg (Nat.not_le.mpr (hsmall y List.mem_cons_self)), if_neg (hfreep y List.mem_cons_self)]
    rw [List.length_cons, hloop, ih hchain.2 (fun z hz => hsmall z (List.mem_cons_of_mem _ hz))
      (fun z hz => hfreep z (List.mem_cons_of_mem _ hz))]
    rfl

theorem Linked.around {f : Block} (hl : Linked base h (l₁ ++ f :: l₂)) :
    List.IsChain (fun a b => h.next a = b) (f.addr :: ((l₂ ++ l₁ ++ [f]).map Block.addr)) := by
  have hcyclic := hl.cyclic
  rw [List.map_append, List.map_cons] at hcyclic
  have hchain := hcyclic.from.isChain
  rwa [List.map_append, List.map_append, List.map_singleton]

theorem Linked.mallocLoop {f : Block} {s m : List Block} (sbrk : Int → Option Nat) (fuel : Nat)
    (hl : Linked base h (l₁ ++ f :: l₂)) (hfreep : f.addr = h.freep) (hm : l₂ ++ l₁ ++ [f] = s ++ y :: m)
    (hsmall : ∀ z ∈ s, z.size < nunits) :
    Heap.mallocLoop sbrk nunits (fuel + s.length) h h.freep (h.next h.freep) =
        Heap.mallocLoop sbrk nunits fuel h ((f.addr :: s.map Block.addr).getLast (by simp)) y.addr ∧
      (∀ z ∈ s, z ∈ l₁ ++ l₂) := by
  have hmem : ∀ z ∈ s, z ∈ l₁ ++ l₂ := by
    intro z hz
    have hlast : z ∈ (s ++ y :: m).dropLast := by
      rw [List.dropLast_append_of_ne_nil (by simp)]
      exact List.mem_append_left _ hz
    rw [← hm, List.dropLast_concat, List.mem_append] at hlast
    exact List.mem_append.mpr hlast.symm
  have hin : ∀ z ∈ s, z ∈ l₁ ++ f :: l₂ := by
    intro z hz
    have := hmem z hz
    simp only [List.mem_append, List.mem_cons] at this ⊢
    tauto
  refine ⟨?_, hmem⟩
  have hchain := hl.around
  rw [hm, List.map_append, List.map_cons] at hchain
  rw [← hfreep]
  apply mallocLoop_skip hchain
  · intro z hz
    rw [hl.size z (hin z hz)]
    exact hsmall z hz
  · intro z hz
    rw [← hfreep]
    exact hl.ne_addr z (hmem z hz)

theorem Linked.pred (hl : Linked base h l) (hy : y ∈ l) (hpos : 0 < y.size) :
    ∃ l₁ w l₂, l = l₁ ++ w :: y :: l₂ := by
  obtain ⟨m, l₂, rfl⟩ := List.append_of_mem hy
  have hm : m ≠ [] := by
    rintro rfl
    have hbase : y = node base := by simpa using hl.head
    simp [hbase, node] at hpos
  refine ⟨m.dropLast, m.getLast hm, l₂, ?_⟩
  rw [List.append_cons m.dropLast, List.dropLast_append_getLast]

-- If a block is large enough, malloc() takes its units from one.
theorem Linked.malloc_found (sbrk : Int → Option Nat) (hl : Linked base h l) (hgaps : Gaps l)
    (hfreep : ∃ f ∈ l, f.addr = h.freep) (hn : 0 < nunits) (hlarge : ∃ y ∈ l, nunits ≤ y.size) (htotal : total l < 2 ^ 32)
    (hf : l.length ≤ fuel) :
    ∃ r l' t, Heap.mallocLoop sbrk nunits fuel h h.freep (h.next h.freep) = some r ∧
      Gives base nunits h l r l' t := by
  obtain ⟨f, hmem, hfreep⟩ := hfreep
  obtain ⟨l₁, l₂, rfl⟩ := List.append_of_mem hmem
  -- The first block that is large enough.
  obtain ⟨s, y, m, hm, hy, hsmall⟩ : ∃ s y m, l₂ ++ l₁ ++ [f] = s ++ y :: m ∧ nunits ≤ y.size ∧
      ∀ z ∈ s, z.size < nunits := by
    obtain ⟨y, hy, hle⟩ := hlarge
    have hy : y ∈ l₂ ++ l₁ ++ [f] := by
      simp only [List.mem_append, List.mem_cons] at hy ⊢
      tauto
    cases hfind : (l₂ ++ l₁ ++ [f]).find? fun z => decide (nunits ≤ z.size) with
    | none => exact absurd hle (by simpa using List.find?_eq_none.mp hfind y hy)
    | some z =>
      obtain ⟨hz, s, m, hm, hs⟩ := List.find?_eq_some_iff_append.mp hfind
      exact ⟨s, z, m, hm, by simpa using hz, fun v hv => by simpa using hs v hv⟩
  have hlen : s.length < fuel := by
    have := congrArg List.length hm
    simp only [List.length_append, List.length_cons] at this hf
    simp only [List.length_nil] at this
    omega
  obtain ⟨hloop, hin⟩ := hl.mallocLoop sbrk (fuel - s.length) hfreep hm hsmall
  rw [Nat.sub_add_cancel (Nat.le_of_lt hlen)] at hloop
  have hyl : y ∈ l₁ ++ f :: l₂ := by
    have hy : y ∈ l₂ ++ l₁ ++ [f] := by simp [hm]
    simp only [List.mem_append, List.mem_cons] at hy ⊢
    tauto
  obtain ⟨m₁, w, m₂, hsplit⟩ := hl.pred hyl (by omega)
  -- The loop comes from the node before y.
  generalize hprev : (f.addr :: s.map Block.addr).getLast (by simp) = prev at hloop
  have hprevp : prev = w.addr := by
    have hchain := hl.around
    rw [hm, List.map_append, List.map_cons, ← List.cons_append] at hchain
    have hnext : h.next prev = y.addr := by
      refine (List.isChain_append.mp hchain).2.2 prev ?_ y.addr (by simp)
      rw [← hprev]
      exact List.getLast?_eq_getLast_of_ne_nil _
    have hpmem : prev ∈ (l₁ ++ f :: l₂).map Block.addr := by
      have hlast : prev ∈ f.addr :: s.map Block.addr := hprev ▸ List.getLast_mem _
      rcases List.mem_cons.mp hlast with rfl | hlast
      · exact List.mem_map_of_mem (by simp)
      · obtain ⟨z, hz, rfl⟩ := List.mem_map.mp hlast
        have := hin z hz
        apply List.mem_map_of_mem
        simp only [List.mem_append, List.mem_cons] at this ⊢
        tauto
    have hw : h.next w.addr = y.addr := by
      rw [hsplit] at hl
      exact hl.next_eq
    have hwmem : w.addr ∈ (l₁ ++ f :: l₂).map Block.addr := by
      rw [hsplit]
      exact List.mem_map_of_mem (by simp)
    exact hl.cyclic.next_inj hl.nodup prev hpmem w.addr hwmem (hnext.trans hw.symm)
  have hsize : h.size y.addr = y.size := hl.size y hyl
  have hlt : y.size < 2 ^ 32 := by
    have := size_le_total hyl
    omega
  obtain ⟨k, hk⟩ : ∃ k, fuel - s.length = k + 1 := ⟨fuel - s.length - 1, by omega⟩
  rw [hk, Heap.mallocLoop, hsize, if_pos hy, hprevp] at hloop
  rw [hsplit] at hl hgaps ⊢
  obtain ⟨l', t, hgives⟩ := hl.take hgaps hn hy hlt
  exact ⟨_, l', t, hloop, hgives⟩

-- What sbrk() may return: a place above base and the free blocks, where the units all
-- together can be counted.
structure Fresh (base : Nat) (l : List Block) (b : Block) : Prop where
  base : base < b.addr
  above : ∀ y ∈ l, y.stop ≤ b.addr
  total : total (b :: l) < 2 ^ 32

-- morecore() puts the new block into the free list.
theorem Linked.morecore {p : Nat} (hl : Linked base h l) (hgaps : Gaps l)
    (hfreep : ∃ f ∈ l, f.addr = h.freep) (hsbrk : sbrk (Heap.sbrkArg (Heap.moreUnits nunits)) = some p)
    (hfresh : Fresh base l ⟨p, Heap.moreUnits nunits⟩) (hf : l.length ≤ fuel) :
    ∃ h' l', h.morecore sbrk fuel nunits = some (h'.freep, h') ∧ Linked base h' l' ∧ Gaps l' ∧
      Released ⟨p, Heap.moreUnits nunits⟩ l l' ∧ (∃ f ∈ l', f.addr = h'.freep) ∧
      h'.sbrks = h.sbrks ++ [(Heap.sbrkArg (Heap.moreUnits nunits), p)] ∧
      ∀ a, a ≠ p → (∀ y ∈ l, a ≠ y.addr) → h'.size a = h.size a := by
  have hpos : 0 < Heap.moreUnits nunits := by
    unfold Heap.moreUnits
    split <;> omega
  have hlt : Heap.moreUnits nunits < 2 ^ 32 := by
    have := hfresh.total
    simp only [total, List.map_cons, List.sum_cons] at this
    omega
  have hbefore : ∀ y ∈ l, y.addr < p := by
    intro y hy
    obtain ⟨l', rfl⟩ := List.head?_eq_some_iff.mp hl.head
    rcases List.mem_cons.mp hy with rfl | hy
    · exact hfresh.base
    · have hstop := hfresh.above y (List.mem_cons_of_mem _ hy)
      have hsize := hl.pos y hy
      have : 0 < HEADER * y.size := Nat.mul_pos (by decide) hsize
      simp only [Block.stop] at hstop
      omega
  generalize hh₁ : (Heap.mk h.mem h.freep (h.sbrks ++ [(Heap.sbrkArg (Heap.moreUnits nunits), p)])).setSize p
    (Heap.moreUnits nunits) = h₁
  have hnext₁ : h₁.next = h.next := by
    rw [← hh₁, Heap.next_setSize]
    rfl
  have hsize₁ : h₁.size = Function.update h.size p (Heap.moreUnits nunits) := by
    rw [← hh₁, Heap.size_setSize, Nat.mod_eq_of_lt hlt]
    rfl
  have hl₁ : Linked base h₁ l := by
    refine hl.congr (fun x _ => by rw [hnext₁]) fun x hx => ?_
    rw [hsize₁, Function.update_of_ne (Nat.ne_of_lt (hbefore x hx))]
  have hb : Apart base h₁ l ⟨p, Heap.moreUnits nunits⟩ := by
    refine ⟨?_, hpos, hfresh.base, fun y hy => .inl ⟨hbefore y hy, hfresh.above y hy⟩, hfresh.total⟩
    rw [hsize₁]
    exact Function.update_self ..
  have hfreep₁ : ∃ f ∈ l, f.addr = h₁.freep := by
    rw [← hh₁]
    exact hfreep
  obtain ⟨h', l', hfree, hl', hgaps', hreleased, hfreep', hsbrks, hframe⟩ :=
    hl₁.free hgaps hfreep₁ hb hf
  refine ⟨h', l', ?_, hl', hgaps', hreleased, hfreep', ?_, ?_⟩
  · rw [Heap.morecore]
    simp only [hsbrk, hh₁]
    rw [hfree]
    rfl
  · rw [hsbrks, ← hh₁]
    rfl
  · intro a hap hay
    rw [hframe a hap hay, hsize₁, Function.update_of_ne hap]

-- malloc() has returned a block t of nunits units, where more are the blocks it got from
-- sbrk().
structure Malloced (base nunits : Nat) (h : Heap) (l more : List Block) (r : Nat × Heap)
    (l' : List Block) (t : Block) : Prop where
  ret : r.1 = t.addr + HEADER
  units : t.size = nunits
  header : r.2.size t.addr = t.size
  linked : Linked base r.2 l'
  gaps : Gaps l'
  freep : ∃ y ∈ l', y.addr = r.2.freep
  cover : ∀ a, cover (extents (more ++ l)) a = cover (extents (t :: l')) a
  total : total (more ++ l) = total (t :: l')
  frame : ∀ a, a ≠ t.addr → (∀ y ∈ more ++ l, a ≠ y.addr) → r.2.size a = h.size a

theorem Gives.malloced {r : Nat × Heap} {l' : List Block} (hg : Gives base nunits h l r l' t) :
    Malloced base nunits h l [] r l' t :=
  ⟨hg.ret, hg.units, hg.header, hg.linked, hg.gaps, hg.freep, hg.taken.cover, hg.taken.total, hg.frame⟩

theorem Linked.freep_ne_zero (hl : Linked base h l) (hbase : 0 < base) (hfreep : ∃ f ∈ l, f.addr = h.freep) :
    h.freep ≠ 0 := by
  obtain ⟨f, hf, hfreep⟩ := hfreep
  have := hl.base_le f hf
  omega

theorem Linked.malloc_full (hl : Linked base h l) (hfreep : ∃ f ∈ l, f.addr = h.freep)
    (hsmall : ∀ y ∈ l, y.size < nunits) (hf : l.length ≤ fuel) :
    Heap.mallocLoop sbrk nunits fuel h h.freep (h.next h.freep) =
      (h.morecore sbrk (fuel - l.length) nunits).bind fun (p, h) =>
        if p = 0 then some (0, h) else Heap.mallocLoop sbrk nunits (fuel - l.length) h p (h.next p) := by
  obtain ⟨f, hmem, hfreep⟩ := hfreep
  obtain ⟨l₁, l₂, rfl⟩ := List.append_of_mem hmem
  have hm : l₂ ++ l₁ ++ [f] = (l₂ ++ l₁) ++ f :: [] := rfl
  obtain ⟨hloop, -⟩ := hl.mallocLoop sbrk (fuel - (l₁ ++ f :: l₂).length + 1) hfreep hm
    fun z hz => hsmall z (by
      simp only [List.mem_append, List.mem_cons] at hz ⊢
      tauto)
  have hfuel : fuel - (l₁ ++ f :: l₂).length + 1 + (l₂ ++ l₁).length = fuel := by
    simp only [List.length_append, List.length_cons] at hf ⊢
    omega
  rw [hfuel] at hloop
  have hsize : ¬nunits ≤ h.size f.addr := by
    rw [hl.size f hmem]
    exact Nat.not_le.mpr (hsmall f hmem)
  rw [hloop, Heap.mallocLoop, if_neg hsize, if_pos hfreep]

theorem Linked.malloc_failed (hl : Linked base h l) (hfreep : ∃ f ∈ l, f.addr = h.freep)
    (hsmall : ∀ y ∈ l, y.size < nunits) (hsbrk : sbrk (Heap.sbrkArg (Heap.moreUnits nunits)) = none)
    (hf : l.length ≤ fuel) :
    Heap.mallocLoop sbrk nunits fuel h h.freep (h.next h.freep) = some (0, h) := by
  rw [hl.malloc_full hfreep hsmall hf, Heap.morecore, hsbrk]
  rfl

theorem Released.stop_eq {l' : List Block} (hr : Released b l l') (hpos : 0 < b.size)
    (habove : ∀ z ∈ l, z.stop ≤ b.addr) (hy : y ∈ l') (hle : y.addr ≤ b.addr ∧ b.stop ≤ y.stop) :
    y.stop = b.stop := by
  have hlt : b.addr < b.stop := Nat.lt_add_of_pos_right (Nat.mul_pos (by decide) hpos)
  have hhas : y.extent.Has (y.stop - 1) := by
    simp only [Extent.Has, Block.extent]
    omega
  have hpos : 0 < Lib.cover (extents l') (y.stop - 1) :=
    cover_pos_iff.mpr ⟨y.extent, List.mem_map_of_mem hy, hhas⟩
  rw [hr.cover, cover_pos_iff] at hpos
  obtain ⟨e, he, hehas⟩ := hpos
  obtain ⟨z, hz, rfl⟩ := List.mem_map.mp he
  simp only [Extent.Has, Block.extent] at hehas
  rcases List.mem_cons.mp hz with rfl | hz
  · omega
  · have := habove z hz
    omega

theorem Linked.malloc_grown {p : Nat} (hl : Linked base h l) (hgaps : Gaps l)
    (hfreep : ∃ f ∈ l, f.addr = h.freep) (hbase : 0 < base) (hn : 0 < nunits)
    (hsmall : ∀ y ∈ l, y.size < nunits) (hsbrk : sbrk (Heap.sbrkArg (Heap.moreUnits nunits)) = some p)
    (hfresh : Fresh base l ⟨p, Heap.moreUnits nunits⟩) (hf : 2 * l.length + 1 ≤ fuel) :
    ∃ r l' t, Heap.mallocLoop sbrk nunits fuel h h.freep (h.next h.freep) = some r ∧
      Malloced base nunits h l [⟨p, Heap.moreUnits nunits⟩] r l' t ∧
      r.2.sbrks = h.sbrks ++ [(Heap.sbrkArg (Heap.moreUnits nunits), p)] ∧
      t.stop = p + HEADER * Heap.moreUnits nunits := by
  have hle : nunits ≤ Heap.moreUnits nunits := by
    unfold Heap.moreUnits
    split <;> omega
  obtain ⟨h₁, l₁, hmore, hl₁, hgaps₁, hreleased, hfreep₁, hsbrks, hframe⟩ :=
    hl.morecore hgaps hfreep hsbrk hfresh (show l.length ≤ fuel - l.length by omega)
  have hlarge : ∃ y ∈ l₁, nunits ≤ y.size := by
    obtain ⟨y, hy, haddr, hstop⟩ := hreleased.mem
    refine ⟨y, hy, ?_⟩
    simp only [Block.stop] at haddr hstop
    simp only [HEADER] at hstop
    omega
  have htotal : total l₁ < 2 ^ 32 := hreleased.total ▸ hfresh.total
  have hlen := hreleased.length
  have hfuel : l₁.length ≤ fuel - l.length := by omega
  obtain ⟨r, l', t, hloop, hgives⟩ := hl₁.malloc_found sbrk hgaps₁ hfreep₁ hn hlarge htotal hfuel
  refine ⟨r, l', t, ?_, ?_, ?_, ?_⟩
  · rw [hl.malloc_full hfreep hsmall (by omega), hmore]
    simp only [Option.bind_some, hl₁.freep_ne_zero hbase hfreep₁, if_false]
    exact hloop
  · refine ⟨hgives.ret, hgives.units, hgives.header, hgives.linked, hgives.gaps, hgives.freep, ?_, ?_, ?_⟩
    · intro a
      rw [← hgives.taken.cover, hreleased.cover]
      rfl
    · rw [← hgives.taken.total, hreleased.total]
      rfl
    · intro a hat hay
      have hap : a ≠ p := hay ⟨p, Heap.moreUnits nunits⟩ (by simp)
      have hal : ∀ y ∈ l, a ≠ y.addr := fun y hy => hay y (by simp [hy])
      have hal₁ : ∀ y ∈ l₁, a ≠ y.addr := by
        intro y hy
        rcases hreleased.addr y hy with heq | ⟨z, hz, heq⟩
        · rw [heq]
          exact hap
        · rw [heq]
          exact hal z hz
      rw [hgives.frame a hat hal₁, hframe a hap hal]
  · rw [hgives.sbrks, hsbrks]
  · obtain ⟨y, hy, -, hstop, hsize⟩ := hgives.taken.mem
    rw [← hstop]
    rcases hreleased.other y hy with hold | hnew
    · have := hsmall y hold
      have := hgives.units
      omega
    · exact hreleased.stop_eq (by simp only; omega) hfresh.above hy hnew

theorem Heap.free_mono {fuel' ap : Nat} (hf : fuel ≤ fuel') (hcall : h.free fuel ap = some h') :
    h.free fuel' ap = some h' := by
  rw [free, Option.map_eq_some_iff] at hcall ⊢
  obtain ⟨p, hp, hlink⟩ := hcall
  refine ⟨p, ?_, hlink⟩
  rw [freeLoop_eq] at hp ⊢
  exact seek_mono hf hp

theorem Heap.morecore_mono {fuel' nu : Nat} {r : Nat × Heap} (hf : fuel ≤ fuel')
    (hcall : h.morecore sbrk fuel nu = some r) : h.morecore sbrk fuel' nu = some r := by
  rw [morecore] at hcall ⊢
  split at hcall
  · exact hcall
  · rw [Option.map_eq_some_iff] at hcall ⊢
    obtain ⟨h₁, hfree, hr⟩ := hcall
    exact ⟨h₁, free_mono hf hfree, hr⟩

theorem Heap.mallocLoop_mono {fuel' p : Nat} {r : Nat × Heap} (hf : fuel ≤ fuel')
    (hcall : mallocLoop sbrk nunits fuel h prevp p = some r) :
    mallocLoop sbrk nunits fuel' h prevp p = some r := by
  induction fuel generalizing fuel' h prevp p with
  | zero => cases hcall
  | succ fuel ih =>
    obtain ⟨fuel', rfl⟩ : ∃ n, fuel' = n + 1 := ⟨fuel' - 1, by omega⟩
    have hf : fuel ≤ fuel' := by omega
    rw [mallocLoop] at hcall ⊢
    split
    · rwa [if_pos (by assumption)] at hcall
    · rw [if_neg (by assumption)] at hcall
      split
      · rw [if_pos (by assumption), Option.bind_eq_some_iff] at hcall
        obtain ⟨⟨q, h₁⟩, hmore, hrest⟩ := hcall
        rw [morecore_mono hf hmore, Option.bind_some]
        dsimp only at hrest ⊢
        split
        · rwa [if_pos (by assumption)] at hrest
        · rw [if_neg (by assumption)] at hrest
          exact ih hf hrest
      · rw [if_neg (by assumption)] at hcall
        exact ih hf hcall

-- What malloc() does once freep is set.
inductive Outcome (base nunits : Nat) (sbrk : Int → Option Nat) (h : Heap) (l : List Block)
    (r : Nat × Heap) : Prop
  | found {l' : List Block} {t : Block} (hlarge : ∃ y ∈ l, nunits ≤ y.size)
      (hdone : Malloced base nunits h l [] r l' t) (hsbrks : r.2.sbrks = h.sbrks)
  | failed (hsmall : ∀ y ∈ l, y.size < nunits) (hsbrk : sbrk (Heap.sbrkArg (Heap.moreUnits nunits)) = none)
      (hret : r = (0, h))
  | grown {p : Nat} {l' : List Block} {t : Block} (hsmall : ∀ y ∈ l, y.size < nunits)
      (hsbrk : sbrk (Heap.sbrkArg (Heap.moreUnits nunits)) = some p)
      (hdone : Malloced base nunits h l [⟨p, Heap.moreUnits nunits⟩] r l' t)
      (hsbrks : r.2.sbrks = h.sbrks ++ [(Heap.sbrkArg (Heap.moreUnits nunits), p)])
      (hstop : t.stop = p + HEADER * Heap.moreUnits nunits)

theorem Linked.malloc (sbrk : Int → Option Nat) (hl : Linked base h l) (hgaps : Gaps l)
    (hfreep : ∃ f ∈ l, f.addr = h.freep) (hbase : 0 < base) (hn : 0 < nunits) (htotal : total l < 2 ^ 32)
    (hfresh : ∀ p, sbrk (Heap.sbrkArg (Heap.moreUnits nunits)) = some p →
      Fresh base l ⟨p, Heap.moreUnits nunits⟩) (hf : 2 * l.length + 1 ≤ fuel) :
    ∃ r, Heap.mallocLoop sbrk nunits fuel h h.freep (h.next h.freep) = some r ∧
      Outcome base nunits sbrk h l r := by
  by_cases hlarge : ∃ y ∈ l, nunits ≤ y.size
  · obtain ⟨r, l', t, hloop, hgives⟩ :=
      hl.malloc_found sbrk hgaps hfreep hn hlarge htotal (show l.length ≤ fuel by omega)
    exact ⟨r, hloop, .found hlarge hgives.malloced hgives.sbrks⟩
  · have hsmall : ∀ y ∈ l, y.size < nunits := by
      intro y hy
      by_contra hge
      exact hlarge ⟨y, hy, Nat.not_lt.mp hge⟩
    cases hsbrk : sbrk (Heap.sbrkArg (Heap.moreUnits nunits)) with
    | none => exact ⟨_, hl.malloc_failed hfreep hsmall hsbrk (by omega), .failed hsmall hsbrk rfl⟩
    | some p =>
      obtain ⟨r, l', t, hloop, hdone, hsbrks, hstop⟩ :=
        hl.malloc_grown hgaps hfreep hbase hn hsmall hsbrk (hfresh p hsbrk) hf
      exact ⟨r, hloop, .grown hsmall hsbrk hdone hsbrks hstop⟩

end Xv6.Umalloc
