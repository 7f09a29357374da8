import Xv6.Umalloc.Malloc

namespace Xv6.Umalloc

open Lib

-- A heap, and the pointers that malloc() has returned and that are not freed, with what
-- was asked for.
structure State where
  heap : Heap
  live : List (Nat × Nat)

-- The block of a pointer for nbytes bytes.
def blockOf (a : Nat × Nat) : Block := ⟨a.1 - HEADER, Heap.units a.2⟩

-- What sbrk() gave.
def Heap.regions (h : Heap) : List Extent := h.sbrks.map fun (n, p) => ⟨p, p + n.toNat⟩

-- The bytes that sbrk() gave.
def Heap.obtained (h : Heap) : Nat := (h.sbrks.map fun (n, _) => n.toNat).sum

-- The results of sbrk(): a failure, or a place above all earlier ones and above the
-- program. All together sbrk() gives less than limit bytes.
structure Heap.Above (base limit : Nat) (h : Heap) (sbrk : Int → Option Nat) : Prop where
  base : ∀ n p, sbrk n = some p → base + HEADER ≤ p
  fresh : ∀ n p, sbrk n = some p → ∀ e ∈ h.regions, e.stop ≤ p
  limit : ∀ n p, sbrk n = some p → h.obtained + n.toNat < limit

structure Heap.Answers (base limit : Nat) (h : Heap) (sbrk : Int → Option Nat) : Prop
    extends h.Above base limit sbrk where
  aligned : ∀ n p, sbrk n = some p → p % HEADER = 0

namespace State

def blocks (s : State) : List Block := s.live.map blockOf

-- The program may write to what it got from malloc().
def Payload (s : State) (a : Nat) : Prop := ∃ b ∈ s.blocks, b.addr + HEADER ≤ a ∧ a < b.stop

end State

-- Before the first malloc().
def Start (s : State) : Prop := s.heap.freep = 0 ∧ s.heap.sbrks = [] ∧ s.live = []

-- The calls that fit: the argument of sbrk() is not negative.
def Small (nbytes : Nat) : Prop :=
  nbytes < 2 ^ 32 ∧ Heap.moreUnits (Heap.units nbytes) * HEADER < 2 ^ 31

instance (nbytes : Nat) : Decidable (Small nbytes) := inferInstanceAs (Decidable (_ ∧ _))

-- A call of malloc() or free(), or what the program does in between.
inductive Step (base limit : Nat) : State → State → Prop
  | malloc {s : State} {nbytes fuel p : Nat} {sbrk : Int → Option Nat} {h : Heap}
      (hsmall : Small nbytes) (hanswers : s.heap.Answers base limit sbrk)
      (hcall : s.heap.malloc sbrk base fuel nbytes = some (p, h)) :
      Step base limit s ⟨h, if p = 0 then s.live else (p, nbytes) :: s.live⟩
  | free {s : State} {p nbytes fuel : Nat} {h : Heap} (hlive : (p, nbytes) ∈ s.live)
      (hcall : s.heap.free fuel p = some h) : Step base limit s ⟨h, s.live.erase (p, nbytes)⟩
  | write {s : State} {mem : Nat → Header} (hmem : ∀ a, ¬s.Payload a → mem a = s.heap.mem a) :
      Step base limit s ⟨⟨mem, s.heap.freep, s.heap.sbrks⟩, s.live⟩

-- The states of a program that calls malloc() and free().
inductive Reach (base limit : Nat) : State → Prop
  | start {s : State} (h : Start s) : Reach base limit s
  | step {s s' : State} (h : Reach base limit s) (hstep : Step base limit s s') : Reach base limit s'

variable {base limit nbytes fuel : Nat} {s s' : State} {h : Heap} {l l' : List Block} {b t x y : Block}

theorem units_pos (h : nbytes < 2 ^ 32) : 0 < Heap.units nbytes := by
  simp only [Heap.units, HEADER]
  omega

theorem le_moreUnits (n : Nat) : n ≤ Heap.moreUnits n := by
  unfold Heap.moreUnits
  split <;> omega

theorem sbrkArg_eq {n : Nat} (h : n * HEADER < 2 ^ 31) : Heap.sbrkArg n = (HEADER * n : Nat) := by
  have hmod : n * HEADER % 2 ^ 32 = n * HEADER := Nat.mod_eq_of_lt (by omega)
  rw [Heap.sbrkArg, BitVec.toInt_eq_toNat_cond, BitVec.toNat_ofNat, hmod, if_pos (by omega),
    Nat.mul_comm]

theorem regions_append {h' : Heap} {n : Int} {p : Nat} (hs : h'.sbrks = h.sbrks ++ [(n, p)]) :
    h'.regions = h.regions ++ [⟨p, p + n.toNat⟩] := by
  rw [Heap.regions, hs, List.map_append]
  rfl

theorem obtained_append {h' : Heap} {n : Int} {p : Nat} (hs : h'.sbrks = h.sbrks ++ [(n, p)]) :
    h'.obtained = h.obtained + n.toNat := by
  grind [Heap.obtained]

theorem before_or_before (hx : 0 < x.size) (hy : 0 < y.size)
    (h : ∀ a, x.extent.Has a → ¬y.extent.Has a) : x.Before y ∨ y.Before x := by
  have hx : x.addr < x.stop := Nat.lt_add_of_pos_right (Nat.mul_pos (by decide) hx)
  have hy : y.addr < y.stop := Nat.lt_add_of_pos_right (Nat.mul_pos (by decide) hy)
  have hx' := h x.addr
  have hy' := h y.addr
  simp only [Extent.Has, Block.extent, Block.Before] at hx' hy' ⊢
  omega

-- The free blocks l and the live blocks are the memory that sbrk() gave.
structure Tiles (h : Heap) (l live : List Block) : Prop where
  cover : ∀ a, cover (extents (l ++ live)) a = cover h.regions a
  disjoint : ∀ a, Lib.cover h.regions a ≤ 1
  total : HEADER * total (l ++ live) = h.obtained
  pos : ∀ b ∈ live, 0 < b.size

variable {live live' : List Block}

theorem Tiles.pairwise (ht : Tiles h l live) :
    (l ++ live).Pairwise fun x y => ∀ a, x.extent.Has a → ¬y.extent.Has a := by
  have := pairwise_of_cover_le_one fun a => (ht.cover a).trans_le (ht.disjoint a)
  rwa [extents, List.pairwise_map] at this

theorem Tiles.before (ht : Tiles h l live) (hx : x ∈ l) (hpos : 0 < x.size) (hy : y ∈ live) :
    x.Before y ∨ y.Before x :=
  before_or_before hpos (ht.pos y hy) ((List.pairwise_append.mp ht.pairwise).2.2 x hx y hy)

theorem cover_extents_append (l l' : List Block) (a : Nat) :
    cover (extents (l ++ l')) a = cover (extents l) a + cover (extents l') a := by
  rw [extents, List.map_append, cover_append]
  rfl

theorem cover_extents_cons (b : Block) (l : List Block) (a : Nat) :
    cover (extents (b :: l)) a = cover (extents l) a + cover (extents [b]) a := by
  rw [Nat.add_comm]
  exact cover_extents_append [b] l a

theorem total_append (l l' : List Block) : total (l ++ l') = total l + total l' := by
  grind [total]

theorem total_cons (b : Block) (l : List Block) : total (b :: l) = b.size + total l := rfl

theorem Tiles.perm (ht : Tiles h l live) (hp : live.Perm live') : Tiles h l live' := by
  have hperm : (l ++ live).Perm (l ++ live') := hp.append_left l
  refine ⟨?_, ht.disjoint, ?_, fun b hb => ht.pos b (hp.mem_iff.mpr hb)⟩
  · intro a
    rw [← ht.cover]
    exact ((hperm.map Block.extent).countP_eq _).symm
  · rw [← ht.total]
    exact congrArg _ (hperm.map Block.size).sum_nat.symm

theorem Tiles.cons_before (ht : Tiles h l (b :: live)) (hy : y ∈ live) : b.Before y ∨ y.Before b :=
  have hpair := (List.pairwise_append.mp ht.pairwise).2.1
  before_or_before (ht.pos b List.mem_cons_self) (ht.pos y (List.mem_cons_of_mem _ hy))
    ((List.pairwise_cons.mp hpair).1 y hy)

theorem Tiles.live_before (ht : Tiles h l live) (hx : x ∈ live) (hy : y ∈ live) (hne : x ≠ y) :
    x.Before y ∨ y.Before x := by
  refine before_or_before (ht.pos x hx) (ht.pos y hy) ?_
  have : Std.Symm fun x y : Block => ∀ a, x.extent.Has a → ¬y.extent.Has a :=
    ⟨fun _ _ h a hy hx => h a hx hy⟩
  exact (List.pairwise_append.mp ht.pairwise).2.1.forall hx hy hne

theorem Tiles.region (ht : Tiles h l live) (hb : b ∈ live) : ∃ e ∈ h.regions, e.Has b.addr := by
  rw [← cover_pos_iff, ← ht.cover, cover_pos_iff]
  refine ⟨b.extent, List.mem_map_of_mem (List.mem_append_right _ hb), Nat.le_refl _, ?_⟩
  exact Nat.lt_add_of_pos_right (Nat.mul_pos (by decide) (ht.pos b hb))

structure Inv (base : Nat) (s : State) (l : List Block) : Prop where
  linked : Linked base s.heap l
  gaps : Gaps l
  freep : ∃ f ∈ l, f.addr = s.heap.freep
  header : ∀ b ∈ s.blocks, s.heap.size b.addr = b.size
  tiles : Tiles s.heap l s.blocks
  base : ∀ e ∈ s.heap.regions, base + HEADER ≤ e.start
  bound : s.heap.obtained < HEADER * 2 ^ 32
  ptr : ∀ a ∈ s.live, HEADER ≤ a.1 ∧ a.2 < 2 ^ 32

theorem Inv.total_lt (hi : Inv base s l) : total (l ++ s.blocks) < 2 ^ 32 := by
  have := hi.tiles.total
  have := hi.bound
  simp only [HEADER] at *
  omega

theorem Inv.node_before (hi : Inv base s l) (hb : b ∈ s.blocks) (hy : y ∈ l) : y.Before b ∨ b.Before y := by
  obtain ⟨l', rfl⟩ := List.head?_eq_some_iff.mp hi.linked.head
  rcases List.mem_cons.mp hy with rfl | hmem
  · obtain ⟨e, he, hhas⟩ := hi.tiles.region hb
    have hbase := hi.base e he
    simp only [Extent.Has] at hhas
    simp only [HEADER] at hbase
    refine .inl ⟨?_, ?_⟩ <;> simp only [node, Block.stop] <;> omega
  · exact hi.tiles.before hy (hi.linked.pos y hmem) hb

theorem Inv.apart (hi : Inv base s l) (hb : b ∈ s.blocks) : Apart base s.heap l b := by
  refine ⟨hi.header b hb, hi.tiles.pos b hb, ?_, fun y hy => hi.node_before hb hy, ?_⟩
  · obtain ⟨e, he, hhas⟩ := hi.tiles.region hb
    have hbase := hi.base e he
    grind [Extent.Has, HEADER]
  · have hle := size_le_total hb
    have hlt := hi.total_lt
    rw [total_append] at hlt
    have hcons : total (b :: l) = b.size + total l := rfl
    omega

theorem Inv.write {mem : Nat → Header} (hi : Inv base s l) (hmem : ∀ a, ¬s.Payload a → mem a = s.heap.mem a) :
    Inv base ⟨⟨mem, s.heap.freep, s.heap.sbrks⟩, s.live⟩ l := by
  have hnode : ∀ y ∈ l, mem y.addr = s.heap.mem y.addr := by
    intro y hy
    refine hmem _ ?_
    rintro ⟨b, hb, hle, hlt⟩
    simp only [HEADER] at hle
    rcases hi.node_before hb hy with hbefore | hbefore
    · have := hbefore.1
      omega
    · have := hbefore.2
      omega
  have hlive : ∀ x ∈ s.blocks, mem x.addr = s.heap.mem x.addr := by
    intro x hx
    refine hmem _ ?_
    rintro ⟨b, hb, hle, hlt⟩
    simp only [HEADER] at hle
    by_cases hxb : x = b
    · subst hxb
      omega
    · rcases hi.tiles.live_before hx hb hxb with hbefore | hbefore
      · have := hbefore.1
        omega
      · have := hbefore.2
        omega
  refine ⟨hi.linked.congr ?_ ?_, hi.gaps, hi.freep, ?_, ?_, hi.base, hi.bound, hi.ptr⟩
  · intro y hy
    simp only [Heap.next, hnode y hy]
  · intro y hy
    simp only [Heap.size, hnode y hy]
  · intro b hb
    rw [← hi.header b hb]
    simp only [Heap.size, hlive b hb]
  · exact ⟨hi.tiles.cover, hi.tiles.disjoint, hi.tiles.total, hi.tiles.pos⟩

theorem Block.Before.addr_ne (h : x.Before y ∨ y.Before x) : x.addr ≠ y.addr := by
  rcases h with h | h
  · exact h.1.ne
  · exact h.1.ne'

-- A call of free().
theorem Inv.free {a : Nat × Nat} (hi : Inv base s l) (ha : a ∈ s.live) (hf : l.length ≤ fuel) :
    ∃ h' l', s.heap.free fuel a.1 = some h' ∧ Inv base ⟨h', s.live.erase a⟩ l' := by
  have hb : blockOf a ∈ s.blocks := List.mem_map_of_mem ha
  have hperm : s.blocks.Perm (blockOf a :: (s.live.erase a).map blockOf) :=
    (List.perm_cons_erase ha).map blockOf
  have haddr : (blockOf a).addr + HEADER = a.1 := Nat.sub_add_cancel (hi.ptr a ha).1
  obtain ⟨h', l', hcall, hlinked, hgaps, hr, hfreep, hsbrks, hframe⟩ :=
    hi.linked.free hi.gaps hi.freep (hi.apart hb) hf
  rw [haddr] at hcall
  have hregions : h'.regions = s.heap.regions := congrArg (List.map _) hsbrks
  have hobtained : h'.obtained = s.heap.obtained := by rw [Heap.obtained, hsbrks, Heap.obtained]
  have hold := hi.tiles.perm hperm
  have hmem : ∀ y ∈ (s.live.erase a).map blockOf, y ∈ s.blocks :=
    fun y hy => hperm.mem_iff.mpr (List.mem_cons_of_mem _ hy)
  have htiles : Tiles h' l' ((s.live.erase a).map blockOf) := by
    refine ⟨?_, hregions ▸ hi.tiles.disjoint, ?_, fun y hy => hi.tiles.pos y (hmem y hy)⟩
    · intro x
      rw [hregions, ← hold.cover, cover_extents_append, cover_extents_append, hr.cover,
        cover_extents_cons, cover_extents_cons (blockOf a) (List.map _ _)]
      omega
    · rw [hobtained, ← hold.total, total_append, total_append, hr.total, total_cons, total_cons]
      congr 1
      omega
  refine ⟨h', l', hcall, hlinked, hgaps, hfreep, ?_, htiles, hregions ▸ hi.base,
    hobtained ▸ hi.bound, fun x hx => hi.ptr x (List.mem_of_mem_erase hx)⟩
  intro y hy
  rw [hframe, hi.header y (hmem y hy)]
  · exact (Block.Before.addr_ne (hold.cons_before hy)).symm
  · intro z hz
    exact (Block.Before.addr_ne (hi.node_before (hmem y hy) hz)).symm

theorem Inv.stop_le {p : Nat} (hi : Inv base s l) (hbase : base ≤ p)
    (hp : ∀ e ∈ s.heap.regions, e.stop ≤ p) : ∀ y ∈ l ++ s.blocks, y.stop ≤ p := by
  intro y hy
  by_cases hsize : y.size = 0
  · obtain ⟨rest, rfl⟩ := List.head?_eq_some_iff.mp hi.linked.head
    have hnode : y = node base := by
      rcases List.mem_append.mp hy with hy | hy
      · rcases List.mem_cons.mp hy with rfl | hy
        · rfl
        · exact absurd hsize (hi.linked.pos y hy).ne'
      · exact absurd hsize (hi.tiles.pos y hy).ne'
    subst hnode
    exact hbase
  · have hstop : y.addr < y.stop := Nat.lt_add_of_pos_right (Nat.mul_pos (by decide) (by omega))
    have hcover : 0 < cover (extents (l ++ s.blocks)) (y.stop - 1) := by
      rw [cover_pos_iff]
      refine ⟨y.extent, List.mem_map_of_mem hy, ?_⟩
      simp only [Extent.Has, Block.extent]
      omega
    grind [Tiles.cover, tiles, cover_pos_iff, Extent.Has]

theorem Malloced.ret_ne_zero {more : List Block} {n : Nat} {r : Nat × Heap}
    (hm : Malloced base n h l more r l' t) : r.1 ≠ 0 := by
  have hret := hm.ret
  simp only [HEADER] at hret
  omega

-- malloc() has taken a block t for nbytes bytes.
theorem Inv.malloced {more : List Block} {r : Nat × Heap} (hi : Inv base s l)
    (hm : Malloced base (Heap.units nbytes) s.heap l more r l' t) (hn : nbytes < 2 ^ 32)
    (hmore : ∀ y ∈ more, ∀ b ∈ s.blocks, b.Before y)
    (hcover : ∀ a, cover r.2.regions a = cover (extents more) a + cover s.heap.regions a)
    (hdisjoint : ∀ a, cover r.2.regions a ≤ 1)
    (hobtained : r.2.obtained = HEADER * total more + s.heap.obtained)
    (hbase : ∀ e ∈ r.2.regions, base + HEADER ≤ e.start) (hbound : r.2.obtained < HEADER * 2 ^ 32) :
    Inv base ⟨r.2, (r.1, nbytes) :: s.live⟩ l' := by
  have hblock : blockOf (r.1, nbytes) = t := by
    rw [blockOf, hm.ret, Nat.add_sub_cancel, ← hm.units]
  have htiles : Tiles r.2 l' (t :: s.blocks) := by
    refine ⟨?_, hdisjoint, ?_, ?_⟩
    · intro a
      have htaken := hm.cover a
      rw [cover_extents_append, cover_extents_cons] at htaken
      rw [hcover, ← hi.tiles.cover, cover_extents_append, cover_extents_append, cover_extents_cons]
      omega
    · have htaken := hm.total
      rw [total_append, total_cons] at htaken
      rw [hobtained, ← hi.tiles.total, total_append, total_append, total_cons, ← Nat.mul_add]
      congr 1
      omega
    · intro b hb
      rcases List.mem_cons.mp hb with rfl | hb
      · exact hm.units ▸ units_pos hn
      · exact hi.tiles.pos b hb
  have hblocks : State.blocks ⟨r.2, (r.1, nbytes) :: s.live⟩ = t :: s.blocks := by
    rw [State.blocks, List.map_cons, hblock]
    rfl
  refine ⟨hm.linked, hm.gaps, hm.freep, ?_, hblocks ▸ htiles, hbase, hbound, ?_⟩
  · intro b hb
    rcases List.mem_cons.mp (hblocks ▸ hb) with rfl | hb
    · exact hm.header
    · rw [hm.frame, hi.header b hb]
      · exact (Block.Before.addr_ne (htiles.cons_before hb)).symm
      grind [Block.Before.addr_ne, node_before]
  · intro a ha
    rcases List.mem_cons.mp ha with rfl | ha
    · exact ⟨hm.ret ▸ Nat.le_add_left _ _, hn⟩
    · exact hi.ptr a ha

-- A call of malloc() once freep is set.
theorem Inv.malloc {sbrk : Int → Option Nat} (hi : Inv base s l) (hbase : 0 < base)
    (hsmall : Small nbytes) (hanswers : s.heap.Above base (HEADER * 2 ^ 32) sbrk)
    (hf : 2 * l.length + 1 ≤ fuel) :
    ∃ r l', Heap.mallocLoop sbrk (Heap.units nbytes) fuel s.heap s.heap.freep
        (s.heap.next s.heap.freep) = some r ∧
      Inv base ⟨r.2, if r.1 = 0 then s.live else (r.1, nbytes) :: s.live⟩ l' ∧
      (r.2.sbrks = s.heap.sbrks ∨ ∃ n p, 0 ≤ n ∧ sbrk n = some p ∧ r.2.sbrks = s.heap.sbrks ++ [(n, p)]) := by
  have hpos := units_pos hsmall.1
  have harg := sbrkArg_eq hsmall.2
  have hunits := congrArg Int.toNat harg
  rw [Int.toNat_natCast] at hunits
  have hle := le_moreUnits (Heap.units nbytes)
  have hstop : ∀ p, sbrk (Heap.sbrkArg (Heap.moreUnits (Heap.units nbytes))) = some p →
      ∀ y ∈ l ++ s.blocks, y.stop ≤ p := by
    intro p hp
    have hbase := hanswers.base _ _ hp
    exact hi.stop_le (by omega) (hanswers.fresh _ _ hp)
  have htotal := hi.total_lt
  have hsum := hi.tiles.total
  rw [total_append] at htotal hsum
  have hfresh : ∀ p, sbrk (Heap.sbrkArg (Heap.moreUnits (Heap.units nbytes))) = some p →
      Fresh base l ⟨p, Heap.moreUnits (Heap.units nbytes)⟩ := by
    intro p hp
    have hbase := hanswers.base _ _ hp
    have hlimit := hanswers.limit _ _ hp
    rw [hunits, ← hsum] at hlimit
    simp only [HEADER] at hbase hlimit
    refine ⟨Nat.lt_of_lt_of_le (by omega) hbase, fun y hy => hstop p hp y (List.mem_append_left _ hy), ?_⟩
    rw [total_cons]
    dsimp only
    omega
  obtain ⟨r, hcall, hr⟩ := hi.linked.malloc sbrk hi.gaps hi.freep hbase hpos (by omega) hfresh hf
  cases hr with
  | @found l' t hlarge hdone hsbrks =>
    have hregions : r.2.regions = s.heap.regions := congrArg (List.map _) hsbrks
    have hobtained : r.2.obtained = s.heap.obtained := by
      rw [Heap.obtained, hsbrks, Heap.obtained]
    refine ⟨r, l', hcall, ?_, .inl hsbrks⟩
    rw [if_neg hdone.ret_ne_zero]
    refine hi.malloced hdone hsmall.1 ?_ ?_ (hregions ▸ hi.tiles.disjoint) ?_ (hregions ▸ hi.base)
      (hobtained ▸ hi.bound)
    · simp
    · intro a
      rw [hregions, extents, List.map_nil, cover_nil, Nat.zero_add]
    grind [total]
  | failed hnone hsbrk hret =>
    subst hret
    exact ⟨_, l, hcall, hi, .inl rfl⟩
  | @grown p l' t hnone hsbrk hdone hsbrks hstop' =>
    have hregions := regions_append hsbrks
    have hobtained := obtained_append hsbrks
    rw [hunits] at hregions
    refine ⟨r, l', hcall, ?_, .inr ⟨_, p, harg ▸ Int.natCast_nonneg _, hsbrk, hsbrks⟩⟩
    rw [if_neg hdone.ret_ne_zero]
    refine hi.malloced hdone hsmall.1 ?_ ?_ ?_ ?_ ?_ (hobtained ▸ hanswers.limit _ _ hsbrk)
    · intro y hy b hb
      have hle := hstop p hsbrk b (List.mem_append_right _ hb)
      have hlt : b.addr < b.stop :=
        Nat.lt_add_of_pos_right (Nat.mul_pos (by decide) (hi.tiles.pos b hb))
      rw [List.mem_singleton.mp hy]
      exact ⟨Nat.lt_of_lt_of_le hlt hle, hle⟩
    · intro a
      rw [hregions, cover_append, Nat.add_comm]
      rfl
    · intro a
      rw [hregions]
      exact cover_above hi.tiles.disjoint (hanswers.fresh _ _ hsbrk) a
    · rw [hobtained, hunits, Nat.add_comm]
      rfl
    · intro e he
      rw [hregions] at he
      rcases List.mem_append.mp he with he | he
      · exact hi.base e he
      · rw [List.mem_singleton.mp he]
        exact hanswers.base _ _ hsbrk

-- The first call of malloc() makes a list of base alone.
theorem Start.inv (hs : Start s) : Inv base ⟨s.heap.start base, s.live⟩ [node base] := by
  obtain ⟨hfreep, hsbrks, hlive⟩ := hs
  have hblocks : State.blocks ⟨s.heap.start base, s.live⟩ = [] := by rw [State.blocks, hlive, List.map_nil]
  have hstart : s.heap.start base = ((s.heap.setPtr base base).setSize base 0).setFreep base :=
    if_pos hfreep
  have hnil : (s.heap.start base).sbrks = [] := by
    rw [hstart]
    exact hsbrks
  have hregions : (s.heap.start base).regions = [] := by rw [Heap.regions, hnil, List.map_nil]
  have hobtained : (s.heap.start base).obtained = 0 := by
    rw [Heap.obtained, hnil, List.map_nil, List.sum_nil]
  have hlinked : Linked base (s.heap.start base) [node base] := by
    rw [hstart]
    refine ⟨rfl, cyclic_singleton ?_, ?_, ?_, List.pairwise_singleton _ _⟩
    · simp [node]
    · simp [node]
    · simp
  refine ⟨hlinked, List.isChain_singleton _, ⟨node base, List.mem_singleton_self _, ?_⟩, ?_, ?_, ?_, ?_, ?_⟩
  · rw [hstart]
    rfl
  · simp [hblocks]
  · rw [hblocks]
    refine ⟨?_, ?_, ?_, ?_⟩
    · intro a
      have hempty : ¬(node base).extent.Has a := by
        simp only [Extent.Has, Block.extent, Block.stop, node]
        omega
      rw [hregions, List.append_nil, extents, List.map_singleton, cover_cons, if_neg hempty,
        Nat.add_zero]
    · simp [hregions, cover_nil]
    · rw [hobtained]
      rfl
    · simp
  · simp [hregions]
  · rw [hobtained]
    decide
  · simp [hlive]

theorem Inv.start (hi : Inv base s l) (hbase : 0 < base) : s.heap.start base = s.heap :=
  if_neg (hi.linked.freep_ne_zero hbase hi.freep)

def Ready (base : Nat) (s : State) : Prop := Start s ∨ ∃ l, Inv base s l

theorem Ready.start (hr : Ready base s) (hbase : 0 < base) :
    ∃ l, Inv base ⟨s.heap.start base, s.live⟩ l := by
  rcases hr with hs | ⟨l, hi⟩
  · exact ⟨_, hs.inv⟩
  · exact ⟨l, (hi.start hbase).symm ▸ hi⟩

theorem sbrks_start (h : Heap) (base : Nat) : (h.start base).sbrks = h.sbrks := by
  unfold Heap.start
  split <;> rfl

theorem above_start {sbrk : Int → Option Nat} (ha : h.Above base limit sbrk) :
    (h.start base).Above base limit sbrk := by
  have hregions : (h.start base).regions = h.regions := congrArg (List.map _) (sbrks_start h base)
  have hobtained : (h.start base).obtained = h.obtained := by
    rw [Heap.obtained, sbrks_start, Heap.obtained]
  exact ⟨ha.base, hregions.symm ▸ ha.fresh, hobtained.symm ▸ ha.limit⟩

theorem Ready.malloc {sbrk : Int → Option Nat} (hr : Ready base s) (hbase : 0 < base)
    (hsmall : Small nbytes) (hanswers : s.heap.Above base (HEADER * 2 ^ 32) sbrk) :
    ∃ fuel r l', s.heap.malloc sbrk base fuel nbytes = some r ∧
      Inv base ⟨r.2, if r.1 = 0 then s.live else (r.1, nbytes) :: s.live⟩ l' ∧
      (r.2.sbrks = s.heap.sbrks ∨
        ∃ n p, 0 ≤ n ∧ sbrk n = some p ∧ r.2.sbrks = s.heap.sbrks ++ [(n, p)]) := by
  obtain ⟨l, hi⟩ := hr.start hbase
  obtain ⟨r, l', hcall, hi', hsbrks⟩ :=
    hi.malloc hbase hsmall (above_start hanswers) (Nat.le_refl _)
  rw [sbrks_start] at hsbrks
  exact ⟨2 * l.length + 1, r, l', hcall, hi', hsbrks⟩

theorem Heap.malloc_unique {fuel' : Nat} {sbrk : Int → Option Nat} {r r' : Nat × Heap}
    (hcall : h.malloc sbrk base fuel nbytes = some r)
    (hcall' : h.malloc sbrk base fuel' nbytes = some r') : r = r' := by
  have h₁ := Heap.mallocLoop_mono (Nat.le_max_left fuel fuel') hcall
  have h₂ := Heap.mallocLoop_mono (Nat.le_max_right fuel fuel') hcall'
  grind

theorem Ready.step (hr : Ready base s) (hbase : 0 < base) (hstep : Step base (HEADER * 2 ^ 32) s s') :
    Ready base s' := by
  cases hstep with
  | @malloc nbytes fuel p sbrk h hsmall hanswers hcall =>
    obtain ⟨fuel', r, l', hcall', hi, -⟩ := hr.malloc hbase hsmall hanswers.toAbove
    cases Heap.malloc_unique hcall' hcall
    exact .inr ⟨l', hi⟩
  | @free p nbytes fuel h hlive hcall =>
    rcases hr with hs | ⟨l, hi⟩
    · rw [hs.2.2] at hlive
      cases hlive
    · obtain ⟨h', l', hcall', hi'⟩ := hi.free hlive (Nat.le_max_left l.length fuel)
      have hsame := Heap.free_mono (Nat.le_max_right l.length fuel) hcall
      rw [hcall'] at hsame
      cases hsame
      exact .inr ⟨l', hi'⟩
  | @write mem hmem =>
    rcases hr with hs | ⟨l, hi⟩
    · exact .inl ⟨hs.1, hs.2.1, hs.2.2⟩
    · exact .inr ⟨l, hi.write hmem⟩

theorem Reach.ready (hr : Reach base (HEADER * 2 ^ 32) s) (hbase : 0 < base) : Ready base s := by
  induction hr with
  | start h => exact .inl h
  | step h hstep ih => exact ih.step hbase hstep

end Xv6.Umalloc
