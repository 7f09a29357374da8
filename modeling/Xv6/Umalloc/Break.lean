import Xv6.Umalloc.Heap
import Xv6.Vm.Grow

namespace Xv6

open Lib

-- sys_sbrk(): the result, which is none for -1, and p->sz after the call.
def sysSbrk (pagetable sz : Nat) (n : Int) : MemM (Option Nat × Nat) := do
  let addr := sz
  let r ← growproc pagetable sz n
  if r.1 < 0 then
    return (none, r.2)
  else
    return (some addr, r.2)

namespace Umalloc

-- What a process may have at most.
def MEMORY : Nat := PHYSTOP - KERNBASE

-- The kernel has a process of brk bytes, with its page table at root.
def Hosts (m : Mem) (root brk : Nat) : Prop := ∃ tf T L, UserSpace m root brk tf T L

-- What sbrk(n) returns in this memory, and the break after it. The argument is an int.
def sbrkIn (m : Mem) (root brk : Nat) (n : Int) : Option Nat × Nat :=
  if -0x80000000 ≤ n ∧ n < 0x80000000 then
    match sysSbrk root brk n m with
    | .ok (r, _) => r
    | .error _ => (none, brk)
  else (none, brk)

def sbrk (m : Mem) (root brk : Nat) (n : Int) : Option Nat := (sbrkIn m root brk n).1

-- The break after a call of sbrk(n) that has not failed.
def moved (brk : Nat) (n : Int) : Nat := if (brk : Int) + n < 0 then brk else ((brk : Int) + n).toNat

theorem sysSbrk_spec {m : Mem} {root sz : Nat} {n : Int} {P : Panic → Prop} (h : Hosts m root sz)
    (hn : -0x80000000 ≤ n ∧ n < 0x80000000) :
    Wp (sysSbrk root sz n) m P fun r m' => Hosts m' root r.2 ∧
      (r = (none, sz) ∧ 0 < n ∧ m.Short (3 * (pagesFor (sz + n.toNat) - pagesFor sz)) ∨
        r = (some sz, moved sz n) ∧ moved sz n ≤ MEMORY) := by
  obtain ⟨tf, T, L, h⟩ := h
  have hsz := h.sz_le
  refine Wp.bind (growproc_exact h (fun m' T' hpos h' _ hs => ?_) (fun m' T' A hpos hle h' _ => ?_)
    fun m' sz' hsz' hwrap h' _ => ?_)
  · exact Wp.pure ⟨⟨tf, T', L, h'⟩, .inl ⟨rfl, hpos, hs hn.2⟩⟩
  · have hmoved : u64Int (sz + n) = moved sz n := by
      have hsum := u64Int_of_nonneg (x := (sz : Int) + n) (by omega) (by omega)
      rw [moved, if_neg (by omega)]
      omega
    have hle := h'.sz_le
    rw [hmoved] at h' hle ⊢
    exact Wp.pure ⟨⟨tf, T', _, h'⟩, .inr ⟨rfl, hle⟩⟩
  · have hmoved : sz' = moved sz n := by
      rw [moved]
      by_cases hneg : (sz : Int) + n < 0
      · have hbig := le_u64Int_of_neg hneg (by omega)
        rw [if_pos hneg]
        split at hsz' <;> omega
      · have hsum := u64Int_of_nonneg (x := (sz : Int) + n) (by omega) (by omega)
        rw [if_neg hneg]
        split at hsz' <;> omega
    have hle := h'.sz_le
    rw [hmoved] at h' hle ⊢
    exact Wp.pure ⟨⟨tf, T, _, h'⟩, .inr ⟨rfl, hle⟩⟩

-- A program with its break.
structure Process where
  state : State
  brk : Nat

-- The break after malloc(), which has called sbrk() at most once, has made the heap h of old.
def brkAfter (m : Mem) (root brk : Nat) (old h : Heap) : Nat :=
  match h.sbrks.drop old.sbrks.length with
  | [] => brk
  | call :: _ => (sbrkIn m root brk call.1).2

-- The argument of sbrk() is the number of bytes, or sbrk() fails.
def Fits (sbrk : Int → Option Nat) (nbytes : Nat) : Prop :=
  Small nbytes ∨ sbrk (Heap.sbrkArg (Heap.moreUnits (Heap.units nbytes))) = none

namespace Process

-- malloc(nbytes) has returned p and left the break at brk.
def Safe (s : Process) (nbytes p brk : Nat) : Prop :=
  s.brk ≤ brk ∧ (p = 0 ∨ p + nbytes ≤ brk ∧
    ∀ a ∈ s.state.live, ∀ x, p ≤ x → x < p + nbytes → ¬(blockOf a).extent.Has x)

-- The memory is that of the kernel at the call, whatever other processes have done to it.
inductive Step (base : Nat) : Process → Process → Prop
  | malloc {s : Process} {m : Mem} {root nbytes fuel p : Nat} {h : Heap} (hm : Hosts m root s.brk)
      (hn : nbytes < 2 ^ 32) (hfits : Fits (sbrk m root s.brk) nbytes)
      (hcall : s.state.heap.malloc (sbrk m root s.brk) base fuel nbytes = some (p, h)) :
      Step base s ⟨⟨h, if p = 0 then s.state.live else (p, nbytes) :: s.state.live⟩,
        brkAfter m root s.brk s.state.heap h⟩
  | free {s : Process} {p nbytes fuel : Nat} {h : Heap} (hlive : (p, nbytes) ∈ s.state.live)
      (hcall : s.state.heap.free fuel p = some h) :
      Step base s ⟨⟨h, s.state.live.erase (p, nbytes)⟩, s.brk⟩
  | write {s : Process} {mem : Nat → Header} (hmem : ∀ a, ¬s.state.Payload a → mem a = s.state.heap.mem a) :
      Step base s ⟨⟨⟨mem, s.state.heap.freep, s.state.heap.sbrks⟩, s.state.live⟩, s.brk⟩
  -- the program calls sbrk() itself
  | grow {s : Process} {m : Mem} {root : Nat} {n : Int} (hm : Hosts m root s.brk) (hn : 0 ≤ n) :
      Step base s ⟨s.state, (sbrkIn m root s.brk n).2⟩

inductive Reach (base : Nat) : Process → Prop
  | start {s : Process} {m : Mem} {root : Nat} (h : Start s.state) (hbase : base + HEADER ≤ s.brk)
      (hm : Hosts m root s.brk) : Reach base s
  | step {s s' : Process} (h : Reach base s) (hstep : Step base s s') : Reach base s'

-- The heap is below the break.
structure Below (base : Nat) (s : Process) : Prop where
  ready : Ready base s.state
  base : base + HEADER ≤ s.brk
  room : s.brk ≤ MEMORY
  regions : ∀ e ∈ s.state.heap.regions, e.stop ≤ s.brk
  obtained : s.state.heap.obtained ≤ s.brk

end Process

variable {base nbytes fuel p root brk : Nat} {s s' : Process} {h h' : Heap} {m : Mem} {n : Int}

theorem sbrkIn_cases (hm : Hosts m root brk) (n : Int) :
    sbrkIn m root brk n = (none, brk) ∨
      sbrkIn m root brk n = (some brk, moved brk n) ∧ moved brk n ≤ MEMORY := by
  rw [sbrkIn]
  by_cases hn : -0x80000000 ≤ n ∧ n < 0x80000000
  · obtain ⟨r, m', hrun, -, hr⟩ := (sysSbrk_spec (P := fun _ => False) hm hn).exists_ok
    rw [if_pos hn, hrun]
    exact hr.imp_left And.left
  · exact .inl (if_neg hn)

theorem sbrk_some (hm : Hosts m root brk) (h : sbrk m root brk n = some p) :
    p = brk ∧ (sbrkIn m root brk n).2 = moved brk n ∧ moved brk n ≤ MEMORY := by
  rw [sbrk] at h
  rcases sbrkIn_cases hm n with hnone | ⟨hsome, hle⟩
  · rw [hnone] at h
    cases h
  · rw [hsome] at h ⊢
    cases h
    exact ⟨rfl, rfl, hle⟩

theorem moved_of_nonneg (hn : 0 ≤ n) : moved brk n = brk + n.toNat := by
  rw [moved, if_neg (by omega)]
  omega

theorem brkAfter_same (hs : h'.sbrks = h.sbrks) : brkAfter m root brk h h' = brk := by
  rw [brkAfter, hs, List.drop_length]

theorem brkAfter_one {q : Nat} (hm : Hosts m root brk) (hs : h'.sbrks = h.sbrks ++ [(n, q)])
    (hq : sbrk m root brk n = some q) : brkAfter m root brk h h' = moved brk n := by
  rw [brkAfter, hs, List.drop_left]
  exact (sbrk_some hm hq).2.1

theorem Process.Below.above (hb : s.Below base) (hm : Hosts m root s.brk) :
    s.state.heap.Above base (HEADER * 2 ^ 32) (sbrk m root s.brk) := by
  refine ⟨?_, ?_, ?_⟩
  · intro n p h
    rw [(sbrk_some hm h).1]
    exact hb.base
  · intro n p h
    rw [(sbrk_some hm h).1]
    exact hb.regions
  · intro n p h
    have hroom := (sbrk_some hm h).2.2
    have hobtained := hb.obtained
    have hbrk := hb.room
    have hlimit : MEMORY + MEMORY < HEADER * 2 ^ 32 := by decide
    by_cases hn : 0 ≤ n
    · rw [moved_of_nonneg hn] at hroom
      omega
    · omega

-- Without a call of sbrk() the heap stays below the break.
theorem Process.Below.same {live : List (Nat × Nat)} (hb : s.Below base)
    (hs : h.sbrks = s.state.heap.sbrks) (hr : Ready base ⟨h, live⟩) :
    Below base ⟨⟨h, live⟩, s.brk⟩ := by
  have hregions : h.regions = s.state.heap.regions := congrArg (List.map _) hs
  have hobtained : h.obtained = s.state.heap.obtained := by
    rw [Heap.obtained, hs, Heap.obtained]
  exact ⟨hr, hb.base, hb.room, hregions.symm ▸ hb.regions, hobtained.symm ▸ hb.obtained⟩

-- malloc() of so much that the argument of sbrk() is right.
theorem Process.Below.malloc_small (hb : s.Below base) (hbase : 0 < base) (hm : Hosts m root s.brk)
    (hsmall : Small nbytes) :
    ∃ fuel r, s.state.heap.malloc (sbrk m root s.brk) base fuel nbytes = some r ∧
      s.Safe nbytes r.1 (brkAfter m root s.brk s.state.heap r.2) ∧
      Below base ⟨⟨r.2, if r.1 = 0 then s.state.live else (r.1, nbytes) :: s.state.live⟩,
        brkAfter m root s.brk s.state.heap r.2⟩ := by
  obtain ⟨fuel, r, l, hcall, hi, hsbrks⟩ := hb.ready.malloc hbase hsmall (hb.above hm)
  have hbelow : s.brk ≤ brkAfter m root s.brk s.state.heap r.2 ∧
      brkAfter m root s.brk s.state.heap r.2 ≤ MEMORY ∧
      (∀ e ∈ r.2.regions, e.stop ≤ brkAfter m root s.brk s.state.heap r.2) ∧
      r.2.obtained ≤ brkAfter m root s.brk s.state.heap r.2 := by
    rcases hsbrks with hsame | ⟨n, p, hn, hp, hone⟩
    · have hb' := hb.same hsame (.inr ⟨l, hi⟩)
      rw [brkAfter_same hsame]
      exact ⟨Nat.le_refl _, hb'.room, hb'.regions, hb'.obtained⟩
    · have hroom := (sbrk_some hm hp).2.2
      rw [brkAfter_one hm hone hp, regions_append hone, obtained_append hone]
      rw [moved_of_nonneg hn] at hroom ⊢
      refine ⟨Nat.le_add_right _ _, hroom, ?_, Nat.add_le_add_right hb.obtained _⟩
      intro e he
      rcases List.mem_append.mp he with he | he
      · exact (hb.regions e he).trans (Nat.le_add_right _ _)
      · rw [List.mem_singleton.mp he, (sbrk_some hm hp).1]
  obtain ⟨hle, hroom, hregions, hobtained⟩ := hbelow
  have hbase' : base + HEADER ≤ brkAfter m root s.brk s.state.heap r.2 := hb.base.trans hle
  refine ⟨fuel, r, hcall, ⟨hle, ?_⟩, .inr ⟨l, hi⟩, hbase', hroom, hregions, hobtained⟩
  by_cases hzero : r.1 = 0
  · exact .inl hzero
  · rw [if_neg hzero] at hi
    have hptr : HEADER ≤ r.1 ∧ nbytes < 2 ^ 32 := hi.ptr _ List.mem_cons_self
    have hunits := le_units hptr.2
    have hstop := hi.stop_le (by omega) hregions (blockOf (r.1, nbytes))
      (List.mem_append_right _ List.mem_cons_self)
    refine .inr ⟨?_, ?_⟩
    · simp only [blockOf, Block.stop] at hstop
      omega
    · intro a ha x hx hlt hhas
      have hbefore := hi.tiles.cons_before (List.mem_map_of_mem ha)
      simp only [Extent.Has, Block.extent, Block.Before, Block.stop, blockOf] at hhas hbefore
      omega

theorem units_le (h : nbytes < 2 ^ 32) : Heap.units nbytes ≤ 0x10000001 := by
  simp only [Heap.units, HEADER]
  omega

theorem large_of_not_small (h : nbytes < 2 ^ 32) (hlarge : ¬Small nbytes) :
    0x8000000 ≤ Heap.units nbytes ∧ Heap.moreUnits (Heap.units nbytes) = Heap.units nbytes := by
  have hnot : ¬Heap.moreUnits (Heap.units nbytes) * HEADER < 2 ^ 31 := fun hlt => hlarge ⟨h, hlt⟩
  unfold Heap.moreUnits at hnot ⊢
  simp only [HEADER] at hnot
  split at hnot <;> rename_i hcmp
  · omega
  · rw [if_neg hcmp]
    omega

-- What malloc() does with them.
theorem Process.Below.malloc_large (hb : s.Below base) (hbase : 0 < base) (hm : Hosts m root s.brk)
    (hn : nbytes < 2 ^ 32) (hlarge : ¬Small nbytes) :
    ∃ fuel r, s.state.heap.malloc (sbrk m root s.brk) base fuel nbytes = some r ∧
      (sbrk m root s.brk (Heap.sbrkArg (Heap.units nbytes)) = none ∧
          r = (0, s.state.heap.start base) ∨
        r.1 = s.brk + HEADER ∧
          r.2.sbrks = s.state.heap.sbrks ++ [(Heap.sbrkArg (Heap.units nbytes), s.brk)] ∧
          sbrk m root s.brk (Heap.sbrkArg (Heap.units nbytes)) = some s.brk) := by
  obtain ⟨l, hi⟩ := hb.ready.start hbase
  obtain ⟨hunits, hmore⟩ := large_of_not_small hn hlarge
  have hle := units_le hn
  have hb' := hb.same (sbrks_start _ base) (.inr ⟨l, hi⟩)
  -- All of memory is 2^23 units.
  have htotal : total l ≤ 0x800000 := by
    have hsum := hi.tiles.total
    have hbrk := hb'.obtained.trans hb.room
    rw [total_append] at hsum
    rw [← hsum] at hbrk
    have hmemory : MEMORY = 0x8000000 := rfl
    simp only [HEADER] at hbrk
    omega
  have hfresh : ∀ p, sbrk m root s.brk (Heap.sbrkArg (Heap.moreUnits (Heap.units nbytes))) = some p →
      Fresh base l ⟨p, Heap.moreUnits (Heap.units nbytes)⟩ := by
    intro p hp
    have hlt : base < s.brk := Nat.lt_of_lt_of_le (Nat.lt_add_of_pos_right (by decide)) hb.base
    rw [(sbrk_some hm hp).1, hmore]
    refine ⟨hlt, ?_, ?_⟩
    · intro y hy
      exact hi.stop_le hlt.le hb'.regions y (List.mem_append_left _ hy)
    · rw [total_cons]
      dsimp only
      omega
  obtain ⟨r, hcall, hr⟩ := hi.linked.malloc (sbrk m root s.brk) hi.gaps hi.freep hbase (units_pos hn) (by omega)
    hfresh (Nat.le_refl _)
  refine ⟨2 * l.length + 1, r, hcall, ?_⟩
  cases hr with
  | found hlarge hdone hsbrks =>
    obtain ⟨y, hy, hle⟩ := hlarge
    have hsize := size_le_total hy
    omega
  | failed hnone hsbrk hret =>
    rw [hmore] at hsbrk
    exact .inl ⟨hsbrk, hret⟩
  | @grown p l' t hnone hsbrk hdone hsbrks hstop =>
    have hp := (sbrk_some hm hsbrk).1
    subst hp
    rw [hmore] at hsbrk hsbrks hstop
    rw [Block.stop, hdone.units] at hstop
    have haddr := Nat.add_right_cancel hstop
    rw [sbrks_start] at hsbrks
    exact .inr ⟨hdone.ret.trans (by rw [haddr]), hsbrks, hsbrk⟩

theorem sbrkArg_large (h : nbytes < 2 ^ 32) (hlarge : ¬Small nbytes) :
    Heap.sbrkArg (Heap.units nbytes) ≤ 16 := by
  obtain ⟨hunits, hmore⟩ := large_of_not_small h hlarge
  have hle := units_le h
  have hheader : HEADER = 16 := rfl
  rw [Heap.sbrkArg, BitVec.toInt_eq_toNat_cond, BitVec.toNat_ofNat, hheader]
  by_cases hhalf : 2 * (Heap.units nbytes * 16 % 2 ^ 32) < 2 ^ 32
  · rw [if_pos hhalf]
    omega
  · rw [if_neg hhalf]
    omega

theorem moved_le (brk : Nat) (hn : n ≤ 16) : moved brk n ≤ brk + 16 := by
  unfold moved
  split <;> omega

theorem Process.Below.malloc_iff (hb : s.Below base) (hbase : 0 < base) (hm : Hosts m root s.brk)
    (hn : nbytes < 2 ^ 32) :
    ∃ fuel r, s.state.heap.malloc (sbrk m root s.brk) base fuel nbytes = some r ∧
      (s.Safe nbytes r.1 (brkAfter m root s.brk s.state.heap r.2) ↔ Fits (sbrk m root s.brk) nbytes) ∧
      (Fits (sbrk m root s.brk) nbytes →
        Below base ⟨⟨r.2, if r.1 = 0 then s.state.live else (r.1, nbytes) :: s.state.live⟩,
          brkAfter m root s.brk s.state.heap r.2⟩) := by
  by_cases hsmall : Small nbytes
  · obtain ⟨fuel, r, hcall, hsafe, hbelow⟩ := hb.malloc_small hbase hm hsmall
    exact ⟨fuel, r, hcall, iff_of_true hsafe (.inl hsmall), fun _ => hbelow⟩
  · obtain ⟨fuel, r, hcall, hr⟩ := hb.malloc_large hbase hm hn hsmall
    have hmore := (large_of_not_small hn hsmall).2
    refine ⟨fuel, r, hcall, ?_⟩
    rcases hr with ⟨hnone, rfl⟩ | ⟨hret, hsbrks, hsome⟩
    · have hfits : Fits (sbrk m root s.brk) nbytes := .inr (hmore.symm ▸ hnone)
      dsimp only
      rw [brkAfter_same (sbrks_start s.state.heap base)]
      refine ⟨iff_of_true ⟨Nat.le_refl _, .inl rfl⟩ hfits, fun _ => ?_⟩
      exact hb.same (sbrks_start _ base) (.inr (hb.ready.start hbase))
    · have hnot : ¬Fits (sbrk m root s.brk) nbytes := by
        rintro (h | h)
        · exact hsmall h
        · rw [hmore, hsome] at h
          cases h
      refine ⟨iff_of_false ?_ hnot, fun h => absurd h hnot⟩
      rintro ⟨-, hzero | ⟨hle, -⟩⟩
      · rw [hret] at hzero
        simp only [HEADER] at hzero
        omega
      · have hmoved := moved_le s.brk (sbrkArg_large hn hsmall)
        have hpos : 0 < nbytes := by
          by_contra hzero
          have : nbytes = 0 := by omega
          subst this
          exact hsmall (by decide)
        rw [brkAfter_one hm hsbrks hsome, hret] at hle
        simp only [HEADER] at hle
        omega

theorem sbrks_free {ap : Nat} (hcall : h.free fuel ap = some h') : h'.sbrks = h.sbrks := by
  obtain ⟨p, -, rfl⟩ := Option.map_eq_some_iff.mp hcall
  unfold Heap.link Heap.linkPrev Heap.linkNext
  split <;> split <;> rfl

theorem Process.Below.step (hb : s.Below base) (hbase : 0 < base) (hstep : Step base s s') :
    s'.Below base := by
  cases hstep with
  | @malloc m root nbytes fuel p h hm hn hfits hcall =>
    obtain ⟨fuel', r, hcall', -, hbelow⟩ := hb.malloc_iff hbase hm hn
    cases Heap.malloc_unique hcall' hcall
    exact hbelow hfits
  | @free p nbytes fuel h hlive hcall =>
    have hstep : Umalloc.Step base (HEADER * 2 ^ 32) s.state ⟨h, s.state.live.erase (p, nbytes)⟩ :=
      .free hlive hcall
    exact hb.same (sbrks_free hcall) (hb.ready.step hbase hstep)
  | @write mem hmem =>
    have hstep : Umalloc.Step base (HEADER * 2 ^ 32) s.state _ := .write hmem
    exact ⟨hb.ready.step hbase hstep, hb.base, hb.room, hb.regions, hb.obtained⟩
  | @grow m root n hm hn =>
    have hgrow : s.brk ≤ (sbrkIn m root s.brk n).2 ∧ (sbrkIn m root s.brk n).2 ≤ MEMORY := by
      rcases sbrkIn_cases hm n with hnone | ⟨hsome, hle⟩
      · rw [hnone]
        exact ⟨le_rfl, hb.room⟩
      · rw [hsome]
        refine ⟨?_, hle⟩
        rw [moved_of_nonneg hn]
        exact Nat.le_add_right _ _
    obtain ⟨hle, hroom⟩ := hgrow
    exact ⟨hb.ready, hb.base.trans hle, hroom, fun e he => (hb.regions e he).trans hle,
      hb.obtained.trans hle⟩

theorem Process.Reach.heap_below (hr : Reach base s) (hbase : 0 < base) : s.Below base := by
  induction hr with
  | @start s m root h hbase hm =>
    obtain ⟨tf, T, L, hm⟩ := hm
    refine ⟨.inl h, hbase, hm.sz_le, ?_, ?_⟩
    · simp [Heap.regions, h.2.1]
    · simp [Heap.obtained, h.2.1]
  | step h hstep ih => exact ih.step hbase hstep

-- malloc() is safe if and only if the argument of sbrk() is right or sbrk() fails. The
-- process is still there after any call of sbrk().
theorem malloc_safe_iff (hbase : 0 < base) (hr : Process.Reach base s) (hm : Hosts m root s.brk)
    (hn : nbytes < 2 ^ 32) :
    (∃ fuel r, s.state.heap.malloc (sbrk m root s.brk) base fuel nbytes = some r) ∧
      (∀ fuel r, s.state.heap.malloc (sbrk m root s.brk) base fuel nbytes = some r →
        (s.Safe nbytes r.1 (brkAfter m root s.brk s.state.heap r.2) ↔
          Fits (sbrk m root s.brk) nbytes)) ∧
      ∀ n : Int, -0x80000000 ≤ n ∧ n < 0x80000000 → ∃ r m',
        sysSbrk root s.brk n m = .ok (r, m') ∧ Hosts m' root r.2 := by
  obtain ⟨fuel, r, hcall, hiff, -⟩ := (hr.heap_below hbase).malloc_iff hbase hm hn
  refine ⟨⟨fuel, r, hcall⟩, fun fuel' r' hcall' => ?_, fun n hint => ?_⟩
  · rw [← Heap.malloc_unique hcall hcall']
    exact hiff
  · obtain ⟨r, m', hrun, hm', -⟩ := (sysSbrk_spec (P := fun _ => False) hm hint).exists_ok
    exact ⟨r, m', hrun, hm'⟩

theorem morecore_congr {f g : Int → Option Nat} {nu : Nat}
    (heq : f (Heap.sbrkArg (Heap.moreUnits nu)) = g (Heap.sbrkArg (Heap.moreUnits nu))) :
    h.morecore f fuel nu = h.morecore g fuel nu := by
  rw [Heap.morecore, Heap.morecore, heq]

-- malloc() calls sbrk() for one number of bytes only.
theorem malloc_congr {f g : Int → Option Nat}
    (heq : f (Heap.sbrkArg (Heap.moreUnits (Heap.units nbytes))) =
      g (Heap.sbrkArg (Heap.moreUnits (Heap.units nbytes)))) :
    h.malloc f base fuel nbytes = h.malloc g base fuel nbytes := by
  have hloop : ∀ fuel h prevp p, Heap.mallocLoop f (Heap.units nbytes) fuel h prevp p =
      Heap.mallocLoop g (Heap.units nbytes) fuel h prevp p := by
    intro fuel
    induction fuel with
    | zero => exact fun _ _ _ => rfl
    | succ fuel ih =>
      intro h prevp p
      simp only [Heap.mallocLoop, morecore_congr heq, ih]
  exact hloop _ _ _ _

-- A process of one page, with sixteen more to take.
theorem hosts_first : ∃ m root, Hosts m root 4096 ∧ ¬m.Short 51 := by
  obtain ⟨m, root, -, T, -, L, hgood, hspace, -, -⟩ := sampleTables_some
    (fun _ m => decide ¬m.Short 51) (freshMem_owned (n := 70) (by decide)) (by decide +kernel)
  exact ⟨m, root, ⟨_, T, L, hspace.space, hspace.size, hspace.guard⟩, of_decide_eq_true hgood⟩

theorem reach_first : ∃ s m root, Process.Reach 16 s ∧ s.brk = 69680 ∧ Hosts m root s.brk ∧
    ∃ h, s.state.heap.malloc (sbrk m root s.brk) 16 9 4294967264 = some (69696, h) ∧
      brkAfter m root s.brk s.state.heap h = 69664 := by
  obtain ⟨m, root, hm, hpages⟩ := hosts_first
  obtain ⟨r, m', hrun, hm', hr⟩ :=
    (sysSbrk_spec (P := fun _ => False) (n := 65584) hm (by decide)).exists_ok
  have hr : r = (some 4096, 69680) := (hr.resolve_left fun h => hpages h.2.2).1
  have hgrow : sbrkIn m root 4096 65584 = (some 4096, 69680) := by
    rw [sbrkIn, if_pos (by decide), hrun, hr]
  rw [hr] at hm'
  have hshrink : sbrkIn m' root 69680 (-16) = (some 69680, 69664) := by
    obtain ⟨r, m'', hrun, -, hr⟩ :=
      (sysSbrk_spec (P := fun _ => False) (n := -16) hm' (by decide)).exists_ok
    rw [sbrkIn, if_pos (by decide), hrun]
    exact (hr.resolve_left fun h => absurd h.2.1 (by decide)).1
  obtain ⟨h, hcall, hsbrks, h', hcall', hsbrks'⟩ : ∃ h,
      empty.heap.malloc (fun _ => some 4096) 16 9 65568 = some (4112, h) ∧
      h.sbrks = [(65584, 4096)] ∧
      ∃ h', h.malloc (fun _ => some 69680) 16 9 4294967264 = some (69696, h') ∧
        h'.sbrks = [(65584, 4096), (-16, 69680)] := ⟨_, rfl, rfl, _, rfl, rfl⟩
  have hstart : Process.Reach 16 ⟨empty, 4096⟩ := .start start_empty (by decide) hm
  have hfirst : empty.heap.malloc (sbrk m root 4096) 16 9 65568 = some (4112, h) :=
    (malloc_congr (congrArg Prod.fst hgrow)).trans hcall
  have hstep := Process.Step.malloc (s := ⟨empty, 4096⟩) hm (by decide) (.inl (by decide)) hfirst
  have hbrk : brkAfter m root 4096 empty.heap h = 69680 := by
    rw [brkAfter, hsbrks]
    exact congrArg Prod.snd hgrow
  refine ⟨_, m', root, .step hstart hstep, hbrk, ?_, h', ?_, ?_⟩ <;> dsimp only <;> rw [hbrk]
  · exact hm'
  · exact (malloc_congr (congrArg Prod.fst hshrink)).trans hcall'
  · rw [brkAfter, hsbrks, hsbrks']
    exact congrArg Prod.snd hshrink

theorem malloc_safe_iff_first : ∃ s m root, Process.Reach 16 s ∧ Hosts m root s.brk ∧ ∃ fuel r,
    s.state.heap.malloc (sbrk m root s.brk) 16 fuel 100 = some r ∧
    s.Safe 100 r.1 (brkAfter m root s.brk s.state.heap r.2) := by
  obtain ⟨s, m, root, hr, -, hm, -⟩ := reach_first
  obtain ⟨⟨fuel, r, hcall⟩, hall, -⟩ :=
    malloc_safe_iff (by decide) hr hm (show 100 < 2 ^ 32 by decide)
  exact ⟨s, m, root, hr, hm, fuel, r, hcall, (hall fuel r hcall).mpr (.inl (by decide))⟩

-- sbrk(-16) takes the end of the heap away, and malloc() returns a pointer behind it.
theorem malloc_unsafe : ∃ s m root, Process.Reach 16 s ∧ Hosts m root s.brk ∧ ∃ fuel r,
    s.state.heap.malloc (sbrk m root s.brk) 16 fuel 4294967264 = some r ∧
    r.1 = 69696 ∧ brkAfter m root s.brk s.state.heap r.2 = s.brk - 16 ∧
    ¬s.Safe 4294967264 r.1 (brkAfter m root s.brk s.state.heap r.2) := by
  obtain ⟨s, m, root, hr, hbrk, hm, h, hcall, hafter⟩ := reach_first
  refine ⟨s, m, root, hr, hm, 9, (69696, h), hcall, rfl, ?_, ?_⟩
  · rw [hafter, hbrk]
  · rw [hafter]
    rintro ⟨hle, -⟩
    rw [hbrk] at hle
    exact absurd hle (by decide)

end Umalloc

end Xv6
