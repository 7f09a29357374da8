import Mathlib.Data.Nat.Find
import Xv6.Fs.Short

namespace Xv6.Fs

open Lib

variable {sb : Superblock} {s t : Sys} {i : Slot} {v : Nat → Dinode} {off len tot bn : Nat}
  {mem : Nat → Option UInt8}

-- The buffers of the blocks of B are recycled, and the blocks read again.
def Sys.evicted (s : Sys) (B : Nat → Bool) : Sys :=
  { s with data := fun b => if B b then s.home b else s.data b }

-- Whichever buffers are recycled, readi() finds the bytes l.
def ReadsAs (sb : Superblock) (i : Slot) (s : Sys) (l : List UInt8) : Prop :=
  ∀ B off len, off < 2 ^ 32 → len < 2 ^ 32 → (readi sb i kernelDst off len).run (s.evicted B) =
    .done (s.evicted B) (if l.length < off ∨ 2 ^ 32 ≤ off + len then (0, [])
      else ((((l.drop off).take len).length : Int), (l.drop off).take len))

section Evicted

variable {n : Nat} {l : List UInt8}

theorem Blocks.ptr_evicted {exact : Prop} {L : List Nat} (h : Blocks sb exact v L s)
    (hn : (v n).type ≠ .free) (B : Nat → Bool) (x : Pos) :
    ptr (s.evicted B).data (v n) x = ptr s.data (v n) x := by
  cases x with
  | addr k => rfl
  | entry j =>
    by_cases ha : (v n).addrs indirect = 0
    · rw [ptr, ptr, if_pos ha, if_pos ha]
    · have hdata : (s.evicted B).data ((v n).addrs indirect) = s.data ((v n).addrs indirect) := by
        show (if B _ then s.home _ else s.data _) = _
        rw [h.clean n hn ha, ite_self]
      rw [ptr, ptr, hdata]

theorem Blocks.blockAt_evicted {exact : Prop} {L : List Nat} (h : Blocks sb exact v L s)
    (hn : (v n).type ≠ .free) (B : Nat → Bool) (bn : Nat) :
    blockAt (s.evicted B).data (v n) bn = blockAt s.data (v n) bn := by
  cases hx : pos bn with
  | none => rw [blockAt_of_none hx, blockAt_of_none hx]
  | some x => rw [blockAt_of_pos hx, blockAt_of_pos hx, h.ptr_evicted hn B x]

theorem Blocks.evicted {exact : Prop} {L : List Nat} (h : Blocks sb exact v L s)
    (B : Nat → Bool) : Blocks sb exact v L (s.evicted B) := by
  refine ⟨h.alloc.congr fun o c => ?_, fun m hm bn hbn => ?_, h.small, fun m hm ha => ?_⟩
  · refine and_congr_right fun ho => ?_
    rw [h.ptr_evicted ho B o.2]
  · rw [h.blockAt_evicted hm B bn]
    exact h.mapped m hm bn hbn
  · show s.home _ = if B _ then s.home _ else s.data _
    rw [h.clean m hm ha, ite_self]

theorem byteOf_evicted (hfs : HoleFree sb s) (hn : (s.dinode n).type ≠ .free) (B : Nat → Bool)
    {k : Nat} (hk : k < (s.dinode n).size) :
    byteOf (content (s.evicted B).data (s.dinode n)) k =
      if B (blockAt s.data (s.dinode n) (k / BSIZE)) then byteOf (homeOf s (s.dinode n)) k
      else byteOf (content s.data (s.dinode n)) k := by
  have hmapped := hfs.mapped n hn (k / BSIZE)
    (Nat.lt_of_le_of_lt (Nat.div_mul_le_self _ _) hk)
  have hblock := hfs.blockAt_evicted hn B (k / BSIZE)
  unfold byteOf homeOf
  rw [content_of_block (by rwa [hblock]), content_of_block hmapped, hblock]
  show (if B _ then s.home _ else s.data _ : Block).byte _ = _
  split <;> rfl

theorem readsAs_iff_contents (hfs : HoleFree sb s) (hi : InSlot s i n) :
    ReadsAs sb i s l ↔ ∀ B, (s.evicted B).contents n = l := by
  have hreadi := fun B off len hlen =>
    readi_run (hfs.evicted B) (show InSlot (s.evicted B) i n from ⟨hi.inum, hi.same, hi.type⟩)
      (show ∀ tot m, kernelDst tot m = true from fun _ _ => rfl) off len hlen
  have hsmall : (s.dinode n).size < 2 ^ 32 - 1 :=
    Nat.lt_of_le_of_lt (hfs.small n hi.type) (by decide)
  have hlen : ∀ B, ((s.evicted B).contents n).length = (s.dinode n).size := fun B =>
    length_contents _ n
  constructor
  · intro h B
    have hall := (hreadi B 0 (2 ^ 32 - 1) (by decide)).symm.trans
      (h B 0 (2 ^ 32 - 1) (by decide) (by decide))
    rw [if_neg (by omega), if_neg (by omega)] at hall
    simp only [List.drop_zero, Res.done.injEq, Prod.mk.injEq, true_and] at hall
    have hcontents := hall.2
    rw [List.take_of_length_le (by rw [hlen B]; omega)] at hcontents
    have hl : l.length ≤ 2 ^ 32 - 1 := by
      have hlength := congrArg List.length hcontents
      rw [hlen B, List.length_take] at hlength
      omega
    rw [hcontents, List.take_of_length_le hl]
  · intro h B off len _ hlen'
    rw [hreadi B off len hlen', h B, ← h B, hlen B]
    rfl

theorem readsAs_iff (hfs : HoleFree sb s) (hi : InSlot s i n)
    (hl : l.length = (s.dinode n).size) :
    ReadsAs sb i s l ↔ s.contents n = l ∧
      ∀ k, k < (s.dinode n).size → l[k]? = some (byteOf (homeOf s (s.dinode n)) k) := by
  have hget : ∀ B k, k < (s.dinode n).size → ((s.evicted B).contents n)[k]? =
      some (if B (blockAt s.data (s.dinode n) (k / BSIZE)) then byteOf (homeOf s (s.dinode n)) k
        else byteOf (content s.data (s.dinode n)) k) := by
    intro B k hk
    rw [Sys.contents, getElem?_bytesOf, Nat.zero_add]
    show (if k < (s.dinode n).size then some (byteOf (content _ (s.dinode n)) k) else none) = _
    rw [if_pos hk, byteOf_evicted hfs hi.type B hk]
  rw [readsAs_iff_contents hfs hi]
  constructor
  · intro h
    refine ⟨h fun _ => false, fun k hk => ?_⟩
    have hread := hget (fun _ => true) k hk
    rwa [h] at hread
  · rintro ⟨hcached, hread⟩ B
    refine List.ext_getElem? fun k => ?_
    by_cases hk : k < (s.dinode n).size
    · rw [hget B k hk]
      split
      · exact (hread k hk).symm
      · rw [← hcached]
        exact (hget (fun _ => false) k hk).symm
    · rw [List.getElem?_eq_none, List.getElem?_eq_none (by omega)]
      rw [length_contents]
      exact Nat.le_of_not_lt hk

end Evicted

-- A write of len bytes at off gets past block bn of the file: it has bytes there, and all its
-- bytes up to the end of the block are mapped.
def Passes (mem : Nat → Option UInt8) (off len bn : Nat) : Prop :=
  0 < len ∧ off / BSIZE ≤ bn ∧ bn * BSIZE < off + len ∧
    ∀ j, j < len → (off + j) / BSIZE ≤ bn → (mem j).isSome = true

-- When a write of len bytes at off replaces the bytes that it reports and no other. Before the
-- first unmapped byte b, which makes the round of its block fail, that round copies nothing of
-- the file but what is there, and no change from before the call is waiting in a buffer
-- that this call does not log. The blocks below the size are there already, so that the
-- free blocks do not matter.
structure Intact (s : Sys) (n : Nat) (mem : Nat → Option UInt8) (off len : Nat) : Prop where
  torn : ∀ j b, j < b → b < len → (∀ k, k < b → (mem k).isSome = true) → mem b = none →
    (off + j) / BSIZE = (off + b) / BSIZE → off + j < (s.dinode n).size →
    mem j = some (byteOf (content s.data (s.dinode n)) (off + j))
  logged : ∀ k, k < (s.dinode n).size → ¬ Passes mem off len (k / BSIZE) →
    byteOf (homeOf s (s.dinode n)) k = byteOf (content s.data (s.dinode n)) k

section Stops

variable {n k : Nat} {block : Nat → Nat} (h : Stops mem off len block tot)
  (hmapped : ∀ bn, bn * BSIZE < n → block bn ≠ 0)

include h hmapped

theorem Stops.next_unmapped (hlt : tot < len) (hn : (off + tot) / BSIZE * BSIZE < n) :
    ∃ b, tot ≤ b ∧ b < len ∧ (off + b) / BSIZE = (off + tot) / BSIZE ∧ mem b = none ∧
      ∀ k, k < b → (mem k).isSome = true := by
  obtain ⟨j, hj, hjlen, hblock, hnone⟩ := (h.next hlt).resolve_left (hmapped _ hn)
  have hex : ∃ b, mem b = none := ⟨j, hnone⟩
  have hle := Nat.find_min' hex hnone
  have hfirst : ∀ k, k < Nat.find hex → (mem k).isSome = true := fun k hk =>
    Option.isSome_iff_ne_none.mpr (Nat.find_min hex hk)
  have hfind := Nat.find_spec hex
  have htot : tot ≤ Nat.find hex := by
    by_contra hlt'
    have hsome := h.whole _ (Nat.lt_of_not_le hlt')
    rw [hfind] at hsome
    cases hsome
  refine ⟨Nat.find hex, htot, by omega, ?_, hfind, hfirst⟩
  exact Nat.le_antisymm (hblock ▸ Nat.div_le_div_right (by omega)) (Nat.div_le_div_right (by omega))

theorem Stops.logged_iff (htot : tot ≤ len) (hk : k < n) :
    Logged off tot (k / BSIZE) ↔ Passes mem off len (k / BSIZE) := by
  have hblock := Nat.lt_of_le_of_lt (Nat.div_mul_le_self k BSIZE) hk
  have hedge := h.edge
  constructor
  · rintro ⟨hpos, hle, hlt⟩
    refine ⟨by omega, hle, by omega, fun j hj hjk => h.whole j ?_⟩
    unfold BSIZE at *
    omega
  · rintro ⟨hpos, hle, hlt, hall⟩
    by_cases hlen : tot = len
    · exact hlen ▸ ⟨hpos, hle, hlt⟩
    · by_contra hnot
      have hfar : (off + tot) / BSIZE ≤ k / BSIZE := by
        unfold Logged BSIZE at *
        omega
      obtain ⟨b, -, hb, hsame, hnone, -⟩ := h.next_unmapped hmapped (by omega)
        (Nat.lt_of_le_of_lt (Nat.mul_le_mul_right _ hfar) hblock)
      have hsome := hall b hb (hsame ▸ hfar)
      rw [hnone] at hsome
      cases hsome

-- The round that fails is the one of the first unmapped byte.
theorem Stops.torn_iff (htot : tot ≤ len) (P : Nat → Prop) :
    (∀ j, j < torn mem off len tot → off + tot + j < n → P (tot + j)) ↔
      ∀ j b, j < b → b < len → (∀ k, k < b → (mem k).isSome = true) → mem b = none →
        (off + j) / BSIZE = (off + b) / BSIZE → off + j < n → P j := by
  constructor
  · intro hall j b hjb hb hfirst hnone hsame hj
    have hbtot : tot ≤ b := by
      by_contra hlt
      have hsome := h.whole b (Nat.lt_of_not_le hlt)
      rw [hnone] at hsome
      cases hsome
    have hnext : (off + tot) / BSIZE * BSIZE < n := by
      unfold BSIZE at *
      omega
    obtain ⟨b', hb', -, hsame', hnone', -⟩ := h.next_unmapped hmapped (by omega) hnext
    have hle : b ≤ b' := by
      by_contra hlt
      have hsome := hfirst b' (Nat.lt_of_not_le hlt)
      rw [hnone'] at hsome
      cases hsome
    have hedge := h.edge
    have htj : tot ≤ j ∧ (off + tot) % BSIZE + (j - tot) < BSIZE := by
      unfold BSIZE at *
      omega
    have hj' : tot + (j - tot) = j := Nat.add_sub_cancel' htj.1
    rw [← hj']
    refine hall _ ((lt_torn mem off len tot _).mpr ⟨by omega, htj.2, fun k hk => ?_⟩) (by omega)
    exact hfirst _ (by omega)
  · intro hall j hj hlt
    obtain ⟨hjlen, hin, hsome⟩ := (lt_torn mem off len tot j).mp hj
    obtain ⟨b, hb, hblen, hsame, hnone, hfirst⟩ := h.next_unmapped hmapped (by omega)
      (Nat.lt_of_le_of_lt (Nat.div_mul_le_self _ _) (by omega))
    have hjb : tot + j < b := by
      by_contra hle
      have hmapped := hsome (b - tot) (by omega)
      rw [Nat.add_sub_cancel' hb, hnone] at hmapped
      cases hmapped
    refine hall _ b hjb hblen hfirst hnone ?_ (by omega)
    unfold BSIZE at *
    omega

end Stops

theorem logged_of_mem {k : Nat} (hk : off ≤ k ∧ k < off + tot) : Logged off tot (k / BSIZE) :=
  ⟨by omega, Nat.div_le_div_right hk.1, Nat.lt_of_le_of_lt (Nat.div_mul_le_self _ _) hk.2⟩

theorem Stored.byte_home {n more k : Nat} (h : Stored sb i n mem off len tot more s t)
    (hfs : HoleFree sb s) (hn : (s.dinode n).type ≠ .free) (hk : k < (s.dinode n).size)
    (hnot : ¬ Logged off tot (k / BSIZE)) :
    byteOf (homeOf t (t.dinode n)) k = byteOf (homeOf s (s.dinode n)) k := by
  have hmapped := hfs.mapped n hn (k / BSIZE) (Nat.lt_of_le_of_lt (Nat.div_mul_le_self _ _) hk)
  rw [byteOf, byteOf, h.kept _ hnot hmapped]

-- A write of two bytes to the start of a file with the bytes 1 and 2. Of the source the
-- first byte is the last one of its page, and the next page is unmapped.
def lastByte (j : Nat) : Option UInt8 := if j = 0 then some 9 else none

def sameByte (j : Nat) : Option UInt8 := if j = 0 then some 1 else none

def noted : Option (Sys × Int) :=
  ((writei tinySb tinySlot (.kernel [1, 2]) 0 2).run (tinySys .file)).ended

def overwrite (mem : Nat → Option UInt8) (s : Sys) : Option (Sys × Int) :=
  ((writei tinySb tinySlot (.user mem) 0 2).run s).ended

theorem noted_file {x : Sys × Int} (h : noted = some x) :
    HoleFree tinySb x.1 ∧ InSlot x.1 tinySlot 1 := by
  have hrun := Res.eq_done h
  have hlen : ([1, 2] : List UInt8).length = 2 := rfl
  have hsrc : ∀ tot m, tot + m ≤ 2 →
      Src.copyin (.kernel [1, 2]) tot m = (([1, 2] : List UInt8).drop tot).take m :=
    fun _ _ _ => rfl
  have hwrite := writei_run (holeFree_tinySys .file) (inSlot_tinySys (by decide)) hlen hsrc 0
    (by decide) (by decide)
  rw [if_neg (by decide)] at hwrite
  obtain ⟨t, tot, hdone, -, -, -, hedited⟩ := hwrite
  rw [hrun, Res.done.injEq] at hdone
  rw [hdone.1]
  exact ⟨hedited.holeFree, hedited.inSlot⟩

theorem failed_copy_intact_iff (sb : Superblock) (s t : Sys) (i : Slot) (n off len tot : Nat)
    (mem : Nat → Option UInt8) (hfs : HoleFree sb s) (hi : InSlot s i n)
    (hrun : (writei sb i (.user mem) off len).run s = .done t (tot : Int)) :
    ReadsAs sb i t (patch (s.contents n) off (chunkBytes mem (0, tot))) ↔
      Intact s n mem off len := by
  obtain ⟨more, h⟩ := writei_stored hfs hi hrun
  have hle := h.le
  have hmapped := hfs.mapped n hi.type
  have htorn_iff := h.stops.torn_iff hmapped (by omega) fun j =>
    mem j = some (byteOf (content s.data (s.dinode n)) (off + j))
  simp only [← Nat.add_assoc] at htorn_iff
  have hlogged := fun {k} => h.stops.logged_iff hmapped (k := k) (by omega)
  rw [readsAs_iff h.edited.holeFree h.edited.inSlot h.length_patch, h.contents_iff hfs hi.type]
  constructor
  · rintro ⟨htorn, hread⟩
    refine ⟨htorn_iff.mp htorn, fun k hk hnot => ?_⟩
    rw [← hlogged hk] at hnot
    have hin : ¬ (off ≤ k ∧ k < off + tot) := fun hin => hnot (logged_of_mem hin)
    have hlt : k < (t.dinode n).size := by
      rw [h.size]
      omega
    have hhome := hread k hlt
    rw [h.getElem?_patch hlt, if_neg hin, h.byte_home hfs hi.type hk hnot] at hhome
    exact (Option.some.inj hhome).symm
  · intro hintact
    have htorn := htorn_iff.mpr hintact.torn
    refine ⟨htorn, fun k hk => ?_⟩
    by_cases hl : Logged off tot (k / BSIZE)
    · -- the block is as it is in the cache
      rw [← (h.contents_iff hfs hi.type).mpr htorn, Sys.contents, getElem?_bytesOf, if_pos hk,
        Nat.zero_add, byteOf, byteOf, (h.logged _ hl).2]
    · have hin : ¬ (off ≤ k ∧ k < off + tot) := fun hin => hl (logged_of_mem hin)
      have hold := h.size_lt hk hin
      rw [h.getElem?_patch hk, if_neg hin, h.byte_home hfs hi.type hold hl,
        hintact.logged k hold (fun hpass => hl ((hlogged hold).mpr hpass))]

-- Of a source that is unmapped from its second byte on the file has the first byte already.
theorem failed_copy_intact_iff_same : ∃ s t : Sys, HoleFree tinySb s ∧ InSlot s tinySlot 1 ∧
    s.contents 1 = [1, 2] ∧
    (writei tinySb tinySlot (.user sameByte) 0 2).run s = .done t 0 ∧
    ReadsAs tinySb tinySlot t [1, 2] := by
  have hcheck : (noted.any fun x => decide (x.1.contents 1 = [1, 2] ∧ (x.1.dinode 1).size = 2 ∧
      byteOf (content x.1.data (x.1.dinode 1)) 0 = 1 ∧ ∀ k < 2,
        byteOf (homeOf x.1 (x.1.dinode 1)) k = byteOf (content x.1.data (x.1.dinode 1)) k) &&
      (overwrite sameByte x.1).any fun y => decide (y.2 = 0)) = true := by decide +kernel
  obtain ⟨x, hx, hcheck⟩ := (Option.any_eq_true _ _).mp hcheck
  obtain ⟨hbefore, hafter⟩ := (Bool.and_eq_true _ _).mp hcheck
  obtain ⟨y, hy, hzero⟩ := (Option.any_eq_true _ _).mp hafter
  obtain ⟨hcontents, hsize, hbyte, hhome⟩ := of_decide_eq_true hbefore
  obtain ⟨hfs, hi⟩ := noted_file hx
  have hrun := Res.eq_done hy
  rw [of_decide_eq_true hzero] at hrun
  have hreads := (failed_copy_intact_iff tinySb x.1 y.1 tinySlot 1 0 2 0 sameByte hfs hi hrun).mpr
    ⟨fun j b hjb hb _ _ _ _ => ?_, fun k hk _ => hhome k (hsize ▸ hk)⟩
  · rw [hcontents] at hreads
    exact ⟨x.1, y.1, hfs, hi, hcontents, hrun, hreads⟩
  · obtain rfl : j = 0 := by omega
    exact congrArg some hbyte.symm

theorem failed_copy_tears_block : ∃ s t : Sys, HoleFree tinySb s ∧ InSlot s tinySlot 1 ∧
    s.contents 1 = [1, 2] ∧ (s.evicted fun _ => true).contents 1 = [1, 2] ∧
    (writei tinySb tinySlot (.user lastByte) 0 2).run s = .done t 0 ∧
    t.contents 1 = [9, 2] ∧ (t.evicted fun _ => true).contents 1 = [1, 2] := by
  have hcheck : (noted.any fun x => decide (x.1.contents 1 = [1, 2] ∧
      (x.1.evicted fun _ => true).contents 1 = [1, 2]) && (overwrite lastByte x.1).any fun y =>
        decide (y.2 = 0 ∧ y.1.contents 1 = [9, 2] ∧
          (y.1.evicted fun _ => true).contents 1 = [1, 2])) = true := by decide +kernel
  obtain ⟨x, hx, hcheck⟩ := (Option.any_eq_true _ _).mp hcheck
  obtain ⟨hbefore, hafter⟩ := (Bool.and_eq_true _ _).mp hcheck
  obtain ⟨y, hy, hafter⟩ := (Option.any_eq_true _ _).mp hafter
  obtain ⟨hcached, hdisk⟩ := of_decide_eq_true hbefore
  obtain ⟨hzero, htorn, hkept⟩ := of_decide_eq_true hafter
  obtain ⟨hfs, hi⟩ := noted_file hx
  have hrun := Res.eq_done hy
  rw [hzero] at hrun
  exact ⟨x.1, y.1, hfs, hi, hcached, hdisk, hrun, htorn, hkept⟩

end Xv6.Fs
