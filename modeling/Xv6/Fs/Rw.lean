import Xv6.Fs.Itrunc
import Xv6.Sysfile
import Mathlib.Data.List.Basic
import Mathlib.Data.List.TakeWhile

namespace Xv6.Fs

open Lib

-- Byte k of a file with the given blocks.
def byteOf (c : Nat → Block) (k : Nat) : UInt8 := (c (k / BSIZE)).byte (k % BSIZE)

theorem eq_of_byteOf {c c' : Nat → Block} (h : ∀ k, byteOf c k = byteOf c' k) : c = c' := by
  funext bn j
  have hk := h (bn * BSIZE + j)
  have hdiv : (bn * BSIZE + j) / BSIZE = bn := by
    rw [Nat.mul_comm, Nat.mul_add_div (by decide), Nat.div_eq_of_lt j.isLt, Nat.add_zero]
  have hmod : (bn * BSIZE + j) % BSIZE = j := by
    rw [Nat.mul_comm, Nat.mul_add_mod, Nat.mod_eq_of_lt j.isLt]
  unfold byteOf at hk
  rw [hdiv, hmod] at hk
  simpa [Block.byte] using hk

-- The n bytes from byte off on.
def bytesOf (c : Nat → Block) (off n : Nat) : List UInt8 :=
  (List.range n).map fun j => byteOf c (off + j)

@[simp] theorem length_bytesOf (c : Nat → Block) (off n : Nat) : (bytesOf c off n).length = n := by
  simp [bytesOf]

theorem bytesOf_append (c : Nat → Block) (off m n : Nat) :
    bytesOf c off m ++ bytesOf c (off + m) n = bytesOf c off (m + n) := by
  unfold bytesOf
  rw [List.range_add, List.map_append, List.map_map]
  simp [Function.comp_def, Nat.add_assoc]

theorem div_of_block (off j : Nat) (h : off % BSIZE + j < BSIZE) :
    (off + j) / BSIZE = off / BSIZE ∧ (off + j) % BSIZE = off % BSIZE + j := by
  unfold BSIZE at *
  omega

theorem slice_eq_bytesOf {c : Nat → Block} {off m : Nat} (h : off % BSIZE + m ≤ BSIZE) :
    (c (off / BSIZE)).slice (off % BSIZE) m = bytesOf c off m := by
  unfold Block.slice bytesOf byteOf
  refine List.map_congr_left fun j hj => ?_
  rw [List.mem_range] at hj
  obtain ⟨hdiv, hmod⟩ := div_of_block off j (by omega)
  rw [hdiv, hmod]

theorem byte_splice (b : Block) {off : Nat} {bs : List UInt8} (h : off + bs.length ≤ BSIZE)
    (k : Nat) : (b.splice off bs).byte k =
      if off ≤ k ∧ k < off + bs.length then bs[k - off]?.getD 0 else b.byte k := by
  grind [Block.byte, Block.splice]

theorem byteOf_splice (c : Nat → Block) {off : Nat} {bs : List UInt8}
    (h : off % BSIZE + bs.length ≤ BSIZE) (k : Nat) :
    byteOf (Function.update c (off / BSIZE) ((c (off / BSIZE)).splice (off % BSIZE) bs)) k =
      if off ≤ k ∧ k < off + bs.length then bs[k - off]?.getD 0 else byteOf c k := by
  unfold byteOf
  by_cases hk : k / BSIZE = off / BSIZE
  · rw [hk, Function.update_self, byte_splice _ h]
    have hoff := Nat.div_add_mod off BSIZE
    have hkd := Nat.div_add_mod k BSIZE
    rw [hk] at hkd
    have hsub : k % BSIZE - off % BSIZE = k - off := by omega
    have hiff : (off % BSIZE ≤ k % BSIZE ∧ k % BSIZE < off % BSIZE + bs.length) ↔
        (off ≤ k ∧ k < off + bs.length) := by omega
    rw [hsub]
    simp only [hiff]
  · rw [Function.update_of_ne hk]
    rw [if_neg]
    rintro ⟨hle, hlt⟩
    have hin := div_of_block off (k - off) (by omega)
    rw [Nat.add_sub_cancel' hle] at hin
    exact hk hin.1

variable {sb : Superblock} {exact : Prop} {C : Spec Sys Label} {s₀ s t : Sys} {i : Slot}
  {v v₀ : Nat → Dinode}

theorem chunks_succ {fuel off n : Nat} (h : n ≠ 0) : chunks (fuel + 1) off n =
    (off, min n (BSIZE - off % BSIZE)) ::
      chunks fuel (off + min n (BSIZE - off % BSIZE)) (n - min n (BSIZE - off % BSIZE)) := by
  rw [chunks, if_neg h]

theorem chunks_zero (fuel off : Nat) : chunks fuel off 0 = [] := by
  cases fuel with
  | zero => rfl
  | succ fuel => rw [chunks, if_pos rfl]

theorem round_bound (off : Nat) {n : Nat} (h : n ≠ 0) : 0 < min n (BSIZE - off % BSIZE) ∧
    min n (BSIZE - off % BSIZE) ≤ n ∧ off % BSIZE + min n (BSIZE - off % BSIZE) ≤ BSIZE := by
  have hlt : off % BSIZE < BSIZE := Nat.mod_lt _ (by decide)
  omega

section Readi

variable {dst : Dst}

-- What is read, where every copy succeeds.
theorem wp_readiLoop (hlook : C.must .look s) {fuel off n : Nat} (hfuel : n ≤ fuel)
    (hmap : ∀ bn, bn * BSIZE < off + n → blockAt s.data (s.inode i).toDinode bn ≠ 0)
    (got : List UInt8) :
    C.Wp (fun r t => t = s ∧ ((∀ tot m, dst tot m = true) →
      r = (((got.length + n : Nat) : Int), got ++ bytesOf (content s.data (s.inode i).toDinode) off n)))
      (readiLoop sb i dst got (chunks fuel off n)) s := by
  induction fuel generalizing off n got with
  | zero =>
    have hn : n = 0 := by omega
    subst hn
    exact ⟨rfl, fun _ => by simp [bytesOf]⟩
  | succ fuel ih =>
    by_cases hn : n = 0
    · subst hn
      rw [chunks_zero]
      exact ⟨rfl, fun _ => by simp [bytesOf]⟩
    · rw [chunks_succ hn]
      obtain ⟨hpos, hle, hin⟩ := round_bound off hn
      generalize min n (BSIZE - off % BSIZE) = m at *
      have hoff : off / BSIZE * BSIZE < off + n := by
        have := Nat.div_mul_le_self off BSIZE
        omega
      have hblock := hmap (off / BSIZE) hoff
      refine .bind (wp_bmap_mapped hlook hblock) fun b t hbt => ?_
      obtain ⟨rfl, rfl⟩ := hbt
      rw [if_neg hblock]
      refine .look_bind fun _ => ⟨hlook, ?_⟩
      split
      · have hrest : n - m ≤ fuel := by omega
        refine (ih hrest (fun bn hbn => hmap bn (by omega)) _).mono fun r u hu =>
          ⟨hu.1, fun hdst => (hu.2 hdst).trans ?_⟩
        rw [← content_of_block hblock, slice_eq_bytesOf hin]
        have hsum := bytesOf_append (content t.data (t.inode i).toDinode) off m (n - m)
        simp_all
      · rename_i hdst
        exact ⟨rfl, fun hall => absurd (hall _ _) hdst⟩

theorem wp_readi {off n : Nat} (hread : C.must (.readi i off n) s) (hlook : C.must .look s)
    (hmap : Mapped s.data (s.inode i).toDinode) :
    C.Wp (fun r t => t = s ∧ ((∀ tot m, dst tot m = true) →
      r = if (s.inode i).size < off ∨ (off + n) % 2 ^ 32 < off then (0, [])
        else (((min n ((s.inode i).size - off) : Nat) : Int),
          bytesOf (content s.data (s.inode i).toDinode) off
            (min n ((s.inode i).size - off))))) (readi sb i dst off n) s := by
  refine .look_bind fun _ => ⟨hread, ?_⟩
  split
  · exact ⟨rfl, fun _ => rfl⟩
  · rename_i hcond
    have hmin : (if (s.inode i).size < off + n then (s.inode i).size - off else n) =
        min n ((s.inode i).size - off) := by
      split <;> omega
    rw [hmin]
    refine (wp_readiLoop hlook (Nat.le_refl _) (fun bn hbn => hmap bn ?_) []).mono fun r t ht =>
      ⟨ht.1, fun hdst => (ht.2 hdst).trans ?_⟩
    · have hle : off + min n ((s.inode i).size - off) ≤ (s.inode i).size := by omega
      exact Nat.lt_of_lt_of_le hbn hle
    · simp

end Readi

-- writei() of bs at off has written tot bytes. With good, every copy from the
-- source succeeds.
structure Written (sb : Superblock) (exact : Prop) (i : Slot) (v₀ : Nat → Dinode) (s₀ : Sys)
    (off : Nat) (bs : List UInt8) (good : Prop) (tot : Nat) (v : Nat → Dinode) (s : Sys) :
    Prop where
  same : SameBut i s₀ s
  dinode : s.dinode = s₀.dinode
  size : (s.inode i).size = (s₀.inode i).size
  view : v = Function.update v₀ (s₀.inode i).inum (s.inode i).toDinode
  blocks : Blocks sb exact v [] s
  other : ∀ m, m ≠ (s₀.inode i).inum → nodes v s.data m = nodes v₀ s₀.data m
  mapped : ∀ k, off ≤ k → k < off + tot → blockAt s.data (v (s₀.inode i).inum) (k / BSIZE) ≠ 0
  bytes : good → ∀ k, byteOf (content s.data (v (s₀.inode i).inum)) k =
    if off ≤ k ∧ k < off + tot then bs[k - off]?.getD 0
    else byteOf (content s₀.data (v₀ (s₀.inode i).inum)) k

-- writei() of bs at off has come to its end after tot of n bytes.
structure Wrote (sb : Superblock) (exact : Prop) (i : Slot) (v₀ : Nat → Dinode) (s₀ : Sys)
    (off : Nat) (bs : List UInt8) (good : Prop) (n tot : Nat) (t : Sys) : Prop where
  same : SameBut i s₀ t
  le : tot ≤ n
  size : (t.inode i).size = max (s₀.inode i).size (off + tot)
  dinode : t.dinode = Function.update s₀.dinode (s₀.inode i).inum (t.inode i).toDinode
  blocks : Blocks sb exact (Function.update v₀ (s₀.inode i).inum (t.inode i).toDinode) [] t
  other : ∀ m, m ≠ (s₀.inode i).inum → node t.data (v₀ m) = node s₀.data (v₀ m)
  bytes : good → ∀ k, byteOf (content t.data (t.inode i).toDinode) k =
    if off ≤ k ∧ k < off + tot then bs[k - off]?.getD 0
    else byteOf (content s₀.data (v₀ (s₀.inode i).inum)) k
  full : good → tot < n → Full sb t

-- A byte of the source that can be copied.
def Src.mapped : Src → Nat → Prop
  | .kernel bs, j => j < bs.length
  | .user mem, j => (mem j).isSome = true

theorem length_takeWhile_some {l : List (Option UInt8)}
    (h : ((l.takeWhile Option.isSome).filterMap id).length = l.length) :
    ∀ x ∈ l, x.isSome = true := by
  grind [List.length_filterMap_le, List.takeWhile_sublist, List.Sublist.eq_of_length_le, List.takeWhile_eq_self_iff]

theorem Src.mapped_of_copyin {src : Src} {tot m : Nat} (h : (src.copyin tot m).length = m)
    {j : Nat} (hj : j < m) : src.mapped (tot + j) := by
  cases src with
  | kernel bs =>
    simp only [Src.copyin, List.length_take, List.length_drop] at h
    show tot + j < bs.length
    omega
  | user mem =>
    have hall := length_takeWhile_some (l := (List.range m).map fun j => mem (tot + j))
      (by rw [List.length_map, List.length_range]; exact h)
    exact hall _ (List.mem_map.mpr ⟨j, List.mem_range.mpr hj, rfl⟩)

-- The bytes of user space from x.1 on, x.2 of them. A byte that is unmapped counts as 0.
def chunkBytes (mem : Nat → Option UInt8) (x : Nat × Nat) : List UInt8 :=
  (List.range x.2).map fun j => (mem (x.1 + j)).getD 0

theorem length_chunkBytes (mem : Nat → Option UInt8) (x : Nat × Nat) :
    (chunkBytes mem x).length = x.2 := by
  simp [chunkBytes]

section Writei

variable {off n tot : Nat} {bs : List UInt8} {good : Prop} {src : Src}

theorem Written.start (hview : v (s.inode i).inum = (s.inode i).toDinode)
    (h : Blocks sb exact v [] s) : Written sb exact i v s off bs good 0 v s := by
  refine ⟨.refl i s, rfl, rfl, ?_, h, fun _ _ => rfl, fun k hle hlt => by omega, fun _ k => ?_⟩
  · grind
  · rw [if_neg (by omega)]

theorem content_of_nodes {n : Nat} {data data' : Nat → Block} {v' : Nat → Dinode}
    (h : nodes v' data' = nodes v data) (ht : (v n).type ≠ .free) :
    content data' (v' n) = content data (v n) := by
  have hn : node data' (v' n) = node data (v n) := congrFun h n
  have ht' : (v' n).type ≠ .free := by
    grind [node_type]
  rw [node_of_alloc ht, node_of_alloc ht'] at hn
  exact congrArg Node.content hn

namespace Written

theorem type (h : Written sb exact i v₀ s₀ off bs good tot v s) :
    (s.inode i).type = (s₀.inode i).type := by
  rw [h.same.self]

theorem view_self (h : Written sb exact i v₀ s₀ off bs good tot v s) :
    v (s₀.inode i).inum = (s.inode i).toDinode := by
  rw [h.view, Function.update_self]

theorem grown {v' : Nat → Dinode} (h : Written sb exact i v₀ s₀ off bs good tot v s)
    (htype : (s₀.inode i).type ≠ .free) (hg : Grown sb exact i v s v' t) :
    Written sb exact i v₀ s₀ off bs good tot v' t := by
  have hn : (v (s₀.inode i).inum).type ≠ .free := by
    rw [h.view_self, h.type]
    exact htype
  refine ⟨h.same.trans hg.same, hg.dinode.trans h.dinode, hg.size.trans h.size, ?_, hg.blocks,
    fun m hm => ?_, fun k hle hlt => ?_, fun hgood k => ?_⟩
  · rw [hg.view, h.view, h.same.inum, Function.update_idem]
  · rw [hg.nodes]
    exact h.other m hm
  · have hold := h.mapped k hle hlt
    have hgrow := hg.blockAt (k / BSIZE)
    rw [h.same.inum] at hgrow
    rw [hgrow hold]
    exact hold
  · rw [content_of_nodes hg.nodes hn]
    exact h.bytes hgood k

-- One round, logged or not, of which tot' bytes count.
theorem round {b m tot' : Nat} {cs : List UInt8}
    (h : Written sb exact i v₀ s₀ off bs good tot v s) (htype : (s₀.inode i).type ≠ .free)
    (hb : blockAt s.data (v (s₀.inode i).inum) ((off + tot) / BSIZE) = b) (hb0 : b ≠ 0)
    (hin : (off + tot) % BSIZE + m ≤ BSIZE)
    (ht : t = { s with data := t.data, home := t.home })
    (hdata : t.data = Function.update s.data b ((s.data b).splice ((off + tot) % BSIZE) cs))
    (hhome : ∀ c, c ≠ b → t.home c = s.home c) (htot : tot' ≤ tot + m)
    (hgood : good → tot' = tot + m ∧ cs = (bs.drop tot).take m ∧ cs.length = m) :
    Written sb exact i v₀ s₀ off bs good tot' v t := by
  have hn : (v (s₀.inode i).inum).type ≠ .free := by
    rw [h.view_self, h.type]
    exact htype
  have hinode : t.inode = s.inode := by rw [ht]
  have hbitmap : t.bitmap = s.bitmap := by rw [ht]
  have hdinode : t.dinode = s.dinode := by rw [ht]
  have hsame : SameBut i s t :=
    .of_inode (by rw [ht]) (by rw [ht]) (by rw [ht]) (by rw [ht]) hinode hdinode
  have hnodes := h.blocks.nodes_write hn hb hb0 ((s.data b).splice ((off + tot) % BSIZE) cs)
  have hblocks := h.blocks.write hn hb hb0 _ hbitmap hdata hhome
  refine ⟨h.same.trans hsame, hdinode.trans h.dinode, by rw [hinode, h.size], by rw [hinode, h.view],
    hblocks, fun k hk => ?_, fun k hle hlt => ?_, fun hg k => ?_⟩
  · rw [hdata, hnodes, Function.update_of_ne hk]
    exact h.other k hk
  · rw [hdata, blockAt_update _ _ (h.blocks.indirect_ne hn hb hb0 hn)]
    by_cases hk : k < off + tot
    · exact h.mapped k hle hk
    · have hdiv := div_of_block (off + tot) (k - (off + tot)) (by omega)
      rw [Nat.add_sub_cancel' (by omega)] at hdiv
      rw [hdiv.1, hb]
      exact hb0
  · obtain ⟨rfl, hcs', hlen⟩ := hgood hg
    have hcontent : content t.data (v (s₀.inode i).inum) =
        Function.update (content s.data (v (s₀.inode i).inum)) ((off + tot) / BSIZE)
          ((content s.data (v (s₀.inode i).inum) ((off + tot) / BSIZE)).splice
            ((off + tot) % BSIZE) cs) := by
      have hnode := congrFun hnodes (s₀.inode i).inum
      rw [Function.update_self, ← hdata] at hnode
      have hcont := congrArg Node.content hnode
      unfold nodes at hcont
      rw [node_of_alloc hn] at hcont
      rw [content_of_block (by rw [hb]; exact hb0), hb]
      exact hcont
    rw [hcontent, byteOf_splice _ (by omega), h.bytes hg k]
    by_cases hk : off + tot ≤ k ∧ k < off + tot + cs.length
    · rw [if_pos hk, if_pos (by omega), hcs', List.getElem?_take, List.getElem?_drop,
        if_pos (by omega)]
      have hidx : tot + (k - (off + tot)) = k - off := by omega
      rw [hidx]
    · rw [if_neg hk]
      by_cases hk' : off ≤ k ∧ k < off + tot
      · rw [if_pos hk', if_pos (by omega)]
      · rw [if_neg hk', if_neg (by omega)]

theorem growing (h : Written sb exact i v₀ s₀ off bs good tot v s) :
    Growing sb exact i v₀ s₀ s := by
  refine ⟨h.same, h.dinode, ?_⟩
  rw [← h.view]
  exact h.blocks

-- ip->size and iupdate() after the last round.
theorem finish (h : Written sb exact i v₀ s₀ off bs good tot v s)
    (htype : (s₀.inode i).type ≠ .free) (hoff : off ≤ (s₀.inode i).size) (htot : tot ≤ n)
    (hmax : off + n ≤ MAXFILE * BSIZE) (hfull : good → tot < n → Full sb s)
    (hsame : SameBut i s₀ t) (hdinode : t.dinode = s.dinode) (hbitmap : t.bitmap = s.bitmap)
    (hdata : t.data = s.data) (hhome : t.home = s.home)
    (hmem : (t.inode i).toDinode = (s.inode i).toDinode.resize (max (s.inode i).size (off + tot))) :
    Wrote sb exact i v₀ s₀ off bs good n tot
      (t.setDinode (t.inode i).inum (t.inode i).toDinode) := by
  have hn : (v (s₀.inode i).inum).type ≠ .free := by
    rw [h.view_self, h.type]
    exact htype
  have hmapped := h.blocks.mapped _ hn
  have hsmall := h.blocks.small _ hn
  rw [h.view_self] at hmapped hsmall
  have hgrown : Mapped s.data (t.inode i).toDinode := by
    rw [hmem]
    intro bn hbn
    rw [Dinode.resize_size] at hbn
    by_cases hold : bn * BSIZE < (s.inode i).size
    · exact hmapped bn hold
    · have hsize := h.size
      have hnew := h.mapped (bn * BSIZE) (by omega) (by omega)
      rw [Nat.mul_div_cancel _ (by decide), h.view_self] at hnew
      exact hnew
  have hblocks : Blocks sb exact (Function.update v (s₀.inode i).inum (t.inode i).toDinode) [] s :=
    h.blocks.set (by rw [h.view_self, hmem, Dinode.resize_addrs])
      (by rw [h.view_self, hmem, Dinode.resize_type]) (fun _ => hgrown) fun _ => by
        rw [hmem, Dinode.resize_size]
        omega
  rw [h.view, Function.update_idem] at hblocks
  have hcontent : content s.data (t.inode i).toDinode = content s.data (s.inode i).toDinode :=
    content_addrs (by rw [hmem, Dinode.resize_addrs])
  refine ⟨hsame.trans (.iupdate i t), htot, ?_, ?_, hblocks.congr hbitmap hdata hhome,
    fun m hm => ?_, fun hgood k => ?_, fun hgood hlt b hb => ?_⟩
  · exact (congrArg Dinode.size hmem).trans (by rw [Dinode.resize_size, h.size])
  · rw [← h.dinode, ← hdinode, ← hsame.inum]
    rfl
  · have hother := h.other m hm
    rw [h.view, nodes, nodes, Function.update_of_ne hm, ← hdata] at hother
    exact hother
  · have hbytes := h.bytes hgood k
    rw [h.view_self, ← hcontent, ← hdata] at hbytes
    exact hbytes
  · rw [← hfull hgood hlt b hb, ← hbitmap]
    rfl

end Written

section Specs

variable (hC : ∀ lbl t, lbl.block i = true → SameBut i s₀ t → C.must lbl t)
  (hB : ∀ c t, Growing sb exact i v₀ s₀ t → C.must (.balloc c) t)
  (htype : (s₀.inode i).type ≠ .free)
  (hsrc : good → ∀ tot m, tot + m ≤ n → src.copyin tot m = (bs.drop tot).take m ∧
    (src.copyin tot m).length = m)

include hC hB htype hsrc

theorem wp_writeiLoop {fuel : Nat} (hfuel : n - tot ≤ fuel) (hmax : off + n ≤ MAXFILE * BSIZE)
    (htot : tot ≤ n) (h : Written sb exact i v₀ s₀ off bs good tot v s)
    (hmapped : ∀ j, j < tot → src.mapped j) :
    C.Wp (fun tot' t => tot' ≤ n ∧ (∀ j, j < tot' → src.mapped j) ∧
      ∃ v', Written sb exact i v₀ s₀ off bs good tot' v' t ∧
      (good → tot' < n → Full sb t)) (writeiLoop sb i src tot (chunks fuel (off + tot) (n - tot)))
      s := by
  induction fuel generalizing tot v s with
  | zero => exact ⟨htot, hmapped, v, h, fun _ hlt => by omega⟩
  | succ fuel ih =>
    by_cases hn : n - tot = 0
    · rw [hn, chunks_zero]
      exact ⟨htot, hmapped, v, h, fun _ hlt => by omega⟩
    · rw [chunks_succ hn]
      obtain ⟨hpos, hle, hin⟩ := round_bound (off + tot) hn
      generalize min (n - tot) (BSIZE - (off + tot) % BSIZE) = m at *
      have hbn : (off + tot) / BSIZE < MAXFILE := by
        rw [Nat.div_lt_iff_lt_mul (by decide)]
        omega
      have hty : (s.inode i).type ≠ .free := by
        rw [h.type]
        exact htype
      refine .bind (wp_bmap hC hB h.growing h.view hty hbn) fun b t hbt => ?_
      obtain ⟨v', hgrown, hzero, hblock⟩ := hbt
      have hw := h.grown htype hgrown
      split
      · rename_i hb
        exact ⟨htot, hmapped, v', hw, fun _ _ => (hzero hb).2⟩
      · rename_i hb
        have hat : blockAt t.data (v' (s₀.inode i).inum) ((off + tot) / BSIZE) = b := by
          rw [← h.same.inum]
          exact hblock hb
        dsimp only
        split
        · rename_i hlen
          have hlbl : (src.label i (off + tot) (src.copyin tot m)).block i = true := by
            cases src <;> rfl
          refine .modify_bind fun _ => ⟨hC _ t hlbl hw.same, ?_⟩
          have hround : Written sb exact i v₀ s₀ off bs good (tot + m) v' (t.setBlock b
              ((t.data b).splice ((off + tot) % BSIZE) (src.copyin tot m))) :=
            hw.round htype hat hb hin rfl rfl (fun c hc => Function.update_of_ne hc _ _)
              (Nat.le_refl _) fun hgood => ⟨rfl, (hsrc hgood tot m (by omega)).1, hlen⟩
          have hmapped' : ∀ j, j < tot + m → src.mapped j := by
            intro j hj
            by_cases hlt : j < tot
            · exact hmapped j hlt
            · have hcopied := Src.mapped_of_copyin hlen (j := j - tot) (by omega)
              rwa [Nat.add_sub_cancel' (Nat.le_of_not_lt hlt)] at hcopied
          have hnext := ih (by omega) (by omega) hround hmapped'
          rw [← Nat.add_assoc, ← Nat.sub_sub] at hnext
          exact hnext
        · rename_i hlen
          refine .modify_bind fun _ => ⟨hC _ t rfl hw.same, htot, hmapped, v', ?_,
            fun hgood => ?_⟩
          · exact hw.round htype hat hb hin rfl rfl (fun c hc => rfl) (Nat.le_add_right _ _)
              fun hgood => absurd (hsrc hgood tot m (by omega)).2 hlen
          · exact absurd (hsrc hgood tot m (by omega)).2 hlen

omit hB htype hsrc in
theorem wp_resize (htype : (s₀.inode i).type ≠ .free) (hoff : off ≤ (s₀.inode i).size)
    (hmax : off + n ≤ MAXFILE * BSIZE) (htot : tot ≤ n)
    (h : Written sb exact i v₀ s₀ off bs good tot v s) (hfull : good → tot < n → Full sb s) :
    C.Wp (fun (r : Int) t => r = tot ∧ Resized C i s₀ ∧ Wrote sb exact i v₀ s₀ off bs good n tot t)
      (do
        .modify (.size i) fun s => s.setInode i fun ip => { ip with size := max ip.size (off + tot) }
        iupdate i
        pure (tot : Int)) s := by
  refine .modify_bind fun hok => ⟨hC _ s (decide_eq_true rfl) h.same, ?_⟩
  have hsame := h.same.trans (.setSize i (fun x => max x (off + tot)) s)
  refine .modify_bind fun _ => ⟨hC _ _ rfl hsame, rfl, ⟨s, h.same, hok⟩, ?_⟩
  refine h.finish htype hoff htot hmax hfull hsame rfl rfl rfl rfl ?_
  rw [Sys.setInode_self]
  rfl

theorem wp_writei (hview : v₀ (s₀.inode i).inum = (s₀.inode i).toDinode)
    (h : Blocks sb exact v₀ [] s₀) :
    C.Wp (fun (r : Int) t =>
      if (s₀.inode i).size < off ∨ (off + n) % 2 ^ 32 < off ∨ MAXFILE * BSIZE < off + n then
        r = -1 ∧ t = s₀
      else Resized C i s₀ ∧ ∃ tot : Nat, r = tot ∧ (∀ j, j < tot → src.mapped j) ∧
        Wrote sb exact i v₀ s₀ off bs good n tot t)
      (writei sb i src off n) s₀ := by
  refine .look_bind fun _ => ⟨hC _ s₀ rfl (.refl i s₀), ?_⟩
  by_cases hcond : (s₀.inode i).size < off ∨ (off + n) % 2 ^ 32 < off
  · rw [if_pos hcond]
    simp only [if_pos (show _ ∨ _ ∨ _ from or_assoc.mp (.inl hcond))]
    exact ⟨rfl, rfl⟩
  · rw [if_neg hcond]
    by_cases hmax : MAXFILE * BSIZE < off + n
    · rw [if_pos hmax]
      simp only [if_pos (show _ ∨ _ ∨ _ from .inr (.inr hmax))]
      exact ⟨rfl, rfl⟩
    · rw [if_neg hmax]
      have hnot : ¬ ((s₀.inode i).size < off ∨ (off + n) % 2 ^ 32 < off ∨
          MAXFILE * BSIZE < off + n) := fun hor => (or_assoc.mpr hor).elim hcond hmax
      simp only [if_neg hnot]
      have hoff : off ≤ (s₀.inode i).size := Nat.le_of_not_lt fun hlt => hcond (.inl hlt)
      have hle : off + n ≤ MAXFILE * BSIZE := Nat.le_of_not_lt hmax
      have hstart : Written sb exact i v₀ s₀ off bs good 0 v₀ s₀ := .start hview h
      refine .bind (wp_writeiLoop hC hB htype hsrc (Nat.le_refl _) hle (Nat.zero_le n) hstart
        fun j hj => absurd hj (Nat.not_lt_zero j)) fun tot t ht => ?_
      obtain ⟨htot, hmapped, v, hwritten, hfull⟩ := ht
      refine (wp_resize hC htype hoff hle htot hwritten hfull).mono fun r u hu => ?_
      exact ⟨hu.2.1, tot, hu.1, hmapped, hu.2.2⟩

end Specs

end Writei

-- The bytes of inode n.
def Sys.contents (s : Sys) (n : Nat) : List UInt8 :=
  bytesOf (content s.data (s.dinode n)) 0 (s.dinode n).size

@[simp] theorem length_contents (s : Sys) (n : Nat) : (s.contents n).length = (s.dinode n).size :=
  length_bytesOf ..

-- bs in place of the bytes of l from off on.
def patch (l : List UInt8) (off : Nat) (bs : List UInt8) : List UInt8 :=
  l.take off ++ bs ++ l.drop (off + bs.length)

theorem patch_length (l bs : List UInt8) : patch l l.length bs = l ++ bs := by
  simp [patch]

theorem length_patch {l bs : List UInt8} {off : Nat} (h : off ≤ l.length) :
    (patch l off bs).length = max l.length (off + bs.length) := by
  simp only [patch, List.length_append, List.length_take, List.length_drop]
  omega

theorem getElem?_bytesOf (c : Nat → Block) (off n k : Nat) :
    (bytesOf c off n)[k]? = if k < n then some (byteOf c (off + k)) else none := by
  unfold bytesOf
  rw [List.getElem?_map]
  by_cases hk : k < n
  · simp [hk]
  · simp [hk]

theorem drop_take_bytesOf (c : Nat → Block) {off n size : Nat} (h : off ≤ size) :
    ((bytesOf c 0 size).drop off).take n = bytesOf c off (min n (size - off)) := by
  refine List.ext_getElem? fun k => ?_
  rw [List.getElem?_take, List.getElem?_drop, getElem?_bytesOf, getElem?_bytesOf]
  by_cases hk : k < n
  · by_cases hs : off + k < size
    · simp [hk, hs, show k < size - off by omega]
    · simp [hk, hs, show ¬ k < size - off by omega]
  · simp [hk]

theorem getElem?_patch (c : Nat → Block) {off size : Nat} {bs : List UInt8} (hoff : off ≤ size)
    (k : Nat) : (patch (bytesOf c 0 size) off bs)[k]? =
      if k < max size (off + bs.length) then
        some (if off ≤ k ∧ k < off + bs.length then bs[k - off]?.getD 0 else byteOf c k)
      else none := by
  have htake : ((bytesOf c 0 size).take off).length = off := by simp [hoff]
  unfold patch
  rw [List.append_assoc]
  by_cases hlow : k < off
  · rw [List.getElem?_append_left (by omega), List.getElem?_take, if_pos hlow, getElem?_bytesOf,
      if_pos (by omega), if_pos (by omega), if_neg (by omega), Nat.zero_add]
  · rw [List.getElem?_append_right (by omega), htake]
    by_cases hmid : k < off + bs.length
    · have hget : k - off < bs.length := by omega
      rw [List.getElem?_append_left hget, if_pos (by omega), if_pos (by omega),
        List.getElem?_eq_getElem hget, Option.getD_some]
    · rw [List.getElem?_append_right (by omega), List.getElem?_drop, getElem?_bytesOf]
      grind

theorem bytesOf_patch {c c' : Nat → Block} {off size : Nat} {bs : List UInt8} (hoff : off ≤ size)
    (h : ∀ k, byteOf c' k =
      if off ≤ k ∧ k < off + bs.length then bs[k - off]?.getD 0 else byteOf c k) :
    bytesOf c' 0 (max size (off + bs.length)) = patch (bytesOf c 0 size) off bs := by
  refine List.ext_getElem? fun k => ?_
  rw [getElem?_bytesOf, Nat.zero_add, h k, getElem?_patch c hoff]

-- A file system without holes, where blocks may be leaked.
abbrev HoleFree (sb : Superblock) (s : Sys) : Prop := Blocks sb False s.dinode [] s

-- Slot i has the allocated inode n.
structure InSlot (s : Sys) (i : Slot) (n : Nat) : Prop where
  inum : (s.inode i).inum = n
  same : (s.inode i).toDinode = s.dinode n
  type : (s.dinode n).type ≠ .free

-- No other inode differs, and of inode n only the bytes.
structure Edited (sb : Superblock) (i : Slot) (n : Nat) (s t : Sys) : Prop where
  same : SameBut i s t
  holeFree : HoleFree sb t
  inSlot : InSlot t i n
  self : t.dinode n = { s.dinode n with size := (t.dinode n).size, addrs := (t.dinode n).addrs }
  other : ∀ m, m ≠ n → t.dinode m = s.dinode m
  contents : ∀ m, m ≠ n → (s.dinode m).type ≠ .free → t.contents m = s.contents m

theorem Edited.of_same {n : Nat} (hi : InSlot s i n) (hsame : SameBut i s t) (hblocks : HoleFree sb t)
    (hdinode : t.dinode = Function.update s.dinode n (t.inode i).toDinode)
    (hother : ∀ m, m ≠ n → (s.dinode m).type ≠ .free →
      content t.data (s.dinode m) = content s.data (s.dinode m)) : Edited sb i n s t := by
  have hn : t.dinode n = (t.inode i).toDinode := by rw [hdinode, Function.update_self]
  have hm : ∀ m, m ≠ n → t.dinode m = s.dinode m := fun m hmn => by
    rw [hdinode, Function.update_of_ne hmn]
  have hself : t.dinode n =
      { s.dinode n with size := (t.dinode n).size, addrs := (t.dinode n).addrs } := by
    rw [hn, ← hi.same]
    exact congrArg Inode.toDinode hsame.self
  refine ⟨hsame, hblocks, ⟨hsame.inum.trans hi.inum, hn.symm, ?_⟩, hself, hm, fun m hmn ht => ?_⟩
  · rw [hself]
    exact hi.type
  · rw [Sys.contents, Sys.contents, hm m hmn, hother m hmn ht]

namespace Wrote

variable {n off len tot : Nat} {bs : List UInt8} {good : Prop}

theorem dinode_self (hw : Wrote sb exact i s.dinode s off bs good len tot t) (hi : InSlot s i n) :
    t.dinode n = (t.inode i).toDinode := by
  rw [hw.dinode, hi.inum, Function.update_self]

theorem blocks_self (hw : Wrote sb exact i s.dinode s off bs good len tot t) :
    Blocks sb exact t.dinode [] t := by
  rw [hw.dinode]
  exact hw.blocks

theorem content_other (hw : Wrote sb exact i s.dinode s off bs good len tot t) (hi : InSlot s i n)
    {m : Nat} (hm : m ≠ n) (ht : (s.dinode m).type ≠ .free) :
    content t.data (s.dinode m) = content s.data (s.dinode m) := by
  have hother := hw.other m (by rwa [hi.inum])
  rw [node_of_alloc ht, node_of_alloc ht] at hother
  exact congrArg Node.content hother

theorem contents (hw : Wrote sb exact i s.dinode s off bs True len tot t) (hi : InSlot s i n)
    (hlen : len ≤ bs.length) (hoff : off ≤ (s.dinode n).size) :
    t.contents n = patch (s.contents n) off (bs.take tot) := by
  have hn := hw.dinode_self hi
  have hbytes := hw.bytes trivial
  have hsize := hw.size
  rw [hi.inum, ← hn] at hbytes
  have hlen' : (bs.take tot).length = tot := by
    have := hw.le
    simp [List.length_take]
    omega
  have hbyte : ∀ k, byteOf (content t.data (t.dinode n)) k =
      if off ≤ k ∧ k < off + (bs.take tot).length then (bs.take tot)[k - off]?.getD 0
      else byteOf (content s.data (s.dinode n)) k := by
    grind
  have hpatch := bytesOf_patch hoff hbyte
  rw [hlen', ← hi.same, ← hsize, ← congrArg Dinode.size hn] at hpatch
  rw [Sys.contents, hpatch, Sys.contents, hi.same]

theorem edited (hw : Wrote sb False i s.dinode s off bs good len tot t) (hi : InSlot s i n) :
    Edited sb i n s t := by
  refine .of_same hi hw.same hw.blocks_self ?_ fun m hm ht => hw.content_other hi hm ht
  rw [hw.dinode, hi.inum]

end Wrote

section Total

variable {n len : Nat} (hfs : HoleFree sb s) (hi : InSlot s i n)

include hfs hi

theorem readi_run {dst : Dst} (hdst : ∀ tot m, dst tot m = true) (off len : Nat)
    (hlen : len < 2 ^ 32) : (readi sb i dst off len).run s =
      .done s (if (s.dinode n).size < off ∨ 2 ^ 32 ≤ off + len then (0, [])
        else (((((s.contents n).drop off).take len).length : Int),
          ((s.contents n).drop off).take len)) := by
  have hmap : Mapped s.data (s.inode i).toDinode := by
    rw [hi.same]
    exact hfs.mapped n hi.type
  have hwp : (Spec.total Sys Label).Wp _ (readi sb i dst off len) s :=
    wp_readi trivial trivial hmap
  obtain ⟨t, r, hrun, rfl, hr⟩ := hwp.returns
  grind [InSlot.same, drop_take_bytesOf, length_bytesOf, Sys.contents]

theorem writei_returns (src : Src) (off len : Nat) :
    ∃ t r, (writei sb i src off len).run s = .done t r ∧
      if (s.dinode n).size < off ∨ (off + len) % 2 ^ 32 < off ∨ MAXFILE * BSIZE < off + len then
        r = -1 ∧ t = s
      else ∃ tot : Nat, r = tot ∧ (∀ j, j < tot → src.mapped j) ∧
        Wrote sb False i s.dinode s off [] False len tot t := by
  have htype : (s.inode i).type ≠ .free := by
    rw [hi.same]
    exact hi.type
  have hview : s.dinode (s.inode i).inum = (s.inode i).toDinode := by rw [hi.inum, hi.same]
  have hsrc : False → ∀ tot m, tot + m ≤ len → src.copyin tot m =
      (([] : List UInt8).drop tot).take m ∧ (src.copyin tot m).length = m := fun hf => hf.elim
  have hwp : (Spec.total Sys Label).Wp _ (writei sb i src off len) s :=
    wp_writei (fun _ _ _ _ => trivial) (fun _ _ _ => trivial) htype hsrc hview hfs
  obtain ⟨t, r, hrun, hpost⟩ := hwp.returns
  refine ⟨t, r, hrun, ?_⟩
  rw [hi.same] at hpost
  grind

theorem writei_run {src : Src} {bs : List UInt8} (hlen : bs.length = len)
    (hsrc : ∀ tot m, tot + m ≤ len → src.copyin tot m = (bs.drop tot).take m)
    (off : Nat) (hoff : off < 2 ^ 32) (hlen32 : len < 2 ^ 32) :
    if (s.dinode n).size < off ∨ 2 ^ 32 ≤ off + len ∨ MAXFILE * BSIZE < off + len then
      (writei sb i src off len).run s = .done s (-1)
    else ∃ (t : Sys) (tot : Nat), (writei sb i src off len).run s = .done t tot ∧ tot ≤ len ∧
      (tot < len → Full sb t) ∧ t.contents n = patch (s.contents n) off (bs.take tot) ∧
      Edited sb i n s t := by
  have hgood : True → ∀ tot m, tot + m ≤ len → src.copyin tot m = (bs.drop tot).take m ∧
      (src.copyin tot m).length = m := by
    grind
  have htype : (s.inode i).type ≠ .free := by
    rw [hi.same]
    exact hi.type
  have hview : s.dinode (s.inode i).inum = (s.inode i).toDinode := by rw [hi.inum, hi.same]
  have hwp : (Spec.total Sys Label).Wp _ (writei sb i src off len) s :=
    wp_writei (fun _ _ _ _ => trivial) (fun _ _ _ => trivial) htype hgood hview hfs
  obtain ⟨t, r, hrun, hr⟩ := hwp.returns
  have hwrap : (off + len) % 2 ^ 32 < off ↔ 2 ^ 32 ≤ off + len := by omega
  simp only [hwrap, hi.same] at hr
  split
  · grind
  · rename_i hcond
    rw [if_neg hcond] at hr
    obtain ⟨-, tot, rfl, -, hw⟩ := hr
    exact ⟨t, tot, hrun, hw.le, hw.full trivial, hw.contents hi hlen.ge (by omega), hw.edited hi⟩

theorem itrunc_run : ∃ t, (itrunc i).run s = .done t () ∧ t.contents n = [] ∧
    Edited sb i n s t := by
  have htype : (s.inode i).type ≠ .free := by
    rw [hi.same]
    exact hi.type
  have hview : s.dinode (s.inode i).inum = (s.inode i).toDinode := by rw [hi.inum, hi.same]
  have hwp : (Spec.total Sys Label).Wp _ (itrunc i) s :=
    wp_itrunc (fun _ _ _ _ => trivial) hview htype hfs
  obtain ⟨t, _, hrun, hsame, -, hmem, hdinode, hdata, -, hblocks⟩ := hwp.returns
  rw [hi.inum] at hdinode hblocks
  have hn : t.dinode n = (t.inode i).toDinode := by rw [hdinode, Function.update_self]
  refine ⟨t, hrun, ?_, .of_same hi hsame ?_ hdinode fun m _ _ => by rw [hdata]⟩
  · rw [Sys.contents, hn, hmem]
    rfl
  grind

end Total

-- readi(), writei() and itrunc() are operations on the list of bytes of the
-- inode, whichever source and destination have room for every copy. A write is
-- cut short only when the disk is full.
theorem files_are_byte_arrays (sb : Superblock) (s : Sys) (i : Slot) (n off len : Nat)
    (hfs : HoleFree sb s) (hi : InSlot s i n) (hoff : off < 2 ^ 32) (hlen : len < 2 ^ 32) :
    (∀ dst : Dst, (∀ tot m, dst tot m = true) → (readi sb i dst off len).run s =
      .done s (if (s.dinode n).size < off ∨ 2 ^ 32 ≤ off + len then (0, [])
        else (((((s.contents n).drop off).take len).length : Int),
          ((s.contents n).drop off).take len))) ∧
    (∀ (src : Src) (bs : List UInt8), bs.length = len →
      (∀ tot m, tot + m ≤ len → src.copyin tot m = (bs.drop tot).take m) →
      if (s.dinode n).size < off ∨ 2 ^ 32 ≤ off + len ∨ MAXFILE * BSIZE < off + len then
        (writei sb i src off len).run s = .done s (-1)
      else ∃ (t : Sys) (tot : Nat), (writei sb i src off len).run s = .done t tot ∧ tot ≤ len ∧
        (tot < len → Full sb t) ∧ t.contents n = patch (s.contents n) off (bs.take tot) ∧
        Edited sb i n s t) ∧
    ∃ t, (itrunc i).run s = .done t () ∧ t.contents n = [] ∧ Edited sb i n s t :=
  ⟨fun _ hdst => readi_run hfs hi hdst off len hlen,
    fun _ _ hbs hsrc => writei_run hfs hi hbs hsrc off hoff hlen, itrunc_run hfs hi⟩

-- A disk of ten blocks with one empty inode, in the first slot.
def emptyInode (type : InodeType) : Dinode := { Dinode.zero with type := type, nlink := 1 }

theorem ten_lt : 10 < 2 ^ 32 := by decide

def tinySb : Superblock := ⟨10, 2, 3, ten_lt⟩

def tinySlot : Slot := rootSlot

def tinySys (type : InodeType) : Sys where
  dinode := fun n => if n = 1 then emptyInode type else Dinode.zero
  bitmap := fun b => decide (b < 5)
  data := fun _ => Block.zero
  home := fun _ => Block.zero
  inode := fun i =>
    if i = tinySlot then
      { emptyInode type with dev := ROOTDEV, inum := 1, ref := 1, lock := none, valid := true }
    else { Dinode.zero with dev := 0, inum := 0, ref := 0, lock := none, valid := false }
  file := fun _ => ⟨.none, 0, false, false, 0, tinySlot, 0, 0⟩
  pipe := fun _ => none
  proc := fun _ => ⟨false, none, none, fun _ => none⟩
  refs := []

theorem dinode_tinySys (type : InodeType) (n : Nat) :
    ((tinySys type).dinode n).addrs = (fun _ => 0) ∧ ((tinySys type).dinode n).size = 0 := by
  show (if n = 1 then emptyInode type else Dinode.zero).addrs = _ ∧
    (if n = 1 then emptyInode type else Dinode.zero).size = 0
  split <;> exact ⟨rfl, rfl⟩

theorem holeFree_tinySys (type : InodeType) : HoleFree tinySb (tinySys type) := by
  have haddrs : ∀ n k, ((tinySys type).dinode n).addrs k = 0 := fun n k => by
    rw [(dinode_tinySys type n).1]
  have howns : ∀ o b, ¬ Owns (tinySys type).data (tinySys type).dinode o b := by
    rintro ⟨n, x⟩ b ⟨-, hptr, hb⟩
    refine hb (hptr.symm.trans ?_)
    cases x with
    | addr k => exact haddrs n k
    | entry j => exact if_pos (haddrs n indirect)
  refine ⟨⟨fun b hb => ?_, fun o b ho => absurd ho (howns o b), fun o _ b ho => absurd ho (howns o b),
    List.nodup_nil, by simp, fun h => h.elim⟩, fun n _ bn hbn => ?_, fun n _ => ?_,
    fun n _ ha => absurd (haddrs n indirect) ha⟩
  · have hmeta : tinySb.nmeta = 4 := by decide
    rw [hmeta] at hb
    exact decide_eq_true (Nat.lt_succ_of_lt hb)
  · rw [(dinode_tinySys type n).2] at hbn
    exact absurd hbn (Nat.not_lt_zero _)
  · rw [(dinode_tinySys type n).2]
    exact Nat.zero_le _

theorem inSlot_tinySys {type : InodeType} (h : type ≠ .free) : InSlot (tinySys type) tinySlot 1 :=
  ⟨rfl, rfl, h⟩

theorem files_are_byte_arrays_append :
    ∃ (t : Sys) (tot : Nat), (writei tinySb tinySlot (.kernel [7, 8]) 0 2).run (tinySys .file) =
      .done t tot ∧ (tot < 2 → Full tinySb t) ∧ t.contents 1 = [7, 8].take tot := by
  have h := (files_are_byte_arrays tinySb (tinySys .file) tinySlot 1 0 2 (holeFree_tinySys _)
    (inSlot_tinySys (by decide)) (by decide) (by decide)).2.1 (.kernel [7, 8]) [7, 8] rfl
    fun _ _ _ => rfl
  rw [if_neg (by decide)] at h
  obtain ⟨t, tot, hrun, -, hfull, hbytes, -⟩ := h
  have hnone : (tinySys .file).contents 1 = [] := rfl
  rw [hnone, patch, List.take_nil, List.nil_append, List.drop_nil, List.append_nil] at hbytes
  exact ⟨t, tot, hrun, hfull, hbytes⟩

@[simp] theorem length_encode (de : Dirent) : de.encode.length = DIRENT := by
  unfold Dirent.encode DIRENT
  simp [DIRSIZ]

end Xv6.Fs
