import Xv6.Fs.Rw

namespace Xv6.Fs

open Lib

theorem getElem?_known (l : List (Option UInt8)) (j : Nat) (b : UInt8) :
    ((l.takeWhile Option.isSome).filterMap id)[j]? = some b ↔
      (∀ k, k < j → ∃ c, l[k]? = some (some c)) ∧ l[j]? = some (some b) := by
  induction l generalizing j with
  | nil => simp
  | cons x rest ih =>
    cases x with
    | none =>
      rw [List.takeWhile_cons_of_neg (by simp)]
      refine ⟨nofun, fun h => ?_⟩
      cases j with
      | zero => simp at h
      | succ j =>
        obtain ⟨c, hc⟩ := h.1 0 (Nat.succ_pos j)
        simp at hc
    | some x =>
      have hcons : ((some x :: rest).takeWhile Option.isSome).filterMap id =
          x :: (rest.takeWhile Option.isSome).filterMap id := by
        rw [List.takeWhile_cons_of_pos (by simp)]
        rfl
      rw [hcons]
      cases j with
      | zero => simp
      | succ j =>
        rw [List.getElem?_cons_succ, List.getElem?_cons_succ, ih j]
        refine and_congr_left fun _ => ⟨fun h k hk => ?_, fun h k hk => h (k + 1) (by omega)⟩
        cases k with
        | zero => exact ⟨x, rfl⟩
        | succ k => exact h k (by omega)

theorem getElem?_copyin (mem : Nat → Option UInt8) (tot m j : Nat) (b : UInt8) :
    (Src.copyin (.user mem) tot m)[j]? = some b ↔
      j < m ∧ (∀ k, k < j → (mem (tot + k)).isSome = true) ∧ mem (tot + j) = some b := by
  grind [getElem?_known, Option.isSome_iff_exists, Src.copyin]

theorem lt_length_copyin (mem : Nat → Option UInt8) (tot m j : Nat) :
    j < (Src.copyin (.user mem) tot m).length ↔
      j < m ∧ ∀ k, k ≤ j → (mem (tot + k)).isSome = true := by
  constructor
  · intro hj
    obtain ⟨hm, hbefore, hb⟩ := (getElem?_copyin mem tot m j _).mp (List.getElem?_eq_getElem hj)
    grind
  · rintro ⟨hm, hall⟩
    obtain ⟨b, hb⟩ := Option.isSome_iff_exists.mp (hall j (Nat.le_refl j))
    have hget := (getElem?_copyin mem tot m j b).mpr ⟨hm, fun k hk => hall k (Nat.le_of_lt hk), hb⟩
    grind

theorem copyin_eq_take {mem : Nat → Option UInt8} {len tot m : Nat} (h : tot + m ≤ len) :
    Src.copyin (.user mem) tot m =
      ((chunkBytes mem (0, len)).drop tot).take (Src.copyin (.user mem) tot m).length := by
  refine List.ext_getElem? fun j => ?_
  rw [List.getElem?_take, List.getElem?_drop]
  by_cases hj : j < (Src.copyin (.user mem) tot m).length
  · obtain ⟨b, hb⟩ : ∃ b, (Src.copyin (.user mem) tot m)[j]? = some b :=
      ⟨_, List.getElem?_eq_getElem hj⟩
    obtain ⟨hm, -, hmem⟩ := (getElem?_copyin mem tot m j b).mp hb
    grind [chunkBytes]
  grind

variable {sb : Superblock} {s₀ s t : Sys} {i : Slot} {v v₀ : Nat → Dinode} {off len tot bn : Nat}
  {mem : Nat → Option UInt8}

theorem Blocks.blockAt_used {exact : Prop} {L : List Nat} {n : Nat} (h : Blocks sb exact v L s)
    (hn : (v n).type ≠ .free) (hb : blockAt s.data (v n) bn ≠ 0) :
    s.bitmap (blockAt s.data (v n) bn) = true := by
  cases hx : pos bn with
  | none => exact absurd (blockAt_of_none hx) hb
  | some x => exact (h.alloc.owned _ _ (owns_blockAt hn hx rfl hb)).2.2

theorem Blocks.blockAt_inj {exact : Prop} {L : List Nat} {n bn' : Nat} (h : Blocks sb exact v L s)
    (hn : (v n).type ≠ .free) (hb : blockAt s.data (v n) bn ≠ 0)
    (heq : blockAt s.data (v n) bn' = blockAt s.data (v n) bn) : bn' = bn := by
  obtain ⟨x, hx, howner⟩ := h.exists_pos hn rfl hb
  cases hx' : pos bn' with
  | none =>
    grind [blockAt_of_none]
  | some x' =>
    have hsame := howner (n, x') (owns_blockAt hn hx' heq hb)
    cases hsame
    exact pos_inj hx' hx

section Bmap

theorem balloc_kept {b c : Nat} (hc : s.bitmap c = true) (hfree : s.bitmap b = false)
    (blk : Block) : ((s.setBitmap b true).setBlock b blk).data c = s.data c ∧
      ((s.setBitmap b true).setBlock b blk).home c = s.home c ∧
      ((s.setBitmap b true).setBlock b blk).bitmap c = true := by
  have hne : c ≠ b := by
    grind
  exact ⟨Function.update_of_ne hne _ _, Function.update_of_ne hne _ _,
    (Function.update_of_ne hne _ _).trans hc⟩

theorem wp_bmapAddr_kept (k : Fin (NDIRECT + 1)) :
    (Spec.total Sys Label).Wp (fun b t => ∀ c, s.bitmap c = true → t.data c = s.data c ∧
      t.home c = s.home c ∧ t.bitmap c = true ∧ (b = c → (s.inode i).addrs k = c))
      (bmapAddr sb i k) s := by
  refine .look_bind fun _ => ⟨trivial, ?_⟩
  split
  · rename_i hk
    refine .bind (wp_balloc ⟨fun _ => trivial, fun _ => trivial⟩) fun b t hbt => ?_
    rcases hbt with ⟨rfl, rfl, -⟩ | ⟨hfree, -, rfl⟩
    · rw [if_pos rfl]
      exact fun c hc => ⟨rfl, rfl, hc, fun h0 => h0 ▸ hk⟩
    · have hne : ∀ c, s.bitmap c = true → b ≠ c := by
        grind
      have hkept := fun c hc => balloc_kept (c := c) hc hfree Block.zero
      split
      · rename_i hb0
        exact fun c hc => ⟨(hkept c hc).1, (hkept c hc).2.1, (hkept c hc).2.2,
          fun h => absurd (hb0.trans h) (hne c hc)⟩
      · exact .modify_bind fun _ => ⟨trivial, fun c hc => ⟨(hkept c hc).1, (hkept c hc).2.1,
          (hkept c hc).2.2, fun h => absurd h (hne c hc)⟩⟩
  · exact fun c hc => ⟨rfl, rfl, hc, fun h => h⟩

theorem wp_bmapEntry_kept (b k : Nat) :
    (Spec.total Sys Label).Wp (fun _ t => ∀ c, s.bitmap c = true → c ≠ b →
      t.data c = s.data c ∧ t.home c = s.home c) (bmapEntry sb i b k) s := by
  refine .look_bind fun _ => ⟨trivial, ?_⟩
  split
  · refine .bind (wp_balloc ⟨fun _ => trivial, fun _ => trivial⟩) fun a t hat => ?_
    rcases hat with ⟨rfl, rfl, -⟩ | ⟨hfree, -, rfl⟩
    · rw [if_pos rfl]
      exact fun c _ _ => ⟨rfl, rfl⟩
    · have hkept := fun c hc => balloc_kept (c := c) hc hfree Block.zero
      split
      · exact fun c hc _ => ⟨(hkept c hc).1, (hkept c hc).2.1⟩
      · refine .modify_bind fun _ => ⟨trivial, fun c hc hcb => ⟨?_, ?_⟩⟩
        · exact (Function.update_of_ne hcb _ _).trans (hkept c hc).1
        · exact (Function.update_of_ne hcb _ _).trans (hkept c hc).2.1
  · exact fun c _ _ => ⟨rfl, rfl⟩

theorem wp_bmap_kept (hbn : bn < MAXFILE) :
    (Spec.total Sys Label).Wp (fun _ t => ∀ c, s.bitmap c = true →
      (s.inode i).addrs indirect ≠ c → t.data c = s.data c ∧ t.home c = s.home c)
      (bmap sb i bn) s := by
  unfold bmap
  split
  · exact (wp_bmapAddr_kept _).mono fun b t ht c hc _ => ⟨(ht c hc).1, (ht c hc).2.1⟩
  · rename_i hlt
    have hent : bn - NDIRECT < NINDIRECT := by
      unfold MAXFILE at hbn
      omega
    rw [if_pos hent]
    refine .bind (wp_bmapAddr_kept indirect) fun b t ht => ?_
    split
    · exact fun c hc _ => ⟨(ht c hc).1, (ht c hc).2.1⟩
    grind [Spec.Wp.mono, wp_bmapEntry_kept]

end Bmap

-- The blocks that tot bytes from off on are logged with.
def Logged (off tot bn : Nat) : Prop := 0 < tot ∧ off / BSIZE ≤ bn ∧ bn * BSIZE < off + tot

-- A write of bs at off has logged tot bytes, and the more bytes after them are in the
-- buffer only.
structure Short (sb : Superblock) (i : Slot) (v₀ : Nat → Dinode) (s₀ : Sys) (off : Nat)
    (bs : List UInt8) (tot more : Nat) (v : Nat → Dinode) (s : Sys) : Prop where
  written : Written sb False i v₀ s₀ off bs True (tot + more) v s
  stay : ∀ bn, blockAt s₀.data (v₀ (s₀.inode i).inum) bn ≠ 0 →
    blockAt s.data (v (s₀.inode i).inum) bn = blockAt s₀.data (v₀ (s₀.inode i).inum) bn
  logged : ∀ bn, Logged off tot bn → s.home (blockAt s.data (v (s₀.inode i).inum) bn) =
    s.data (blockAt s.data (v (s₀.inode i).inum) bn)
  kept : ∀ bn, ¬ Logged off tot bn → blockAt s₀.data (v₀ (s₀.inode i).inum) bn ≠ 0 →
    s.home (blockAt s₀.data (v₀ (s₀.inode i).inum) bn) =
      s₀.home (blockAt s₀.data (v₀ (s₀.inode i).inum) bn)

namespace Short

variable {bs : List UInt8} {more : Nat}

theorem logged_mapped (h : Short sb i v₀ s₀ off bs tot more v s) (hbn : Logged off tot bn) :
    blockAt s.data (v (s₀.inode i).inum) bn ≠ 0 := by
  obtain ⟨hpos, hle, hlt⟩ := hbn
  by_cases hoff : off ≤ bn * BSIZE
  · have hmapped := h.written.mapped (bn * BSIZE) hoff (by omega)
    rwa [Nat.mul_div_cancel _ (by decide)] at hmapped
  · have heq : off / BSIZE = bn :=
      Nat.le_antisymm hle ((Nat.le_div_iff_mul_le (by decide)).mpr (by omega))
    rw [← heq]
    exact h.written.mapped off (Nat.le_refl off) (by omega)

theorem start (hview : v (s.inode i).inum = (s.inode i).toDinode) (h : Blocks sb False v [] s) :
    Short sb i v s off bs 0 0 v s :=
  ⟨.start hview h, fun _ _ => rfl, fun _ hbn => absurd hbn.1 (Nat.lt_irrefl 0),
    fun _ _ _ => rfl⟩

theorem grown {v' : Nat → Dinode} (h : Short sb i v₀ s₀ off bs tot 0 v s)
    (htype : (s₀.inode i).type ≠ .free) (hg : Grown sb False i v s v' t)
    (hkept : ∀ c, s.bitmap c = true → (s.inode i).addrs indirect ≠ c →
      t.data c = s.data c ∧ t.home c = s.home c) : Short sb i v₀ s₀ off bs tot 0 v' t := by
  have hn : (v (s₀.inode i).inum).type ≠ .free := by
    rw [h.written.view_self, h.written.type]
    exact htype
  have hsame : ∀ bn, blockAt s.data (v (s₀.inode i).inum) bn ≠ 0 →
      blockAt t.data (v' (s₀.inode i).inum) bn = blockAt s.data (v (s₀.inode i).inum) bn ∧
      t.data (blockAt s.data (v (s₀.inode i).inum) bn) =
        s.data (blockAt s.data (v (s₀.inode i).inum) bn) ∧
      t.home (blockAt s.data (v (s₀.inode i).inum) bn) =
        s.home (blockAt s.data (v (s₀.inode i).inum) bn) := by
    intro bn hbn
    have hind : (s.inode i).addrs indirect ≠ blockAt s.data (v (s₀.inode i).inum) bn := by
      have hne := h.written.blocks.indirect_ne hn rfl hbn hn
      rwa [h.written.view_self] at hne ⊢
    have hgrow := hg.blockAt bn
    rw [h.written.same.inum] at hgrow
    exact ⟨hgrow hbn, hkept _ (h.written.blocks.blockAt_used hn hbn) hind⟩
  refine ⟨h.written.grown htype hg, fun bn hbn => ?_, fun bn hbn => ?_, fun bn hnot hbn => ?_⟩
  · grind [stay]
  · obtain ⟨hblock, hdata, hhome⟩ := hsame bn (h.logged_mapped hbn)
    rw [hblock, hdata, hhome]
    exact h.logged bn hbn
  · have hold := h.stay bn hbn
    rw [← h.kept bn hnot hbn]
    rw [← hold] at hbn ⊢
    exact (hsame bn hbn).2.2

section Round

variable {b m : Nat} {cs : List UInt8} (h : Short sb i v₀ s₀ off bs tot 0 v s)
  (htype : (s₀.inode i).type ≠ .free)
  (hb : blockAt s.data (v (s₀.inode i).inum) ((off + tot) / BSIZE) = b) (hb0 : b ≠ 0)

include h htype hb hb0

theorem blockAt_write (blk : Block) (bn : Nat) :
    blockAt (Function.update s.data b blk) (v (s₀.inode i).inum) bn =
      blockAt s.data (v (s₀.inode i).inum) bn := by
  have hn : (v (s₀.inode i).inum).type ≠ .free := by
    rw [h.written.view_self, h.written.type]
    exact htype
  exact blockAt_update blk bn (h.written.blocks.indirect_ne hn hb hb0 hn)

theorem block_ne (hbn : bn ≠ (off + tot) / BSIZE) :
    blockAt s.data (v (s₀.inode i).inum) bn ≠ b := by
  have hn : (v (s₀.inode i).inum).type ≠ .free := by
    rw [h.written.view_self, h.written.type]
    exact htype
  subst hb
  exact fun heq => hbn (h.written.blocks.blockAt_inj hn hb0 heq)

-- A round that is logged.
theorem round (hin : (off + tot) % BSIZE + m ≤ BSIZE) (hpos : 0 < m)
    (hcs : cs = (bs.drop tot).take m) (hlen : cs.length = m) :
    Short sb i v₀ s₀ off bs (tot + m) 0 v
      (s.setBlock b ((s.data b).splice ((off + tot) % BSIZE) cs)) := by
  have hat := h.blockAt_write htype hb hb0 ((s.data b).splice ((off + tot) % BSIZE) cs)
  have hlogged : ∀ bn, bn ≠ (off + tot) / BSIZE →
      (Logged off (tot + m) bn ↔ Logged off tot bn) := by
    intro bn hbn
    unfold Logged BSIZE at *
    omega
  refine ⟨?_, fun bn hbn => ?_, fun bn hbn => ?_, fun bn hnot hbn => ?_⟩
  · exact h.written.round htype hb hb0 hin rfl rfl (fun c hc => Function.update_of_ne hc _ _)
      (Nat.le_refl _) fun _ => ⟨rfl, hcs, hlen⟩
  · exact (hat bn).trans (h.stay bn hbn)
  · show Function.update s.home b _ (blockAt (Function.update s.data b _) _ bn) =
      Function.update s.data b _ (blockAt (Function.update s.data b _) _ bn)
    rw [hat bn]
    by_cases hbb : bn = (off + tot) / BSIZE
    · rw [hbb, hb, Function.update_self, Function.update_self]
    · have hne := h.block_ne htype hb hb0 hbb
      grind [Function.update_of_ne, logged]
  · have hbb : bn ≠ (off + tot) / BSIZE := by
      rintro rfl
      refine hnot ⟨by omega, Nat.div_le_div_right (by omega), ?_⟩
      exact Nat.lt_of_le_of_lt (Nat.div_mul_le_self _ _) (by omega)
    have hne := h.block_ne htype hb hb0 hbb
    rw [h.stay bn hbn] at hne
    rw [← h.kept bn (fun hl => hnot ((hlogged bn hbb).mpr hl)) hbn]
    exact Function.update_of_ne hne _ _

theorem stop (hin : (off + tot) % BSIZE + cs.length ≤ BSIZE)
    (hstart : tot = 0 ∨ (off + tot) % BSIZE = 0) (hcs : cs = (bs.drop tot).take cs.length) :
    Short sb i v₀ s₀ off bs tot cs.length v
      (s.setData b ((s.data b).splice ((off + tot) % BSIZE) cs)) := by
  have hat := h.blockAt_write htype hb hb0 ((s.data b).splice ((off + tot) % BSIZE) cs)
  have hdiv := Nat.div_add_mod (off + tot) BSIZE
  refine ⟨?_, fun bn hbn => ?_, fun bn hbn => ?_, h.kept⟩
  · exact h.written.round htype hb hb0 hin rfl rfl (fun c hc => rfl) (Nat.le_refl _)
      fun _ => ⟨rfl, hcs, rfl⟩
  · exact (hat bn).trans (h.stay bn hbn)
  · have hbb : bn ≠ (off + tot) / BSIZE := by
      rintro rfl
      obtain ⟨hpos, -, hlt⟩ := hbn
      rw [Nat.mul_comm] at hlt
      omega
    have hne := h.block_ne htype hb hb0 hbb
    show s.home (blockAt (Function.update s.data b _) _ bn) =
      Function.update s.data b _ (blockAt (Function.update s.data b _) _ bn)
    rw [hat bn, Function.update_of_ne hne]
    exact h.logged bn hbn

end Round

end Short

-- How many bytes the round at byte tot of len copies before it fails, and 0 after the last.
def torn (mem : Nat → Option UInt8) (off len tot : Nat) : Nat :=
  (Src.copyin (.user mem) tot (min (len - tot) (BSIZE - (off + tot) % BSIZE))).length

theorem lt_torn (mem : Nat → Option UInt8) (off len tot j : Nat) :
    j < torn mem off len tot ↔ tot + j < len ∧ (off + tot) % BSIZE + j < BSIZE ∧
      ∀ k, k ≤ j → (mem (tot + k)).isSome = true := by
  rw [torn, lt_length_copyin, Nat.lt_min, and_assoc]
  grind

-- Where a write of len bytes at off stops: between two rounds, after bytes that are all
-- mapped, and before a round that gets no block or has an unmapped byte.
structure Stops (mem : Nat → Option UInt8) (off len : Nat) (block : Nat → Nat) (tot : Nat) :
    Prop where
  whole : ∀ j, j < tot → (mem j).isSome = true
  edge : tot = 0 ∨ tot = len ∨ (off + tot) % BSIZE = 0
  next : tot < len → block ((off + tot) / BSIZE) = 0 ∨
    ∃ j, tot ≤ j ∧ j < len ∧ (off + j) / BSIZE = (off + tot) / BSIZE ∧ mem j = none

theorem exists_unmapped {m : Nat} (hm : (Src.copyin (.user mem) tot m).length ≠ m)
    (hle : (Src.copyin (.user mem) tot m).length ≤ m) : ∃ k, k < m ∧ mem (tot + k) = none := by
  by_contra hall
  have hsome : ∀ k, k < m → (mem (tot + k)).isSome = true := fun k hk => by
    rw [Option.isSome_iff_ne_none]
    exact fun hnone => hall ⟨k, hk, hnone⟩
  have hlast := (lt_length_copyin mem tot m (m - 1)).mpr
    ⟨by omega, fun k hk => hsome k (by omega)⟩
  omega

theorem isSome_of_copyin {m : Nat} (hm : (Src.copyin (.user mem) tot m).length = m)
    (hwhole : ∀ j, j < tot → (mem j).isSome = true) : ∀ j, j < tot + m → (mem j).isSome = true := by
  intro j hj
  by_cases hlt : j < tot
  · exact hwhole j hlt
  · have hsome := ((lt_length_copyin mem tot m (j - tot)).mp (by omega)).2 (j - tot) (Nat.le_refl _)
    rwa [Nat.add_sub_cancel' (Nat.le_of_not_lt hlt)] at hsome

theorem wp_writeiLoop_short {fuel : Nat} (htype : (s₀.inode i).type ≠ .free)
    (hfuel : len - tot ≤ fuel) (hmax : off + len ≤ MAXFILE * BSIZE) (htot : tot ≤ len)
    (hstart : tot = 0 ∨ tot = len ∨ (off + tot) % BSIZE = 0)
    (hwhole : ∀ j, j < tot → (mem j).isSome = true)
    (h : Short sb i v₀ s₀ off (chunkBytes mem (0, len)) tot 0 v s) :
    (Spec.total Sys Label).Wp (fun tot' t => ∃ more v', tot' + more ≤ len ∧
      Short sb i v₀ s₀ off (chunkBytes mem (0, len)) tot' more v' t ∧
      (blockAt s₀.data (v₀ (s₀.inode i).inum) ((off + tot') / BSIZE) ≠ 0 →
        more = torn mem off len tot') ∧
      Stops mem off len (blockAt s₀.data (v₀ (s₀.inode i).inum)) tot')
      (writeiLoop sb i (.user mem) tot (chunks fuel (off + tot) (len - tot))) s := by
  induction fuel generalizing tot v s with
  | zero =>
    have hlen : tot = len := by omega
    refine ⟨0, v, htot, h, fun _ => ?_, hwhole, hstart, fun hlt => by omega⟩
    rw [torn, hlen, Nat.sub_self, Nat.zero_min]
    rfl
  | succ fuel ih =>
    by_cases hn : len - tot = 0
    · have hstops : Stops mem off len (blockAt s₀.data (v₀ (s₀.inode i).inum)) tot :=
        ⟨hwhole, hstart, fun hlt => by omega⟩
      grind [chunks_zero, Nat.zero_min, torn]
    · rw [chunks_succ hn]
      have htorn : torn mem off len tot = (Src.copyin (.user mem) tot
          (min (len - tot) (BSIZE - (off + tot) % BSIZE))).length := rfl
      obtain ⟨hpos, hle, hin⟩ := round_bound (off + tot) hn
      have hnext : tot + min (len - tot) (BSIZE - (off + tot) % BSIZE) = len ∨
          (off + (tot + min (len - tot) (BSIZE - (off + tot) % BSIZE))) % BSIZE = 0 := by
        unfold BSIZE
        omega
      generalize min (len - tot) (BSIZE - (off + tot) % BSIZE) = m at *
      have hbn : (off + tot) / BSIZE < MAXFILE := by
        rw [Nat.div_lt_iff_lt_mul (by decide)]
        omega
      have hty : (s.inode i).type ≠ .free := by
        rw [h.written.type]
        exact htype
      refine .bind ((wp_bmap (fun _ _ _ _ => trivial) (fun _ _ _ => trivial) h.written.growing
        h.written.view hty hbn).and (wp_bmap_kept hbn)) fun b t hbt => ?_
      obtain ⟨⟨v', hgrown, hzero, hblock⟩, hkept⟩ := hbt
      have hw := h.grown htype hgrown hkept
      split
      · rename_i hb
        have hnone : blockAt s₀.data (v₀ (s₀.inode i).inum) ((off + tot) / BSIZE) = 0 := by
          by_contra hold
          have hnone := (hzero hb).1
          rw [← h.written.view_self, h.stay _ hold] at hnone
          exact hold hnone
        exact ⟨0, v', htot, hw, fun hold => absurd hnone hold, hwhole, hstart, fun _ => .inl hnone⟩
      · rename_i hb
        have hat : blockAt t.data (v' (s₀.inode i).inum) ((off + tot) / BSIZE) = b := by
          rw [← h.written.same.inum]
          exact hblock hb
        have hcs : Src.copyin (.user mem) tot m = ((chunkBytes mem (0, len)).drop tot).take _ :=
          copyin_eq_take (show tot + m ≤ len by omega)
        dsimp only
        split
        · rename_i hlen
          refine .modify_bind fun _ => ⟨trivial, ?_⟩
          rw [hlen] at hcs
          have hround := hw.round htype hat hb hin hpos hcs hlen
          have hwhole := isSome_of_copyin hlen hwhole
          grind
        · rename_i hlen
          have hshort : (Src.copyin (.user mem) tot m).length ≤ m := by
            by_contra hlt
            exact Nat.lt_irrefl m ((lt_length_copyin mem tot m m).mp (by omega)).1
          obtain ⟨k, hk, hnone⟩ := exists_unmapped hlen hshort
          refine .modify_bind fun _ => ⟨trivial, _, v', by omega,
            hw.stop htype hat hb (by omega) (by omega) hcs, fun _ => htorn.symm, hwhole, hstart,
            fun _ => .inr ⟨tot + k, by omega, by omega, ?_, hnone⟩⟩
          unfold BSIZE at *
          omega

-- The blocks of a file as they were logged.
def homeOf (s : Sys) (d : Dinode) (bn : Nat) : Block := s.home (blockAt s.data d bn)

-- writei() has returned tot, having written more bytes to the buffer.
structure Stored (sb : Superblock) (i : Slot) (n : Nat) (mem : Nat → Option UInt8)
    (off len tot more : Nat) (s t : Sys) : Prop where
  edited : Edited sb i n s t
  le : tot + more ≤ len
  start : off ≤ (s.dinode n).size
  size : (t.dinode n).size = max (s.dinode n).size (off + tot)
  bytes : ∀ k, byteOf (content t.data (t.dinode n)) k =
    if off ≤ k ∧ k < off + (tot + more) then (mem (k - off)).getD 0
    else byteOf (content s.data (s.dinode n)) k
  logged : ∀ bn, Logged off tot bn → blockAt t.data (t.dinode n) bn ≠ 0 ∧
    homeOf t (t.dinode n) bn = content t.data (t.dinode n) bn
  kept : ∀ bn, ¬ Logged off tot bn → blockAt s.data (s.dinode n) bn ≠ 0 →
    homeOf t (t.dinode n) bn = homeOf s (s.dinode n) bn
  torn : blockAt s.data (s.dinode n) ((off + tot) / BSIZE) ≠ 0 → more = torn mem off len tot
  stops : Stops mem off len (blockAt s.data (s.dinode n)) tot

theorem wp_writei_short (htype : (s.inode i).type ≠ .free)
    (hview : v (s.inode i).inum = (s.inode i).toDinode) (h : Blocks sb False v [] s) :
    (Spec.total Sys Label).Wp (fun (r : Int) t => r = -1 ∨ ∃ (tot more : Nat) (v' : Nat → Dinode) (u : Sys),
      r = tot ∧ tot + more ≤ len ∧ off ≤ (s.inode i).size ∧
      Short sb i v s off (chunkBytes mem (0, len)) tot more v' u ∧
      (blockAt s.data (v (s.inode i).inum) ((off + tot) / BSIZE) ≠ 0 →
        more = torn mem off len tot) ∧
      Stops mem off len (blockAt s.data (v (s.inode i).inum)) tot ∧
      t.data = u.data ∧ t.home = u.home ∧ (t.inode i).addrs = (v' (s.inode i).inum).addrs)
      (writei sb i (.user mem) off len) s := by
  refine .look_bind fun _ => ⟨trivial, ?_⟩
  split
  · exact .inl rfl
  split
  · exact .inl rfl
  rename_i hcond hmax
  have hstart : Short sb i v s off (chunkBytes mem (0, len)) 0 0 v s := .start hview h
  refine .bind (wp_writeiLoop_short htype (Nat.le_refl _) (by omega) (Nat.zero_le len) (.inl rfl)
    (fun j hj => absurd hj (Nat.not_lt_zero j)) hstart) fun tot u hu => ?_
  obtain ⟨more, v', hle, hshort, htorn, hstops⟩ := hu
  refine .modify_bind fun _ => ⟨trivial, .modify_bind fun _ => ⟨trivial, .inr ?_⟩⟩
  refine ⟨tot, more, v', u, rfl, hle, by omega, hshort, htorn, hstops, rfl, rfl, ?_⟩
  rw [hshort.written.view_self]
  have hself := Sys.setInode_self u i fun ip => { ip with size := max ip.size (off + tot) }
  have haddrs := congrArg (fun ip : Inode => ip.addrs) hself
  exact haddrs

theorem writei_stored {n : Nat} (hfs : HoleFree sb s) (hi : InSlot s i n)
    (hrun : (writei sb i (.user mem) off len).run s = .done t (tot : Int)) :
    ∃ more, Stored sb i n mem off len tot more s t := by
  have htype : (s.inode i).type ≠ .free := by
    rw [hi.same]
    exact hi.type
  have hview : s.dinode (s.inode i).inum = (s.inode i).toDinode := by rw [hi.inum, hi.same]
  obtain ⟨t', r, hrun', hwrote⟩ := writei_returns hfs hi (.user mem) off len
  have hwp : (Spec.total Sys Label).Wp _ (writei sb i (.user mem) off len) s :=
    wp_writei_short htype hview hfs
  obtain ⟨t'', r', hrun'', hshort⟩ := hwp.returns
  rw [hrun] at hrun' hrun''
  cases hrun'
  cases hrun''
  obtain ⟨tot', more, v, u, htot, hle, hoff, hshort, htorn, hstops, hdata, hhome, haddrs⟩ :=
    hshort.resolve_left (by omega)
  obtain rfl : tot = tot' := by exact_mod_cast htot
  split at hwrote
  · omega
  obtain ⟨tot', htot', -, hwrote⟩ := hwrote
  obtain rfl : tot = tot' := by exact_mod_cast htot'
  have hd : (t.dinode n).addrs = (v (s.inode i).inum).addrs := by
    rw [hwrote.dinode_self hi]
    exact haddrs
  rw [hi.same] at hoff
  have hat : ∀ bn, blockAt t.data (t.dinode n) bn = blockAt u.data (v (s.inode i).inum) bn :=
    fun bn => by rw [hdata, blockAt_congr hd]
  have hcontent : content t.data (t.dinode n) = content u.data (v (s.inode i).inum) := by
    rw [hdata, content_addrs hd]
  refine ⟨more, hwrote.edited hi, hle, hoff, ?_, fun k => ?_, fun bn hbn => ?_, fun bn hnot hbn => ?_,
    ?_, ?_⟩
  · rw [hwrote.dinode_self hi, ← hi.same]
    exact hwrote.size
  · rw [hcontent, hshort.written.bytes trivial k, hi.inum]
    grind [chunkBytes]
  · grind [Short.logged_mapped, content_of_block, Short.logged, homeOf]
  · rw [← hi.inum] at hbn
    rw [homeOf, hat, hhome, hshort.stay bn hbn, hshort.kept bn hnot hbn, homeOf, hi.inum]
  · rw [← hi.inum]
    exact htorn
  · rw [← hi.inum]
    exact hstops

namespace Stored

variable {n more k : Nat}

theorem size_lt (h : Stored sb i n mem off len tot more s t) (hk : k < (t.dinode n).size)
    (hout : ¬ (off ≤ k ∧ k < off + tot)) : k < (s.dinode n).size := by
  have := h.size
  have := h.start
  omega

theorem getElem?_patch (h : Stored sb i n mem off len tot more s t)
    (hk : k < (t.dinode n).size) :
    (patch (s.contents n) off (chunkBytes mem (0, tot)))[k]? =
      some (if off ≤ k ∧ k < off + tot then (mem (k - off)).getD 0
        else byteOf (content s.data (s.dinode n)) k) := by
  have hlen := length_chunkBytes mem (0, tot)
  rw [h.size] at hk
  rw [Sys.contents, Fs.getElem?_patch _ h.start, hlen, if_pos hk]
  grind [chunkBytes]

theorem length_patch (h : Stored sb i n mem off len tot more s t) :
    (patch (s.contents n) off (chunkBytes mem (0, tot))).length = (t.dinode n).size := by
  grind [Fs.length_patch, length_contents, start, length_chunkBytes, size]

theorem torn_eq (h : Stored sb i n mem off len tot more s t) (hfs : HoleFree sb s)
    (hn : (s.dinode n).type ≠ .free) (hk : off + tot < (s.dinode n).size) :
    more = Fs.torn mem off len tot :=
  h.torn (hfs.mapped n hn _ (Nat.lt_of_le_of_lt (Nat.div_mul_le_self _ _) hk))

-- The bytes of the round that fails are no other than those of the file.
theorem contents_iff (h : Stored sb i n mem off len tot more s t) (hfs : HoleFree sb s)
    (hn : (s.dinode n).type ≠ .free) :
    t.contents n = patch (s.contents n) off (chunkBytes mem (0, tot)) ↔
      ∀ j, j < Fs.torn mem off len tot → off + tot + j < (s.dinode n).size →
        mem (tot + j) = some (byteOf (content s.data (s.dinode n)) (off + tot + j)) := by
  have hget : ∀ k, k < (t.dinode n).size →
      (t.contents n)[k]? = some (byteOf (content t.data (t.dinode n)) k) := fun k hk => by
    rw [Sys.contents, getElem?_bytesOf, if_pos hk, Nat.zero_add]
  constructor
  · intro heq j hj hk
    have hlt : off + tot + j < (t.dinode n).size := by
      rw [h.size]
      omega
    have hbyte := (hget _ hlt).symm
    rw [heq, h.getElem?_patch hlt, if_neg (by omega), h.bytes,
      if_pos (by rw [h.torn_eq hfs hn (by omega)]; omega)] at hbyte
    obtain ⟨b, hb⟩ := Option.isSome_iff_exists.mp
      (((lt_torn mem off len tot j).mp hj).2.2 j (Nat.le_refl j))
    grind
  · intro hsame
    refine List.ext_getElem? fun k => ?_
    by_cases hk : k < (t.dinode n).size
    · rw [hget k hk, h.getElem?_patch hk, h.bytes k]
      refine congrArg some ?_
      by_cases hin : off ≤ k ∧ k < off + tot
      · rw [if_pos hin, if_pos (by omega)]
      · rw [if_neg hin]
        by_cases hmore : off ≤ k ∧ k < off + (tot + more)
        · have hold := h.size_lt hk hin
          rw [h.torn_eq hfs hn (by omega)] at hmore
          have hbyte := hsame (k - (off + tot)) (by omega) (by omega)
          grind
        · rw [if_neg hmore]
    grind [List.getElem?_eq_none, length_contents, length_patch]

end Stored

end Xv6.Fs
