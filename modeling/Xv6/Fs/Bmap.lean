import Xv6.Fs.Blocks

namespace Xv6.Fs

open Lib

-- The actions of bmap(), itrunc() and writei() on the inode in slot i, but for the
-- search for a free block.
def Label.block (i : Slot) : Label → Bool
  | .look | .bzero _ | .bfree _ | .bmap _ | .itrunc _ | .iupdate _
  | .writei .. | .copyin _ => true
  | .size j => decide (j = i)
  | _ => false

variable {sb : Superblock} {exact : Prop} {C : Spec Sys Label} {s₀ s t u : Sys} {i : Slot}
  {v₀ v v' w : Nat → Dinode}

-- The size of the inode in slot i is set, which is assumed to be in order.
def Resized (C : Spec Sys Label) (i : Slot) (s : Sys) : Prop :=
  ∃ t, SameBut i s t ∧ C.ok (.size i) t

-- The inode in slot i has at most more blocks than before, and they are cleared.
structure Grown (sb : Superblock) (exact : Prop) (i : Slot) (v : Nat → Dinode) (s : Sys)
    (v' : Nat → Dinode) (t : Sys) : Prop where
  same : SameBut i s t
  dinode : t.dinode = s.dinode
  size : (t.inode i).size = (s.inode i).size
  view : v' = Function.update v (s.inode i).inum (t.inode i).toDinode
  blocks : Blocks sb exact v' [] t
  nodes : nodes v' t.data = nodes v s.data
  grow : ∀ x, ptr s.data (v (s.inode i).inum) x ≠ 0 →
    ptr t.data (v' (s.inode i).inum) x = ptr s.data (v (s.inode i).inum) x

namespace Grown

theorem refl (hview : v (s.inode i).inum = (s.inode i).toDinode) (h : Blocks sb exact v [] s) :
    Grown sb exact i v s v s :=
  ⟨.refl i s, rfl, rfl, by rw [← hview, Function.update_eq_self], h, rfl, fun _ _ => rfl⟩

theorem view_self (h : Grown sb exact i v s v' t) :
    v' (t.inode i).inum = (t.inode i).toDinode := by
  rw [h.view, h.same.inum, Function.update_self]

theorem trans (h : Grown sb exact i v s v' t) (h' : Grown sb exact i v' t w u) :
    Grown sb exact i v s w u := by
  refine ⟨h.same.trans h'.same, h'.dinode.trans h.dinode, h'.size.trans h.size, ?_, h'.blocks,
    h'.nodes.trans h.nodes, fun x hx => ?_⟩
  · rw [h'.view, h.view, h.same.inum, Function.update_idem]
  · have hgrow := h.grow x hx
    have hgrow' := h'.grow x
    rw [h.same.inum, hgrow] at hgrow'
    exact hgrow' hx

theorem type (h : Grown sb exact i v s v' t) : (t.inode i).type = (s.inode i).type := by
  rw [h.same.self]

theorem blockAt (h : Grown sb exact i v s v' t) (bn : Nat)
    (hbn : blockAt s.data (v (s.inode i).inum) bn ≠ 0) :
    blockAt t.data (v' (s.inode i).inum) bn = blockAt s.data (v (s.inode i).inum) bn := by
  cases hx : pos bn with
  | none => exact absurd (blockAt_of_none hx) hbn
  | some x =>
    rw [blockAt_of_pos hx] at hbn ⊢
    rw [blockAt_of_pos hx]
    exact h.grow x hbn

-- A free block is cleared and becomes address k of the inode.
theorem setAddr {k : Fin (NDIRECT + 1)} {b : Nat}
    (hview : v (s.inode i).inum = (s.inode i).toDinode) (htype : (s.inode i).type ≠ .free)
    (h : Blocks sb exact v [] s) (hk : (s.inode i).addrs k = 0) (hfree : s.bitmap b = false)
    (hlt : b < sb.size) :
    Grown sb exact i v s (Function.update v (s.inode i).inum ((v (s.inode i).inum).setAddr k b))
      (setAddr i k b ((s.setBitmap b true).setBlock b Block.zero)) := by
  have htake := h.take hfree hlt
  have hsame : SameBut i s ((s.setBitmap b true).setBlock b Block.zero) :=
    .of_inode rfl rfl rfl rfl rfl rfl
  have hn : (v (s.inode i).inum).type ≠ .free := by rwa [hview]
  have hk0 : (v (s.inode i).inum).addrs k = 0 := by rwa [hview]
  have hdata : ((s.setBitmap b true).setBlock b Block.zero).data b = Block.zero := by
    simp [Sys.setBlock]
  have hhome : ((s.setBitmap b true).setBlock b Block.zero).home b = Block.zero := by
    simp [Sys.setBlock]
  have hset : ((Fs.setAddr i k b ((s.setBitmap b true).setBlock b Block.zero)).inode i).toDinode =
      (v (s.inode i).inum).setAddr k b := by
    rw [hview]
    unfold Fs.setAddr
    rw [Sys.setInode_self]
    rfl
  refine ⟨hsame.trans (.setAddr i k b _), rfl, ?_, by rw [hset], ?_, ?_, fun x hx => ?_⟩
  · unfold Fs.setAddr
    rw [Sys.setInode_self]
    rfl
  · exact (htake.setAddr k hn hk0 hdata hhome).congr rfl rfl rfl
  · exact (nodes_setAddr k hk0 hdata).trans (h.nodes_take hfree)
  · have hxk : x ≠ .addr k := by
      rintro rfl
      exact hx hk0
    rw [Function.update_self]
    have hold : ptr ((s.setBitmap b true).setBlock b Block.zero).data (v (s.inode i).inum) x =
        ptr s.data (v (s.inode i).inum) x :=
      ptr_update _ x fun heq => htake.loose_addr (List.mem_cons_self ..) hn indirect heq
    exact (ptr_setAddr k hk0 (fun _ => hdata) hxk).trans hold

-- A free block is cleared and becomes an entry of the indirect block.
theorem setEntry {j : Fin NINDIRECT} {b : Nat}
    (hview : v (s.inode i).inum = (s.inode i).toDinode) (htype : (s.inode i).type ≠ .free)
    (h : Blocks sb exact v [] s) (ha : (s.inode i).addrs indirect ≠ 0)
    (hj : (s.data ((s.inode i).addrs indirect)).getUint j = 0) (hfree : s.bitmap b = false)
    (hlt : b < sb.size) :
    Grown sb exact i v s v (((s.setBitmap b true).setBlock b Block.zero).setBlock
      ((s.inode i).addrs indirect)
      ((((s.setBitmap b true).setBlock b Block.zero).data ((s.inode i).addrs indirect)).putUint j
        b)) := by
  have haddr : (v (s.inode i).inum).addrs indirect = (s.inode i).addrs indirect := by rw [hview]
  have ha' : (v (s.inode i).inum).addrs indirect ≠ 0 := by rwa [haddr]
  have htake := h.take hfree hlt
  have hmem : b ∈ [b] := List.mem_cons_self ..
  have hsame : SameBut i s ((s.setBitmap b true).setBlock b Block.zero) :=
    .of_inode rfl rfl rfl rfl rfl rfl
  have hn : (v (s.inode i).inum).type ≠ .free := by rwa [hview]
  have hne := htake.loose_addr hmem hn indirect
  have hdata : ((s.setBitmap b true).setBlock b Block.zero).data b = Block.zero := by
    simp [Sys.setBlock]
  have hkeep : ((s.setBitmap b true).setBlock b Block.zero).data
      ((v (s.inode i).inum).addrs indirect) = s.data ((v (s.inode i).inum).addrs indirect) :=
    Function.update_of_ne hne _ _
  have hj' : (((s.setBitmap b true).setBlock b Block.zero).data
      ((v (s.inode i).inum).addrs indirect)).getUint j = 0 := by
    rw [hkeep, haddr, hj]
  rw [← haddr]
  refine ⟨hsame.trans (.of_inode rfl rfl rfl rfl rfl rfl), rfl, rfl, ?_, ?_, ?_, fun x hx => ?_⟩
  · exact ((congrArg (Function.update v _) hview.symm).trans
      (Function.update_eq_self _ v)).symm
  · exact htake.setEntry hn ha' hj'
  · exact (nodes_setEntry hn ha' hj' (htake.loose_lt hmem) (htake.owner hn ha') hdata
      (Ne.symm hne)).trans (h.nodes_take hfree)
  · have hxj : x ≠ .entry j := by
      rintro rfl
      exact hx (by rw [ptr, if_neg ha', haddr, hj])
    exact (ptr_setEntry_other hxj).trans (ptr_update _ x hne)

end Grown

theorem freeBit_eq_some {c b : Nat} (h : s.freeBit sb c = some b) :
    s.bitmap b = false ∧ b < sb.size := by
  have hbit := List.find?_some h
  have hmem := List.mem_of_find?_eq_some h
  rw [List.mem_range'_1] at hmem
  refine ⟨by simpa using hbit, ?_⟩
  omega

theorem freeBit_eq_none {c b : Nat} (h : s.freeBit sb c = none) (hb : b < sb.size)
    (hc : c ≤ b) (hbc : b < c + BPB) : s.bitmap b = true := by
  have hmem : b ∈ List.range' c (min BPB (sb.size - c)) := by
    rw [List.mem_range'_1]
    omega
  simpa using List.find?_eq_none.mp h b hmem

theorem full_of_none (h : ∀ c ∈ (List.range ((sb.size + BPB - 1) / BPB)).map (· * BPB),
    s.freeBit sb c = none) : Full sb s := by
  intro b hb
  have hpos : 0 < BPB := by decide
  have hdiv := Nat.div_add_mod b BPB
  have hmod := Nat.mod_lt b hpos
  have hcomm := Nat.mul_comm BPB (b / BPB)
  refine freeBit_eq_none (h (b / BPB * BPB) ?_) hb (by omega) (by omega)
  refine List.mem_map.mpr ⟨b / BPB, List.mem_range.mpr ?_, rfl⟩
  rw [Nat.lt_div_iff_mul_lt hpos]
  omega

-- The inode in slot i may have more blocks in memory than on the disk, which is as
-- it was in s₀.
structure Growing (sb : Superblock) (exact : Prop) (i : Slot) (v₀ : Nat → Dinode) (s₀ s : Sys) :
    Prop where
  same : SameBut i s₀ s
  dinode : s.dinode = s₀.dinode
  blocks : Blocks sb exact (Function.update v₀ (s₀.inode i).inum (s.inode i).toDinode) [] s

section Growing

variable (h : Growing sb exact i v₀ s₀ s)
  (hv : v = Function.update v₀ (s₀.inode i).inum (s.inode i).toDinode)

include h hv

theorem Growing.view : v (s.inode i).inum = (s.inode i).toDinode := by
  rw [hv, h.same.inum, Function.update_self]

theorem Growing.view_blocks : Blocks sb exact v [] s := by
  rw [hv]
  exact h.blocks

theorem Growing.grown_view (hg : Grown sb exact i v s v' t) :
    v' = Function.update v₀ (s₀.inode i).inum (t.inode i).toDinode := by
  rw [hg.view, hv, h.same.inum, Function.update_idem]

theorem Growing.grown (hg : Grown sb exact i v s v' t) : Growing sb exact i v₀ s₀ t := by
  refine ⟨h.same.trans hg.same, hg.dinode.trans h.dinode, ?_⟩
  rw [← h.grown_view hv hg]
  exact hg.blocks

end Growing

-- The actions of balloc() find what they have to.
structure Allocs (C : Spec Sys Label) (s : Sys) : Prop where
  balloc : ∀ c, C.must (.balloc c) s
  bzero : ∀ b, C.must (.bzero b) (s.setBitmap b true)

theorem wp_ballocLoop (hC : Allocs C s) (cs : List Nat) :
    C.Wp (fun b t => (b = 0 ∧ t = s ∧ ∀ c ∈ cs, s.freeBit sb c = none) ∨
      (s.bitmap b = false ∧ b < sb.size ∧ t = (s.setBitmap b true).setBlock b Block.zero))
      (ballocLoop sb cs) s := by
  induction cs with
  | nil => exact .inl ⟨rfl, rfl, by simp⟩
  | cons c rest ih =>
    refine .atomic_bind fun _ => ⟨hC.balloc c, ?_⟩
    cases hbit : s.freeBit sb c with
    | none =>
      refine ⟨fun a ha => ?_, fun msg hmsg => by cases hmsg⟩
      cases ha
      refine ih.mono fun b t hbt => ?_
      rcases hbt with ⟨hb, ht, hnone⟩ | hsome
      · exact .inl ⟨hb, ht, List.forall_mem_cons.mpr ⟨hbit, hnone⟩⟩
      · exact .inr hsome
    | some b =>
      refine ⟨fun a ha => ?_, fun msg hmsg => by cases hmsg⟩
      cases ha
      obtain ⟨hfree, hlt⟩ := freeBit_eq_some hbit
      exact .modify_bind fun _ => ⟨hC.bzero b, .inr ⟨hfree, hlt, rfl⟩⟩

theorem wp_balloc (hC : Allocs C s) :
    C.Wp (fun b t => (b = 0 ∧ t = s ∧ Full sb s) ∨
      (s.bitmap b = false ∧ b < sb.size ∧ t = (s.setBitmap b true).setBlock b Block.zero))
      (balloc sb) s := by
  refine (wp_ballocLoop hC _).mono fun b t hbt => ?_
  rcases hbt with ⟨hb, ht, hnone⟩ | hsome
  · exact .inl ⟨hb, ht, full_of_none hnone⟩
  · exact .inr hsome

section Specs

variable (hC : ∀ lbl t, lbl.block i = true → SameBut i s₀ t → C.must lbl t)
  (hB : ∀ c t, Growing sb exact i v₀ s₀ t → C.must (.balloc c) t)

include hC hB

-- The precondition of a change to the inode in slot i, with what the kernel
-- has it as.
variable (hs : Growing sb exact i v₀ s₀ s)
  (hv : v = Function.update v₀ (s₀.inode i).inum (s.inode i).toDinode)
  (htype : (s.inode i).type ≠ .free)

include hs

omit htype in
theorem allocs : Allocs C s where
  balloc := fun c => hB c s hs
  bzero := fun _ => hC _ _ rfl (hs.same.trans (.of_inode rfl rfl rfl rfl rfl rfl))

include hv htype

theorem wp_bmapAddr (k : Fin (NDIRECT + 1)) :
    C.Wp (fun b t => ∃ v', Grown sb exact i v s v' t ∧
      (b = 0 → (s.inode i).addrs k = 0 ∧ Full sb t) ∧
      (b ≠ 0 → ptr t.data (v' (s.inode i).inum) (.addr k) = b) ∧
      ((s.inode i).addrs k ≠ 0 → t = s)) (bmapAddr sb i k) s := by
  have hview := hs.view hv
  have h := hs.view_blocks hv
  have hptr : ptr s.data (v (s.inode i).inum) (.addr k) = (s.inode i).addrs k := by
    rw [hview]
    rfl
  refine .look_bind fun _ => ⟨hC _ s rfl hs.same, ?_⟩
  split
  · rename_i hk
    refine .bind (wp_balloc (allocs hC hB hs)) fun b t hbt => ?_
    rcases hbt with ⟨rfl, rfl, hfull⟩ | ⟨hfree, hlt, rfl⟩
    · exact ⟨v, .refl hview h, fun _ => ⟨hk, hfull⟩, fun h0 => absurd rfl h0, fun _ => rfl⟩
    · have hb0 := (h.take hfree hlt).loose_ne_zero (List.mem_cons_self ..)
      rw [if_neg hb0]
      have hsame : SameBut i s ((s.setBitmap b true).setBlock b Block.zero) :=
        .of_inode rfl rfl rfl rfl rfl rfl
      refine .modify_bind fun _ => ⟨hC _ _ rfl (hs.same.trans hsame), _,
        .setAddr hview htype h hk hfree hlt, fun h0 => absurd h0 hb0, fun _ => ?_,
        fun hne => absurd hk hne⟩
      rw [Function.update_self, ptr_setAddr_self]
  · rename_i hk
    exact ⟨v, .refl hview h, fun h0 => absurd h0 hk, fun _ => hptr, fun _ => rfl⟩

theorem wp_bmapEntry (j : Fin NINDIRECT) (ha : (s.inode i).addrs indirect ≠ 0) :
    C.Wp (fun b t => ∃ v', Grown sb exact i v s v' t ∧
      (b = 0 → (s.data ((s.inode i).addrs indirect)).getUint j = 0 ∧ Full sb t) ∧
      (b ≠ 0 → ptr t.data (v' (s.inode i).inum) (.entry j) = b))
      (bmapEntry sb i ((s.inode i).addrs indirect) j) s := by
  have hview := hs.view hv
  have h := hs.view_blocks hv
  have haddr : (v (s.inode i).inum).addrs indirect = (s.inode i).addrs indirect := by rw [hview]
  have ha' : (v (s.inode i).inum).addrs indirect ≠ 0 := by rwa [haddr]
  have hptr : ptr s.data (v (s.inode i).inum) (.entry j) =
      (s.data ((s.inode i).addrs indirect)).getUint j := by
    rw [ptr, if_neg ha', haddr]
  refine .look_bind fun _ => ⟨hC _ s rfl hs.same, ?_⟩
  split
  · rename_i hj
    refine .bind (wp_balloc (allocs hC hB hs)) fun b t hbt => ?_
    rcases hbt with ⟨rfl, rfl, hfull⟩ | ⟨hfree, hlt, rfl⟩
    · exact ⟨v, .refl hview h, fun _ => ⟨hj, hfull⟩, fun h0 => absurd rfl h0⟩
    · have htake := h.take hfree hlt
      have hmem : b ∈ [b] := List.mem_cons_self ..
      have hb0 := htake.loose_ne_zero hmem
      rw [if_neg hb0]
      have hsame : SameBut i s ((s.setBitmap b true).setBlock b Block.zero) :=
        .of_inode rfl rfl rfl rfl rfl rfl
      refine .modify_bind fun _ => ⟨hC _ _ rfl (hs.same.trans hsame), v,
        .setEntry hview htype h ha hj hfree hlt, fun h0 => absurd h0 hb0, fun _ => ?_⟩
      rw [← haddr]
      exact ptr_setEntry_self ha' (htake.loose_lt hmem)
  · rename_i hj
    exact ⟨v, .refl hview h, fun h0 => absurd h0 hj, fun _ => hptr⟩

theorem wp_bmap {bn : Nat} (hbn : bn < MAXFILE) :
    C.Wp (fun b t => ∃ v', Grown sb exact i v s v' t ∧
      (b = 0 → blockAt s.data (s.inode i).toDinode bn = 0 ∧ Full sb t) ∧
      (b ≠ 0 → blockAt t.data (v' (s.inode i).inum) bn = b)) (bmap sb i bn) s := by
  unfold bmap
  split
  · rename_i hlt
    have hpos : pos bn = some (.addr ⟨bn, Nat.lt_succ_of_lt hlt⟩) := dif_pos hlt
    refine (wp_bmapAddr hC hB hs hv htype _).mono fun b t ht => ?_
    obtain ⟨v', hgrown, hzero, hptr, -⟩ := ht
    refine ⟨v', hgrown, ?_, ?_⟩
    · rw [blockAt_of_pos hpos]
      exact hzero
    · rw [blockAt_of_pos hpos]
      exact hptr
  · rename_i hlt
    have hent : bn - NDIRECT < NINDIRECT := by
      unfold MAXFILE at hbn
      omega
    have hpos : pos bn = some (.entry ⟨bn - NDIRECT, hent⟩) := by
      rw [pos, dif_neg hlt, dif_pos hent]
    rw [if_pos hent]
    have hblock : blockAt s.data (s.inode i).toDinode bn =
        ptr s.data (s.inode i).toDinode (.entry ⟨bn - NDIRECT, hent⟩) := blockAt_of_pos hpos
    refine .bind (wp_bmapAddr hC hB hs hv htype indirect) fun b t ht => ?_
    obtain ⟨v', hgrown, hzero, hptr, hold⟩ := ht
    split
    · rename_i hb
      obtain ⟨ha, hfull⟩ := hzero hb
      refine ⟨v', hgrown, fun _ => ⟨?_, hfull⟩, fun h0 => absurd rfl h0⟩
      rw [hblock, ptr, if_pos ha]
    · rename_i hb
      have hmem : (t.inode i).addrs indirect = b := by
        rw [← hptr hb, ptr, ← hgrown.view_self, hgrown.same.inum]
      have hentry := wp_bmapEntry hC hB (hs.grown hv hgrown) (hs.grown_view hv hgrown)
        (by rwa [hgrown.type]) ⟨bn - NDIRECT, hent⟩ (by rwa [hmem])
      rw [hmem] at hentry
      refine hentry.mono fun c u hu => ?_
      obtain ⟨w, hgrown', hzero', hptr'⟩ := hu
      refine ⟨w, hgrown.trans hgrown', fun hc => ⟨?_, (hzero' hc).2⟩, fun hc => ?_⟩
      · rw [hblock, ptr]
        by_cases ha : (s.inode i).addrs indirect = 0
        · rw [if_pos ha]
        · have ht := hold ha
          subst ht
          rw [if_neg ha, hmem]
          exact (hzero' hc).1
      · rw [blockAt_of_pos hpos, ← hgrown.same.inum]
        exact hptr' hc

end Specs

theorem wp_bmap_mapped {bn : Nat} (hmust : C.must .look s)
    (hbn : blockAt s.data (s.inode i).toDinode bn ≠ 0) :
    C.Wp (fun b t => t = s ∧ b = blockAt s.data (s.inode i).toDinode bn) (bmap sb i bn) s := by
  unfold bmap
  split
  · rename_i hlt
    have hpos : pos bn = some (.addr ⟨bn, Nat.lt_succ_of_lt hlt⟩) := dif_pos hlt
    rw [blockAt_of_pos hpos, ptr] at hbn ⊢
    refine .look_bind fun _ => ⟨hmust, ?_⟩
    rw [if_neg hbn]
    exact ⟨rfl, rfl⟩
  · rename_i hlt
    have hent : bn - NDIRECT < NINDIRECT := by
      by_contra hnot
      refine hbn (blockAt_of_none ?_)
      rw [pos, dif_neg hlt, dif_neg hnot]
    have hpos : pos bn = some (.entry ⟨bn - NDIRECT, hent⟩) := by
      rw [pos, dif_neg hlt, dif_pos hent]
    rw [blockAt_of_pos hpos] at hbn ⊢
    have ha : (s.inode i).addrs indirect ≠ 0 := by
      intro h0
      exact hbn (by rw [ptr, if_pos h0])
    rw [ptr, if_neg ha] at hbn ⊢
    rw [if_pos hent]
    refine .bind (Q := fun b t => t = s ∧ b = (s.inode i).addrs indirect)
      (.look_bind fun _ => ⟨hmust, ?_⟩) fun b t hbt => ?_
    · rw [if_neg ha]
      exact ⟨rfl, rfl⟩
    · obtain ⟨rfl, rfl⟩ := hbt
      rw [if_neg ha]
      refine .look_bind fun _ => ⟨hmust, ?_⟩
      rw [if_neg hbn]
      exact ⟨rfl, rfl⟩

end Xv6.Fs
