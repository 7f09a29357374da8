import Xv6.Fs.Bmap

namespace Xv6.Fs

open Lib

variable {sb : Superblock} {exact : Prop} {C : Spec Sys Label} {s₀ s t : Sys} {i : Slot}
  {v : Nat → Dinode} {n b : Nat}

theorem Blocks.free {L : List Nat} (h : Blocks sb exact v (b :: L) s) :
    Blocks sb exact v L (s.setBitmap b false) :=
  ⟨h.alloc.free, h.mapped, h.small, h.clean⟩

-- An inode of size 0 loses one of its addresses.
theorem Blocks.detach (h : Blocks sb exact v [] s) (k : Fin (NDIRECT + 1))
    (hsize : (v n).size = 0) {bs : List Nat} (hnodup : bs.Nodup)
    (hbs : ∀ c, c ∈ bs ↔ ∃ x : Pos, x.under k ∧ Owns s.data v (n, x) c) :
    Blocks sb exact (Function.update v n ((v n).setAddr k 0)) bs s := by
  have htype : ∀ m, (Function.update v n ((v n).setAddr k 0) m).type = (v m).type := by
    intro m
    by_cases hm : m = n
    · subst hm
      rw [Function.update_self]
      rfl
    · rw [Function.update_of_ne hm]
  refine ⟨?_, fun m hm => ?_, fun m hm => ?_, fun m hm ha => ?_⟩
  · have hlost : ∀ c, c ∈ bs ↔ ∃ o, Owns s.data v o c ∧
        ¬ Owns s.data (Function.update v n ((v n).setAddr k 0)) o c := by
      intro c
      rw [hbs]
      constructor
      · rintro ⟨x, hx, ho⟩
        exact ⟨(n, x), ho, fun hnew => ((owns_setAddr_zero k _ c).mp hnew).2 ⟨rfl, hx⟩⟩
      · rintro ⟨⟨m, x⟩, ho, hnot⟩
        rw [owns_setAddr_zero] at hnot
        obtain ⟨rfl, hx⟩ := not_not.mp fun hno => hnot ⟨ho, hno⟩
        exact ⟨x, hx, ho⟩
    have hdetach := h.alloc.detach (fun o c ho => ((owns_setAddr_zero k o c).mp ho).1) hnodup hlost
    rwa [List.append_nil] at hdetach
  · by_cases hmn : m = n
    · subst hmn
      rw [Function.update_self]
      intro bn hbn
      have hzero : ((v m).setAddr k 0).size = 0 := hsize
      omega
    · rw [htype] at hm
      rw [Function.update_of_ne hmn]
      exact h.mapped m hm
  · by_cases hmn : m = n
    · subst hmn
      rw [Function.update_self]
      have hzero : ((v m).setAddr k 0).size = 0 := hsize
      omega
    · rw [htype] at hm
      rw [Function.update_of_ne hmn]
      exact h.small m hm
  · rw [htype] at hm
    by_cases hmn : m = n
    · subst hmn
      rw [Function.update_self] at ha ⊢
      by_cases hk : k = indirect
      · subst hk
        exact absurd (by simp [Dinode.setAddr]) ha
      · have hsame : ((v m).setAddr k 0).addrs indirect = (v m).addrs indirect :=
          Function.update_of_ne (Ne.symm hk) _ _
        rw [hsame] at ha ⊢
        exact h.clean m hm ha
    · rw [Function.update_of_ne hmn] at ha ⊢
      exact h.clean m hm ha

-- itrunc() has given back some of the blocks of the inode in slot i, which
-- counts as empty from the start.
structure Cut (sb : Superblock) (exact : Prop) (i : Slot) (v : Nat → Dinode) (s t : Sys) :
    Prop where
  same : SameBut i s t
  dinode : t.dinode = s.dinode
  data : t.data = s.data
  home : t.home = s.home
  blocks : Blocks sb exact (Function.update v (s.inode i).inum ((t.inode i).toDinode.resize 0)) [] t

theorem Cut.start (hview : v (s.inode i).inum = (s.inode i).toDinode)
    (htype : (s.inode i).type ≠ .free) (h : Blocks sb exact v [] s) : Cut sb exact i v s s := by
  have hn : (v (s.inode i).inum).type ≠ .free := by rwa [hview]
  refine ⟨.refl i s, rfl, rfl, rfl, h.alloc.congr fun o c => ?_, fun m hm => ?_, fun m hm => ?_,
    fun m hm ha => ?_⟩
  · exact owns_set (by rw [hview, Dinode.resize_addrs]) (by rw [hview, Dinode.resize_type]) o c
  · by_cases hmn : m = (s.inode i).inum
    · rw [hmn, Function.update_self]
      intro bn hbn
      exact absurd hbn (Nat.not_lt_zero _)
    · rw [Function.update_of_ne hmn] at hm ⊢
      exact h.mapped m hm
  · by_cases hmn : m = (s.inode i).inum
    · rw [hmn, Function.update_self]
      exact Nat.zero_le _
    · rw [Function.update_of_ne hmn] at hm ⊢
      exact h.small m hm
  · by_cases hmn : m = (s.inode i).inum
    · rw [hmn, Function.update_self] at ha ⊢
      have hclean := h.clean _ hn
      rw [hview] at hclean
      exact hclean ha
    · rw [Function.update_of_ne hmn] at hm ha ⊢
      exact h.clean m hm ha

section Specs

variable (hC : ∀ lbl t, lbl.block i = true → SameBut i s₀ t → C.must lbl t)

include hC

theorem wp_bfree {L : List Nat} (hs : SameBut i s₀ s) (h : Blocks sb exact v (b :: L) s) :
    C.Wp (fun _ t => t = s.setBitmap b false) (bfree b) s := by
  have hused := (h.alloc.apart b (List.mem_cons_self ..)).2.2.1
  refine .atomic fun _ => ⟨hC _ s rfl hs, ?_⟩
  rw [if_pos hused]
  exact ⟨fun _ _ => rfl, fun msg hmsg => by cases hmsg⟩

theorem wp_bfreeAll {L bs : List Nat} (hs : SameBut i s₀ s)
    (h : Blocks sb exact v (bs ++ L) s) :
    C.Wp (fun _ t => Blocks sb exact v L t ∧ SameBut i s t ∧ t.inode = s.inode ∧
      t.dinode = s.dinode ∧ t.data = s.data ∧ t.home = s.home) (bfreeAll bs) s := by
  induction bs generalizing s with
  | nil => exact ⟨h, .refl i s, rfl, rfl, rfl, rfl⟩
  | cons b rest ih =>
    refine .bind (wp_bfree hC hs h) fun _ t ht => ?_
    subst ht
    have hsame : SameBut i s (s.setBitmap b false) := .of_inode rfl rfl rfl rfl rfl rfl
    refine (ih (hs.trans hsame) h.free).mono fun _ u hu => ?_
    exact ⟨hu.1, hsame.trans hu.2.1, hu.2.2⟩

theorem wp_forget (hs : SameBut i s₀ s) (hdinode : s.dinode = s₀.dinode)
    (hdata : s.data = s₀.data) (hhome : s.home = s₀.home) (k : Fin (NDIRECT + 1))
    (hblocks : Blocks sb exact (Function.update v (s₀.inode i).inum
      (((s.inode i).toDinode.resize 0).setAddr k 0)) [] s) :
    C.Wp (fun _ t => Cut sb exact i v s₀ t ∧
      (t.inode i).addrs = Function.update (s.inode i).addrs k 0)
      (.modify (.itrunc i) (setAddr i k 0)) s := by
  have hset : (setAddr i k 0 s).inode i =
      { s.inode i with addrs := Function.update (s.inode i).addrs k 0 } := by
    unfold setAddr
    rw [Sys.setInode_self]
  refine .modify fun _ => ⟨hC _ s rfl hs, ⟨hs.trans (.setAddr i k 0 s), hdinode, hdata, hhome,
    ?_⟩, by rw [hset]⟩
  rw [hset]
  exact hblocks.congr rfl rfl rfl

theorem wp_itruncAddr (h : Cut sb exact i v s₀ s) (htype : (s₀.inode i).type ≠ .free)
    {k : Fin (NDIRECT + 1)} (hk : k ≠ indirect) :
    C.Wp (fun _ t => Cut sb exact i v s₀ t ∧
      (t.inode i).addrs = Function.update (s.inode i).addrs k 0) (itruncAddr i k) s := by
  have hself : (s.inode i).type = (s₀.inode i).type := by rw [h.same.self]
  refine .look_bind fun _ => ⟨hC _ s rfl h.same, ?_⟩
  split
  · rename_i hzero
    refine ⟨h, ?_⟩
    rw [← hzero, Function.update_eq_self]
  · rename_i hne
    have hsize : (Function.update v (s₀.inode i).inum ((s.inode i).toDinode.resize 0)
        (s₀.inode i).inum).size = 0 := by
      rw [Function.update_self]
      rfl
    have hmem : ∀ c, c ∈ [(s.inode i).addrs k] ↔ ∃ x : Pos, x.under k ∧ Owns s.data
        (Function.update v (s₀.inode i).inum ((s.inode i).toDinode.resize 0))
        ((s₀.inode i).inum, x) c := by
      intro c
      rw [List.mem_singleton]
      constructor
      · rintro rfl
        refine ⟨.addr k, rfl, ?_, ?_, hne⟩
        · rw [Function.update_self, Dinode.resize_type, hself]
          exact htype
        · rw [Function.update_self]
          rfl
      · rintro ⟨x, hx, -, hptr, -⟩
        rw [Function.update_self] at hptr
        cases x with
        | addr l =>
          have hl : l = k := hx
          rw [← hptr, hl]
          rfl
        | entry j => exact absurd hx hk
    have hdetach := h.blocks.detach k hsize (List.nodup_singleton _) hmem
    rw [Function.update_self, Function.update_idem] at hdetach
    refine .bind (wp_bfree hC h.same hdetach) fun _ t ht => ?_
    subst ht
    have hsame : SameBut i s (s.setBitmap ((s.inode i).addrs k) false) :=
      .of_inode rfl rfl rfl rfl rfl rfl
    exact wp_forget hC (h.same.trans hsame) h.dinode h.data h.home k hdetach.free

theorem wp_itruncDirect (h : Cut sb exact i v s₀ s) (htype : (s₀.inode i).type ≠ .free)
    {ks : List (Fin (NDIRECT + 1))} (hks : ∀ k ∈ ks, k ≠ indirect) :
    C.Wp (fun _ t => Cut sb exact i v s₀ t ∧ (∀ k ∈ ks, (t.inode i).addrs k = 0) ∧
      ∀ k, (s.inode i).addrs k = 0 → (t.inode i).addrs k = 0) (itruncDirect i ks) s := by
  induction ks generalizing s with
  | nil => exact ⟨h, by simp, fun _ hk => hk⟩
  | cons k rest ih =>
    obtain ⟨hk, hrest⟩ := List.forall_mem_cons.mp hks
    refine .bind (wp_itruncAddr hC h htype hk) fun _ t ht => ?_
    obtain ⟨hcut, haddrs⟩ := ht
    refine (ih hcut hrest).mono fun _ u hu => ?_
    obtain ⟨hcut', hdone, hkeep⟩ := hu
    refine ⟨hcut', List.forall_mem_cons.mpr ⟨?_, hdone⟩, fun l hl => hkeep l ?_⟩
    · exact hkeep k (by rw [haddrs, Function.update_self])
    · rw [haddrs]
      by_cases hlk : l = k
      · rw [hlk, Function.update_self]
      · rw [Function.update_of_ne hlk, hl]

theorem wp_itruncIndirect (h : Cut sb exact i v s₀ s) (htype : (s₀.inode i).type ≠ .free) :
    C.Wp (fun _ t => Cut sb exact i v s₀ t ∧
      (t.inode i).addrs = Function.update (s.inode i).addrs indirect 0) (itruncIndirect i) s := by
  have hself : (s.inode i).type = (s₀.inode i).type := by rw [h.same.self]
  refine .look_bind fun _ => ⟨hC _ s rfl h.same, ?_⟩
  split
  · rename_i hzero
    refine ⟨h, ?_⟩
    rw [← hzero, Function.update_eq_self]
  · rename_i hne
    refine .look_bind fun _ => ⟨hC _ s rfl h.same, ?_⟩
    have hsize : (Function.update v (s₀.inode i).inum ((s.inode i).toDinode.resize 0)
        (s₀.inode i).inum).size = 0 := by
      rw [Function.update_self]
      rfl
    have howns : ∀ x c, Owns s.data
        (Function.update v (s₀.inode i).inum ((s.inode i).toDinode.resize 0))
        ((s₀.inode i).inum, x) c ↔
        ptr s.data ((s.inode i).toDinode.resize 0) x = c ∧ c ≠ 0 := by
      intro x c
      unfold Owns
      rw [Function.update_self]
      exact and_iff_right (by rwa [Dinode.resize_type, hself])
    have hentry : ∀ j : Fin NINDIRECT,
        ptr s.data ((s.inode i).toDinode.resize 0) (.entry j) =
          (s.data ((s.inode i).addrs indirect)).getUint j := fun j => if_neg hne
    have hmem : ∀ c, c ∈ entries (s.data ((s.inode i).addrs indirect)) ++
        [(s.inode i).addrs indirect] ↔ ∃ x : Pos, x.under indirect ∧ Owns s.data
        (Function.update v (s₀.inode i).inum ((s.inode i).toDinode.resize 0))
        ((s₀.inode i).inum, x) c := by
      intro c
      rw [List.mem_append, mem_entries, List.mem_singleton]
      constructor
      · rintro (⟨h0, j, hj⟩ | rfl)
        · exact ⟨.entry j, rfl, (howns _ c).mpr ⟨(hentry j).trans hj, h0⟩⟩
        · exact ⟨.addr indirect, rfl, (howns _ _).mpr ⟨rfl, hne⟩⟩
      · rintro ⟨x, hx, ho⟩
        obtain ⟨hptr, h0⟩ := (howns x c).mp ho
        cases x with
        | addr l =>
          have hl : l = indirect := hx
          subst hl
          exact .inr hptr.symm
        | entry j => exact .inl ⟨h0, j, (hentry j).symm.trans hptr⟩
    have hinj : ∀ x y c, Owns s.data
        (Function.update v (s₀.inode i).inum ((s.inode i).toDinode.resize 0))
        ((s₀.inode i).inum, x) c → Owns s.data
        (Function.update v (s₀.inode i).inum ((s.inode i).toDinode.resize 0))
        ((s₀.inode i).inum, y) c → x = y := fun x y c hx hy =>
      congrArg Prod.snd (h.blocks.alloc.inj _ _ c hx hy)
    have hnodup : (entries (s.data ((s.inode i).addrs indirect)) ++
        [(s.inode i).addrs indirect]).Nodup := by
      refine List.nodup_append'.mpr ⟨nodup_entries fun j j' hj heq => ?_, List.nodup_singleton _,
        fun c hc hc' => ?_⟩
      · have hx := hinj (.entry j) (.entry j') _ ((howns _ _).mpr ⟨hentry j, hj⟩)
          ((howns _ _).mpr ⟨(hentry j').trans heq.symm, hj⟩)
        exact Pos.entry.inj hx
      · rw [List.mem_singleton] at hc'
        subst hc'
        obtain ⟨h0, j, hj⟩ := mem_entries.mp hc
        have hx := hinj (.entry j) (.addr indirect) _ ((howns _ _).mpr ⟨(hentry j).trans hj, h0⟩)
          ((howns _ _).mpr ⟨rfl, hne⟩)
        cases hx
    have hdetach := h.blocks.detach indirect hsize hnodup hmem
    rw [Function.update_self, Function.update_idem] at hdetach
    refine .bind (wp_bfreeAll hC h.same hdetach) fun _ t ht => ?_
    obtain ⟨hblocks, hsame, hinode, hdinode, hdata, hhome⟩ := ht
    refine .bind (wp_bfree hC (h.same.trans hsame) hblocks) fun _ u hu => ?_
    subst hu
    have hfree := hblocks.free
    rw [← hinode] at hfree ⊢
    have hsame' : SameBut i t (t.setBitmap ((t.inode i).addrs indirect) false) :=
      .of_inode rfl rfl rfl rfl rfl rfl
    exact wp_forget hC (h.same.trans (hsame.trans hsame')) (hdinode.trans h.dinode)
      (hdata.trans h.data) (hhome.trans h.home) indirect hfree

-- The file is empty, in memory and on the disk.
theorem wp_itrunc (hview : v (s₀.inode i).inum = (s₀.inode i).toDinode)
    (htype : (s₀.inode i).type ≠ .free) (h : Blocks sb exact v [] s₀) :
    C.Wp (fun _ t => SameBut i s₀ t ∧ Resized C i s₀ ∧
      (t.inode i).toDinode = { (s₀.inode i).toDinode with size := 0, addrs := fun _ => 0 } ∧
      t.dinode = Function.update s₀.dinode (s₀.inode i).inum (t.inode i).toDinode ∧
      t.data = s₀.data ∧ t.home = s₀.home ∧
      Blocks sb exact (Function.update v (s₀.inode i).inum (t.inode i).toDinode) [] t)
      (itrunc i) s₀ := by
  have hks : ∀ k ∈ (List.finRange NDIRECT).map Fin.castSucc, k ≠ indirect := by
    intro k hk
    obtain ⟨l, -, rfl⟩ := List.mem_map.mp hk
    exact Fin.ne_of_val_ne (Nat.ne_of_lt l.isLt)
  refine .bind (wp_itruncDirect hC (.start hview htype h) htype hks) fun _ t ht => ?_
  obtain ⟨hcut, hdirect, -⟩ := ht
  refine .bind (wp_itruncIndirect hC hcut htype) fun _ u hu => ?_
  obtain ⟨hcut', haddrs⟩ := hu
  have hzero : (u.inode i).addrs = fun _ => 0 := by
    funext k
    rw [haddrs]
    by_cases hk : k = indirect
    · rw [hk, Function.update_self]
    · rw [Function.update_of_ne hk]
      have hlt : k.val < NDIRECT :=
        Nat.lt_of_le_of_ne (Nat.le_of_lt_succ k.isLt) (Fin.val_ne_of_ne hk)
      exact hdirect k (List.mem_map.mpr ⟨⟨k.val, hlt⟩, List.mem_finRange _, rfl⟩)
  refine .modify_bind fun hok => ⟨hC _ u (decide_eq_true rfl) hcut'.same, ?_⟩
  have hsame := hcut'.same.trans (.setSize i (fun _ => 0) u)
  have hmem : ((u.setInode i fun ip => { ip with size := 0 }).inode i).toDinode =
      (u.inode i).toDinode.resize 0 := by
    rw [Sys.setInode_self]
    rfl
  refine .modify fun _ => ⟨hC _ _ rfl hsame, hsame.trans (.iupdate i _),
    ⟨u, hcut'.same, hok⟩, hmem.trans ?_, ?_, hcut'.data, hcut'.home, ?_⟩
  · rw [hcut'.same.self, hzero]
    rfl
  · rw [← hcut'.dinode, ← hsame.inum]
    rfl
  · have hblocks := hcut'.blocks
    rw [← hmem] at hblocks
    exact hblocks.congr rfl rfl rfl

end Specs

end Xv6.Fs
