import Xv6.Fs.Rw
import Xv6.Fs.Session
import Mathlib.Data.List.Forall2

namespace Xv6.Lib

variable {α β γ δ : Type} {R : α → β → Prop} {S : γ → δ → Prop} {o : Option α} {o' : Option β}

theorem rel_bind {f : α → Option γ} {g : β → Option δ} (h : Option.Rel R o o')
    (hfg : ∀ a b, o = some a → o' = some b → R a b → Option.Rel S (f a) (g b)) :
    Option.Rel S (o.bind f) (o'.bind g) := by
  cases h with
  | none => exact .none
  | some hab => exact hfg _ _ rfl rfl hab

theorem rel_mono {R' : α → β → Prop} (h : Option.Rel R o o') (hR : ∀ a b, R a b → R' a b) :
    Option.Rel R' o o' := by
  cases h with
  | none => exact .none
  | some hab => exact .some (hR _ _ hab)

theorem exists_of_rel {a : α} (h : Option.Rel R o o') (ha : o = some a) :
    ∃ b, o' = some b ∧ R a b := by
  subst ha
  cases h with
  | some hab => exact ⟨_, rfl, hab⟩

theorem exists_of_rel' {b : β} (h : Option.Rel R o o') (hb : o' = some b) :
    ∃ a, o = some a ∧ R a b := by
  subst hb
  cases h with
  | some hab => exact ⟨_, rfl, hab⟩

end Xv6.Lib

namespace Xv6.Mkfs

open Fs Lib

-- What the kernel would have of the image, with inode inum as d in memory.
def Store.sys (m : Store) (v : Nat → Dinode) (inum : Nat) (d : Dinode) : Sys :=
  (boot ⟨v, fun b => decide (b < m.freeblock), m.data⟩).setInode rootSlot fun ip =>
    { ip with toDinode := d, inum := inum }

namespace Store

variable (m : Store) (v : Nat → Dinode) (inum : Nat) (d : Dinode)

@[simp] theorem sys_toDinode : ((m.sys v inum d).inode rootSlot).toDinode = d := by
  simp [sys]

@[simp] theorem sys_inum : ((m.sys v inum d).inode rootSlot).inum = inum := by
  simp [sys]

@[simp] theorem sys_data : (m.sys v inum d).data = m.data := rfl

@[simp] theorem sys_home : (m.sys v inum d).home = m.data := rfl

@[simp] theorem sys_dinode : (m.sys v inum d).dinode = v := rfl

@[simp] theorem sys_bitmap : (m.sys v inum d).bitmap = fun b => decide (b < m.freeblock) := rfl

-- The blocks that are not allocated yet are there, and cleared.
structure Fresh (m : Store) : Prop where
  data : ∀ b, m.freeblock ≤ b → m.data b = Block.zero
  le : m.freeblock ≤ FSSIZE

-- The same blocks of data. The sectors before them are left out of account.
structure Agree (m m' : Store) : Prop where
  data : ∀ b, nmeta ≤ b → m'.data b = m.data b
  freeinode : m'.freeinode = m.freeinode
  freeblock : m'.freeblock = m.freeblock

end Store

@[simp] theorem wsect_self (b : Nat) (blk : Block) (m : Store) : (wsect b blk m).data b = blk :=
  Function.update_self ..

theorem wsect_other {m : Store} {b c : Nat} (blk : Block) (h : c ≠ b) :
    (wsect b blk m).data c = m.data c := Function.update_of_ne h _ _

theorem nmeta_sb : sb.nmeta = nmeta := by decide

variable {m m' : Store} {v w : Nat → Dinode} {inum : Nat} {d d' : Dinode}

theorem sys_take (hm : m.Fresh) :
    (((m.sys v inum d).setBitmap m.freeblock true).setBlock m.freeblock Block.zero) =
      Store.sys { m with freeblock := m.freeblock + 1 } v inum d := by
  have hdata : Function.update m.data m.freeblock Block.zero = m.data := by
    rw [← hm.data m.freeblock (Nat.le_refl _), Function.update_eq_self]
  have hbitmap : Function.update (fun b => decide (b < m.freeblock)) m.freeblock true =
      fun b => decide (b < m.freeblock + 1) := by
    funext b
    by_cases hb : b = m.freeblock
    · simp [hb]
    · rw [Function.update_of_ne hb]
      exact decide_eq_decide.mpr (by omega)
  unfold Sys.setBitmap Sys.setBlock
  simp only [Store.sys_data, Store.sys_home, Store.sys_bitmap, hdata, hbitmap]
  rfl

theorem sys_setAddr (k : Fin (NDIRECT + 1)) (b : Nat) :
    setAddr rootSlot k b (m.sys v inum d) = m.sys v inum (d.setAddr k b) := by
  simp [setAddr, Store.sys, Sys.setInode, Dinode.setAddr]

theorem sys_setBlock (b : Nat) (blk : Block) :
    (m.sys v inum d).setBlock b blk = (wsect b blk m).sys v inum d := rfl

section Grow

variable (hview : w inum = d) (htype : d.type ≠ .free) (h : Blocks sb True w [] (m.sys v inum d))

include h in
theorem nmeta_le : nmeta ≤ m.freeblock := by
  by_contra hlt
  have hused := h.alloc.low m.freeblock (by rw [nmeta_sb]; omega)
  simp at hused

include hview htype h

theorem addr_bounds (k : Fin (NDIRECT + 1)) (hk : d.addrs k ≠ 0) :
    nmeta ≤ d.addrs k ∧ d.addrs k < m.freeblock := by
  obtain ⟨hlo, -, hused⟩ := h.alloc.owned (inum, .addr k) (d.addrs k)
    ⟨by rwa [hview], by rw [hview]; rfl, hk⟩
  rw [nmeta_sb] at hlo
  exact ⟨hlo, by simpa using hused⟩

variable (hm : m.Fresh)

include hm

theorem addr_grown (k : Fin (NDIRECT + 1)) (hlt : d.addrs k = 0 → m.freeblock < FSSIZE) :
    (∃ w', Grown sb True rootSlot w (m.sys v inum d) w'
      ((addr k d m).2.sys v inum (addr k d m).1)) ∧ (addr k d m).2.Fresh ∧
    (addr k d m).1.addrs k ≠ 0 := by
  have hfb := nmeta_le h
  have hpos : 0 < nmeta := by decide
  unfold addr
  split
  · rename_i hk
    have hgrown := Grown.setAddr (i := rootSlot) (by simpa using hview) (by simpa using htype) h
      (b := m.freeblock) (k := k) (by simpa using hk) (by simp) (hlt hk)
    rw [sys_take hm, sys_setAddr] at hgrown
    refine ⟨⟨_, hgrown⟩, ⟨fun b hb => hm.data b (Nat.le_of_succ_le hb), hlt hk⟩, ?_⟩
    show Function.update d.addrs k m.freeblock k ≠ 0
    rw [Function.update_self]
    omega
  · rename_i hk
    exact ⟨⟨w, .refl (by simpa using hview) h⟩, hm, hk⟩

theorem entry_grown {j : Fin NINDIRECT} {e : Nat × Store} (ha : d.addrs indirect ≠ 0)
    (he : entry (d.addrs indirect) j m = some e) (hlt : e.1 < FSSIZE) :
    Grown sb True rootSlot w (m.sys v inum d) w (e.2.sys v inum d) ∧ e.2.Fresh ∧
    ptr e.2.data d (.entry j) = e.1 ∧ e.1 ≠ 0 := by
  have hle := hm.le
  have hsize : FSSIZE < 2 ^ 32 := by decide
  obtain ⟨-, hused⟩ := addr_bounds hview htype h indirect ha
  obtain ⟨ind, hind, he⟩ := Option.bind_eq_some_iff.mp he
  rw [rsect] at hind
  split at hind
  · cases hind
    split at he
    · rename_i hj
      cases he
      have hval : ((m.data (d.addrs indirect)).putUint j m.freeblock).getUint j = m.freeblock := by
        rw [Block.getUint_putUint_same _ _ _ j.isLt]
        omega
      dsimp only at hlt ⊢
      rw [hval] at hlt ⊢
      have hgrown := Grown.setEntry (i := rootSlot) (by simpa using hview) (by simpa using htype) h
        (b := m.freeblock) (j := j) (by simpa using ha) (by simpa using hj) (by simp) hlt
      rw [sys_take hm, Store.sys_toDinode, sys_setBlock] at hgrown
      refine ⟨hgrown, ⟨fun b hb => ?_, hlt⟩, ?_, by omega⟩
      · have hb' : m.freeblock + 1 ≤ b := hb
        exact (Function.update_of_ne (by omega) _ _).trans (hm.data b (by omega))
      · rw [ptr, if_neg ha]
        simpa [wsect] using hval
    · rename_i hj
      cases he
      exact ⟨.refl (by simpa using hview) h, hm, by rw [ptr, if_neg ha], hj⟩
  · cases hind

theorem block_grown {fbn : Nat} {r : Nat × Dinode × Store} (hfbn : fbn < MAXFILE)
    (hr : block fbn d m = some r) (hlt : r.1 < FSSIZE) :
    (∃ w', Grown sb True rootSlot w (m.sys v inum d) w' (r.2.2.sys v inum r.2.1)) ∧
    r.2.2.Fresh ∧ blockAt r.2.2.data r.2.1 fbn = r.1 ∧ r.1 ≠ 0 := by
  rw [block] at hr
  split at hr
  · rename_i hdir
    cases hr
    have hpos : pos fbn = some (.addr ⟨fbn, Nat.lt_succ_of_lt hdir⟩) := dif_pos hdir
    obtain ⟨hgrown, hfresh, hne⟩ := addr_grown hview htype h hm ⟨fbn, Nat.lt_succ_of_lt hdir⟩
      fun hk => by simpa [addr, hk] using hlt
    exact ⟨hgrown, hfresh, by rw [blockAt_of_pos hpos]; rfl, hne⟩
  · rename_i hdir
    obtain ⟨e, he, hr⟩ := Option.bind_eq_some_iff.mp hr
    cases hr
    have hent : fbn - NDIRECT < NINDIRECT := by
      unfold MAXFILE at hfbn
      omega
    have hpos : pos fbn = some (.entry ⟨fbn - NDIRECT, hent⟩) := by
      rw [pos, dif_neg hdir, dif_pos hent]
    have hread : (addr indirect d m).1.addrs indirect < FSSIZE := by
      obtain ⟨ind, hind, -⟩ := Option.bind_eq_some_iff.mp he
      rw [rsect] at hind
      split at hind
      · assumption
      · cases hind
    obtain ⟨⟨w', hgrown⟩, hfresh, hne⟩ := addr_grown hview htype h hm indirect
      fun hk => by simpa [addr, hk] using hread
    have hview' : w' inum = (addr indirect d m).1 := by simpa using hgrown.view_self
    have htype' : (addr indirect d m).1.type ≠ .free := by
      have hty := hgrown.type
      simp only [Store.sys_toDinode] at hty
      rwa [hty]
    obtain ⟨hgrown', hfresh', hptr, hne'⟩ := entry_grown (j := ⟨fbn - NDIRECT, hent⟩) hview' htype'
      hgrown.blocks hfresh hne he hlt
    exact ⟨⟨w', hgrown.trans hgrown'⟩, hfresh', by rw [blockAt_of_pos hpos, hptr], hne'⟩

end Grow

theorem addr_same (k : Fin (NDIRECT + 1)) (d : Dinode) (m : Store) :
    (addr k d m).1 = { d with addrs := (addr k d m).1.addrs } ∧
    (addr k d m).2.data = m.data ∧ (addr k d m).2.freeinode = m.freeinode ∧
    ∀ l, l ≠ k → (addr k d m).1.addrs l = d.addrs l := by
  unfold addr
  split
  · exact ⟨rfl, rfl, rfl, fun l hl => Function.update_of_ne hl _ _⟩
  · exact ⟨rfl, rfl, rfl, fun _ _ => rfl⟩

theorem entry_same {b j : Nat} {e : Nat × Store} (he : entry b j m = some e) :
    (∀ c, c ≠ b → e.2.data c = m.data c) ∧ e.2.freeinode = m.freeinode := by
  obtain ⟨ind, -, he⟩ := Option.bind_eq_some_iff.mp he
  split at he
  · cases he
    exact ⟨fun c hc => Function.update_of_ne hc _ _, rfl⟩
  · cases he
    exact ⟨fun _ _ => rfl, rfl⟩

theorem block_same {fbn : Nat} {r : Nat × Dinode × Store} (hr : block fbn d m = some r) :
    r.2.1 = { d with addrs := r.2.1.addrs } ∧ r.2.2.freeinode = m.freeinode ∧
    ∀ l : Fin (NDIRECT + 1), l ≠ indirect → l.val ≠ fbn → r.2.1.addrs l = d.addrs l := by
  rw [block] at hr
  split at hr
  · cases hr
    obtain ⟨hself, -, hinode, hother⟩ := addr_same ⟨fbn, Nat.lt_succ_of_lt ‹_›⟩ d m
    exact ⟨hself, hinode, fun l _ hl => hother l fun heq => hl (congrArg Fin.val heq)⟩
  · obtain ⟨e, he, hr⟩ := Option.bind_eq_some_iff.mp hr
    cases hr
    obtain ⟨hself, -, hinode, hother⟩ := addr_same indirect d m
    exact ⟨hself, (entry_same he).2.trans hinode, fun l hl _ => hother l hl⟩

-- The blocks below nmeta make no difference, and stay as they are.
section Agree

variable (ha : m.Agree m')

include ha

theorem addr_agree (k : Fin (NDIRECT + 1)) (d : Dinode) :
    (addr k d m').1 = (addr k d m).1 ∧ (addr k d m).2.Agree (addr k d m').2 := by
  unfold addr
  rw [ha.freeblock]
  split
  · exact ⟨rfl, ha.data, ha.freeinode, rfl⟩
  · exact ⟨rfl, ha⟩

theorem wsect_agree (b : Nat) (blk : Block) : (wsect b blk m).Agree (wsect b blk m') := by
  refine ⟨fun c hc => ?_, ha.freeinode, ha.freeblock⟩
  show Function.update m'.data b blk c = Function.update m.data b blk c
  by_cases hcb : c = b
  · rw [hcb, Function.update_self, Function.update_self]
  · rw [Function.update_of_ne hcb, Function.update_of_ne hcb, ha.data c hc]

theorem rsect_agree {b : Nat} (hb : nmeta ≤ b) : rsect b m' = rsect b m := by
  unfold rsect
  rw [ha.data b hb]

theorem entry_agree {b : Nat} (hb : nmeta ≤ b) (j : Nat) :
    Option.Rel (fun e e' => e'.1 = e.1 ∧ e.2.Agree e'.2) (entry b j m) (entry b j m') := by
  unfold entry
  rw [rsect_agree ha hb, ha.freeblock]
  cases rsect b m with
  | none => exact .none
  | some ind =>
    show Option.Rel _ (if _ then _ else _) (if _ then _ else _)
    split
    · have hw := wsect_agree ha b (ind.putUint j m.freeblock)
      exact .some ⟨rfl, hw.data, hw.freeinode, rfl⟩
    · exact .some ⟨rfl, ha⟩

theorem block_agree {fbn : Nat} (hb : nmeta ≤ (addr indirect d m).1.addrs indirect) :
    Option.Rel (fun r r' => r'.1 = r.1 ∧ r'.2.1 = r.2.1 ∧ r.2.2.Agree r'.2.2)
      (block fbn d m) (block fbn d m') := by
  unfold block
  split
  · rename_i hdir
    obtain ⟨heq, hagree⟩ := addr_agree ha ⟨fbn, Nat.lt_succ_of_lt hdir⟩ d
    exact .some ⟨by rw [heq], heq, hagree⟩
  · obtain ⟨heq, hagree⟩ := addr_agree ha indirect d
    dsimp only
    rw [heq]
    refine rel_bind (entry_agree hagree hb _) fun e e' _ _ he => ?_
    exact .some ⟨he.1, rfl, he.2⟩

end Agree

-- iappend() of bs to inode inum, from the store m₀ on, has written tot bytes.
structure Appending (m₀ : Store) (v : Nat → Dinode) (inum : Nat) (bs : List UInt8) (tot : Nat)
    (d : Dinode) (m : Store) : Prop where
  written : ∃ w, Written sb True rootSlot v (m₀.sys v inum (v inum)) (v inum).size bs True tot w
    (m.sys v inum d)
  fresh : m.Fresh
  le : (v inum).size + tot ≤ MAXFILE * BSIZE
  -- No direct block comes after the last one that has bytes of the file.
  tight : ∀ l : Fin (NDIRECT + 1), l ≠ indirect → (v inum).size + tot ≤ l.val * BSIZE →
    d.addrs l = 0
  same : d = { v inum with addrs := d.addrs }
  freeinode : m.freeinode = m₀.freeinode

namespace Appending

variable {m₀ : Store} {bs : List UInt8} {tot n : Nat}

theorem blocks (h : Appending m₀ v inum bs tot d m) :
    ∃ w, w inum = d ∧ Blocks sb True w [] (m.sys v inum d) := by
  obtain ⟨w, hw⟩ := h.written
  exact ⟨w, by simpa using hw.view_self, hw.blocks⟩

theorem type (h : Appending m₀ v inum bs tot d m) : d.type = (v inum).type := by
  rw [h.same]

theorem indirect_le (h : Appending m₀ v inum bs tot d m) (ht : (v inum).type ≠ .free) :
    nmeta ≤ (addr indirect d m).1.addrs indirect := by
  obtain ⟨w, hview, hblocks⟩ := h.blocks
  unfold addr
  split
  · show nmeta ≤ Function.update d.addrs indirect m.freeblock indirect
    rw [Function.update_self]
    exact nmeta_le hblocks
  · rename_i hk
    exact (addr_bounds hview (by rwa [h.type]) hblocks indirect hk).1

section Round

variable (h : Appending m₀ v inum bs tot d m) (ht : (v inum).type ≠ .free)
  {r : Nat × Dinode × Store} (hfbn : ((v inum).size + tot) / BSIZE < MAXFILE)
  (hr : block (((v inum).size + tot) / BSIZE) d m = some r) (hlt : r.1 < FSSIZE)

include h ht hfbn hr hlt

theorem block_bounds : nmeta ≤ r.1 ∧ r.1 < r.2.2.freeblock := by
  obtain ⟨w, hview, hblocks⟩ := h.blocks
  obtain ⟨⟨w', hgrown⟩, -, hat, hne⟩ :=
    block_grown hview (by rwa [h.type]) hblocks h.fresh hfbn hr hlt
  have hview' : w' inum = r.2.1 := by simpa using hgrown.view_self
  have htype : (w' inum).type ≠ .free := by
    have hty := hgrown.type
    simp only [Store.sys_toDinode] at hty
    rwa [hview', hty, h.type]
  cases hx : pos (((v inum).size + tot) / BSIZE) with
  | none => exact absurd ((blockAt_of_none hx).symm.trans hat).symm hne
  | some x =>
    have hown : Owns r.2.2.data w' (inum, x) r.1 := by
      refine owns_blockAt htype hx ?_ hne
      rw [hview', hat]
    obtain ⟨hlo, -, hused⟩ := hgrown.blocks.alloc.owned _ _ hown
    rw [nmeta_sb] at hlo
    exact ⟨hlo, by simpa using hused⟩

theorem round (hpos : 0 < n) (hin : ((v inum).size + tot) % BSIZE + n ≤ BSIZE)
    (hn : tot + n ≤ bs.length) :
    Appending m₀ v inum bs (tot + n) r.2.1 (wsect r.1 ((r.2.2.data r.1).splice
      (((v inum).size + tot) % BSIZE) ((bs.drop tot).take n)) r.2.2) := by
  obtain ⟨w, hw⟩ := h.written
  have hview : w inum = d := by simpa using hw.view_self
  obtain ⟨⟨w', hgrown⟩, hfresh, hat, hne⟩ :=
    block_grown hview (by rwa [h.type]) hw.blocks h.fresh hfbn hr hlt
  obtain ⟨hself, hinode, hother⟩ := block_same hr
  have hview' : w' inum = r.2.1 := by simpa using hgrown.view_self
  have ht₀ : ((m₀.sys v inum (v inum)).inode rootSlot).type ≠ .free := by simpa using ht
  have hlen : ((bs.drop tot).take n).length = n := by
    rw [List.length_take, List.length_drop]
    omega
  have hused := (h.block_bounds ht hfbn hr hlt).2
  have hdiv := Nat.div_add_mod ((v inum).size + tot) BSIZE
  refine ⟨⟨w', (hw.grown ht₀ hgrown).round ht₀ (b := r.1) (m := n) ?_ hne hin rfl rfl
    (fun c hc => Function.update_of_ne hc _ _) (Nat.le_refl _) fun _ => ⟨rfl, rfl, hlen⟩⟩,
    ⟨fun b hb => ?_, hfresh.le⟩, ?_, fun l hl hsize => ?_, ?_, ?_⟩
  · rw [Store.sys_inum, hview']
    exact hat
  · have hb' : r.2.2.freeblock ≤ b := hb
    exact (Function.update_of_ne (by omega) _ _).trans (hfresh.data b hb')
  · have hmul := Nat.mul_le_mul_right BSIZE (Nat.succ_le_of_lt hfbn)
    rw [Nat.succ_mul, Nat.mul_comm] at hmul
    omega
  · have hold := h.tight l hl (by omega)
    rw [hother l hl, hold]
    rintro heq
    rw [heq, Nat.mul_comm] at hsize
    omega
  · rw [hself, h.same]
  · exact hinode.trans h.freeinode

end Round

end Appending

-- The sectors below nmeta are left as they are.
def Store.Frame (m m' : Store) : Prop := ∀ b, b < nmeta → m'.data b = m.data b

theorem block_frame {fbn : Nat} {r : Nat × Dinode × Store} (hr : block fbn d m = some r)
    (hb : nmeta ≤ (addr indirect d m).1.addrs indirect) : m.Frame r.2.2 := by
  intro b hlt
  rw [block] at hr
  split at hr
  · cases hr
    exact congrFun (addr_same _ d m).2.1 b
  · obtain ⟨e, he, hr⟩ := Option.bind_eq_some_iff.mp hr
    cases hr
    exact ((entry_same he).1 b (by omega)).trans (congrFun (addr_same _ d m).2.1 b)

section Loop

variable {m₀ : Store} {bs : List UInt8} {tot : Nat}

-- The loop of iappend() on two images with the same blocks of data, of which the
-- first is followed.
theorem iappendLoop_spec (ht : (v inum).type ≠ .free) {fuel : Nat} (hfuel : bs.length - tot ≤ fuel)
    (htot : tot ≤ bs.length) (h : Appending m₀ v inum bs tot d m) (ha : m.Agree m') :
    Option.Rel (fun r r' => r'.1 = r.1 ∧ r.2.Agree r'.2 ∧ m'.Frame r'.2 ∧
        Appending m₀ v inum bs bs.length r.1 r.2)
      (iappendLoop d (bs.drop tot) (chunks fuel ((v inum).size + tot) (bs.length - tot)) m)
      (iappendLoop d (bs.drop tot) (chunks fuel ((v inum).size + tot) (bs.length - tot)) m') := by
  induction fuel generalizing tot d m m' with
  | zero =>
    have hlen : tot = bs.length := by omega
    exact .some ⟨rfl, ha, fun _ _ => rfl, hlen ▸ h⟩
  | succ fuel ih =>
    by_cases hn : bs.length - tot = 0
    · have hlen : tot = bs.length := by omega
      rw [hn, chunks_zero]
      exact .some ⟨rfl, ha, fun _ _ => rfl, hlen ▸ h⟩
    · rw [chunks_succ hn]
      obtain ⟨hpos, hle, hin⟩ := round_bound ((v inum).size + tot) hn
      generalize min (bs.length - tot) (BSIZE - ((v inum).size + tot) % BSIZE) = n at *
      rw [iappendLoop, iappendLoop]
      split
      · rename_i hfbn
        have hind := h.indirect_le ht
        refine rel_bind (block_agree ha hind) fun r r' hr hr' hrel => ?_
        obtain ⟨hx, hd, hagree⟩ := hrel
        have hframe : m'.Frame r'.2.2 := block_frame hr' (by
          rw [(addr_agree ha indirect d).1]
          exact hind)
        rw [hx, hd]
        by_cases hlt : r.1 < FSSIZE
        · have hge := (h.block_bounds ht hfbn hr hlt).1
          rw [rsect_agree hagree hge, rsect, if_pos hlt]
          have hround := h.round ht hfbn hr hlt hpos hin (by omega)
          have hnext := ih (by omega) (by omega) hround (wsect_agree hagree r.1 _)
          rw [← Nat.add_assoc, ← Nat.sub_sub, ← List.drop_drop] at hnext
          refine rel_mono hnext fun e e' he => ⟨he.1, he.2.1, fun b hb => ?_, he.2.2.2⟩
          refine (he.2.2.1 b hb).trans ?_
          exact (Function.update_of_ne (by omega) _ _).trans (hframe b hb)
        · rw [rsect, rsect, if_neg hlt, if_neg hlt]
          exact .none
      · exact .none

end Loop

-- The bytes of inode n in the image.
def Mk.contents (m : Mk) (n : Nat) : List UInt8 := (boot m.image).contents n

-- The inodes have blocks of their own, and the blocks that they need.
structure Mk.Ok (m : Mk) : Prop where
  blocks : Blocks sb True m.dinode [] (boot m.image)
  fresh : m.toStore.Fresh
  tight : ∀ n (l : Fin (NDIRECT + 1)), l ≠ indirect → (m.dinode n).size ≤ l.val * BSIZE →
    (m.dinode n).addrs l = 0

-- iappend() of bs to inode inum.
structure Appended (m : Mk) (inum : Nat) (bs : List UInt8) (m' : Mk) : Prop where
  ok : m'.Ok
  freeinode : m'.freeinode = m.freeinode
  dinode : ∃ addrs, m'.dinode = Function.update m.dinode inum
    { m.dinode inum with size := (m.dinode inum).size + bs.length, addrs := addrs }
  contents : m'.contents inum = m.contents inum ++ bs
  others : ∀ n, n ≠ inum → (m.dinode n).type ≠ .free → m'.contents n = m.contents n

theorem Mk.Ok.appending {m : Mk} (h : m.Ok) (ht : (m.dinode inum).type ≠ .free) (bs : List UInt8) :
    Appending m.toStore m.dinode inum bs 0 (m.dinode inum) m.toStore := by
  refine ⟨⟨m.dinode, .start (by simp) (h.blocks.congr rfl rfl rfl)⟩, h.fresh, ?_, fun l hl hsize =>
    h.tight inum l hl hsize, rfl, rfl⟩
  exact h.blocks.small inum ht

theorem Appending.finish {m : Mk} {bs : List UInt8} {r : Dinode × Store} (hok : m.Ok)
    (ht : (m.dinode inum).type ≠ .free)
    (h : Appending m.toStore m.dinode inum bs bs.length r.1 r.2) :
    Appended m inum bs (winode inum { r.1 with size := (m.dinode inum).size + bs.length }
      { m with toStore := r.2 }) := by
  obtain ⟨w, hw⟩ := h.written
  have hself := h.same
  have hsize : r.1.size = (m.dinode inum).size := by rw [hself]
  have hi : InSlot (m.toStore.sys m.dinode inum (m.dinode inum)) rootSlot inum :=
    ⟨by simp, by simp, ht⟩
  have hsame : SameBut rootSlot (m.toStore.sys m.dinode inum (m.dinode inum))
      (r.2.sys m.dinode inum (r.1.resize ((m.dinode inum).size + bs.length))) := by
    refine ⟨rfl, rfl, rfl, rfl, fun j hj => ?_, ?_, fun _ _ => rfl⟩
    · unfold Store.sys
      rw [Sys.setInode_other _ _ hj, Sys.setInode_other _ _ hj]
      rfl
    · unfold Store.sys
      rw [Sys.setInode_self, Sys.setInode_self, hself]
      rfl
  have hwrote := hw.finish (n := bs.length) (by simpa using ht) (by simp) (Nat.le_refl _) h.le
    (fun _ hlt => absurd hlt (Nat.lt_irrefl _)) hsame rfl rfl rfl rfl (by simp [hsize])
  rw [Store.sys_inum, Store.sys_toDinode] at hwrote
  have hcontents := hwrote.contents hi (Nat.le_refl _) (Nat.le_refl _)
  have hlen : (m.contents inum).length = (m.dinode inum).size := length_contents ..
  have hblocks := Wrote.blocks_self (s := m.toStore.sys m.dinode inum (m.dinode inum)) hwrote
  refine ⟨⟨hblocks.congr rfl rfl rfl, h.fresh, fun n l hl hle => ?_⟩, h.freeinode,
    ⟨r.1.addrs, ?_⟩, ?_, fun n hn htn => ?_⟩
  · show (Function.update m.dinode inum _ n).addrs l = 0
    have hle' : (Function.update m.dinode inum (r.1.resize ((m.dinode inum).size + bs.length))
      n).size ≤ l.val * BSIZE := hle
    by_cases hn : n = inum
    · subst hn
      rw [Function.update_self] at hle' ⊢
      exact h.tight l hl hle'
    · rw [Function.update_of_ne hn] at hle' ⊢
      exact hok.tight n l hl hle'
  · show Function.update m.dinode inum _ = _
    rw [hself]
  · refine Eq.trans hcontents ?_
    have hbase : (m.toStore.sys m.dinode inum (m.dinode inum)).contents inum = m.contents inum := rfl
    rw [hbase, Store.sys_dinode, ← hlen, List.take_length, patch_length]
  · have hother : ((r.2.sys m.dinode inum (r.1.resize ((m.dinode inum).size + bs.length))).setDinode
        inum (r.1.resize ((m.dinode inum).size + bs.length))).dinode n = m.dinode n :=
      Function.update_of_ne hn _ _
    have hcontent := hwrote.content_other hi hn htn
    have heq : ((r.2.sys m.dinode inum (r.1.resize ((m.dinode inum).size + bs.length))).setDinode
        inum (r.1.resize ((m.dinode inum).size + bs.length))).contents n = m.contents n := by
      unfold Sys.contents
      rw [hother]
      exact congrArg (bytesOf · 0 (m.dinode n).size) hcontent
    exact heq

end Xv6.Mkfs
