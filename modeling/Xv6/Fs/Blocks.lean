import Xv6.Fs.Nodes
import Xv6.Lib.Serial

namespace Xv6.Fs

open Lib

def Dinode.resize (d : Dinode) (size : Nat) : Dinode := { d with size := size }

@[simp] theorem Dinode.resize_type (d : Dinode) (size : Nat) : (d.resize size).type = d.type := rfl

@[simp] theorem Dinode.resize_size (d : Dinode) (size : Nat) : (d.resize size).size = size := rfl

@[simp] theorem Dinode.resize_addrs (d : Dinode) (size : Nat) :
    (d.resize size).addrs = d.addrs := rfl

-- Every block below the size of the file is there.
def Mapped (data : Nat → Block) (d : Dinode) : Prop :=
  ∀ bn, bn * BSIZE < d.size → blockAt data d bn ≠ 0

-- The blocks of the disk, where v is what the kernel has each inode as. Those
-- of L belong to no inode, yet or any more. With exact, none is leaked.
structure Blocks (sb : Superblock) (exact : Prop) (v : Nat → Dinode) (L : List Nat) (s : Sys) :
    Prop where
  alloc : Alloc sb.nmeta sb.size exact s.bitmap (Owns s.data v) L
  mapped : ∀ n, (v n).type ≠ .free → Mapped s.data (v n)
  small : ∀ n, (v n).type ≠ .free → (v n).size ≤ MAXFILE * BSIZE
  clean : ∀ n, (v n).type ≠ .free → (v n).addrs indirect ≠ 0 →
    s.home ((v n).addrs indirect) = s.data ((v n).addrs indirect)

-- No block is free.
def Full (sb : Superblock) (s : Sys) : Prop := ∀ b, b < sb.size → s.bitmap b = true

-- Nothing but the disk and the size and blocks of the inode in slot i differs.
structure SameBut (i : Slot) (s t : Sys) : Prop where
  file : t.file = s.file
  pipe : t.pipe = s.pipe
  proc : t.proc = s.proc
  refs : t.refs = s.refs
  other : ∀ j, j ≠ i → t.inode j = s.inode j
  self : t.inode i = { s.inode i with size := (t.inode i).size, addrs := (t.inode i).addrs }
  dinode : ∀ n, n ≠ (s.inode i).inum → t.dinode n = s.dinode n

namespace SameBut

variable {i : Slot} {s t u : Sys}

theorem refl (i : Slot) (s : Sys) : SameBut i s s :=
  ⟨rfl, rfl, rfl, rfl, fun _ _ => rfl, rfl, fun _ _ => rfl⟩

theorem inum (h : SameBut i s t) : (t.inode i).inum = (s.inode i).inum := by
  rw [h.self]

theorem trans (h : SameBut i s t) (h' : SameBut i t u) : SameBut i s u := by
  refine ⟨h'.file.trans h.file, h'.pipe.trans h.pipe, h'.proc.trans h.proc, h'.refs.trans h.refs,
    fun j hj => (h'.other j hj).trans (h.other j hj), ?_, fun n hn => ?_⟩
  · have hself := h'.self
    rw [h.self] at hself
    exact hself
  · exact (h'.dinode n (by rwa [h.inum])).trans (h.dinode n hn)

theorem of_inode (hfile : t.file = s.file) (hpipe : t.pipe = s.pipe) (hproc : t.proc = s.proc)
    (hrefs : t.refs = s.refs) (hinode : t.inode = s.inode) (hdinode : t.dinode = s.dinode) :
    SameBut i s t :=
  ⟨hfile, hpipe, hproc, hrefs, fun _ _ => by rw [hinode], by rw [hinode],
    fun _ _ => by rw [hdinode]⟩

theorem setAddr (i : Slot) (k : Fin (NDIRECT + 1)) (b : Nat) (s : Sys) :
    SameBut i s (setAddr i k b s) := by
  refine ⟨rfl, rfl, rfl, rfl, fun j hj => Sys.setInode_other s _ hj, ?_, fun _ _ => rfl⟩
  unfold Fs.setAddr
  rw [Sys.setInode_self]

theorem setSize (i : Slot) (f : Nat → Nat) (s : Sys) :
    SameBut i s (s.setInode i fun ip => { ip with size := f ip.size }) := by
  refine ⟨rfl, rfl, rfl, rfl, fun j hj => Sys.setInode_other s _ hj, ?_, fun _ _ => rfl⟩
  rw [Sys.setInode_self]

theorem iupdate (i : Slot) (s : Sys) :
    SameBut i s (s.setDinode (s.inode i).inum (s.inode i).toDinode) :=
  ⟨rfl, rfl, rfl, rfl, fun _ _ => rfl, rfl, fun _ hn => Function.update_of_ne hn _ _⟩

end SameBut

theorem nmeta_pos (sb : Superblock) : 0 < sb.nmeta := by
  unfold Superblock.nmeta
  exact Nat.lt_of_lt_of_le (Nat.succ_pos _) (Nat.le_add_left _ _)

namespace Blocks

variable {sb : Superblock} {exact : Prop} {v : Nat → Dinode} {L : List Nat} {s t : Sys}
  {n b bn : Nat}

theorem not_owned (h : Blocks sb exact v L s) (hb : b ∈ L) (o : Nat × Pos) :
    ¬ Owns s.data v o b :=
  (h.alloc.apart b hb).2.2.2 o

theorem loose_ne_zero (h : Blocks sb exact v L s) (hb : b ∈ L) : b ≠ 0 := by
  have hlo := (h.alloc.apart b hb).1
  have := nmeta_pos sb
  omega

theorem loose_lt (h : Blocks sb exact v L s) (hb : b ∈ L) : b < 2 ^ 32 :=
  (h.alloc.apart b hb).2.1.trans sb.size_lt

theorem loose_addr (h : Blocks sb exact v L s) (hb : b ∈ L) (hn : (v n).type ≠ .free)
    (k : Fin (NDIRECT + 1)) : (v n).addrs k ≠ b :=
  fun heq => h.not_owned hb (n, .addr k) ⟨hn, heq, h.loose_ne_zero hb⟩

theorem owner (h : Blocks sb exact v L s) (hn : (v n).type ≠ .free) (ha : (v n).addrs indirect ≠ 0)
    (o : Nat × Pos) (ho : Owns s.data v o ((v n).addrs indirect)) : o = (n, .addr indirect) :=
  h.alloc.inj o _ _ ho ⟨hn, rfl, ha⟩

theorem congr (h : Blocks sb exact v L s) (hbitmap : t.bitmap = s.bitmap) (hdata : t.data = s.data)
    (hhome : t.home = s.home) : Blocks sb exact v L t := by
  refine ⟨?_, ?_, h.small, ?_⟩
  · rw [hbitmap, hdata]
    exact h.alloc
  · rw [hdata]
    exact h.mapped
  · rw [hdata, hhome]
    exact h.clean

theorem take (h : Blocks sb exact v L s) (hfree : s.bitmap b = false) (hb : b < sb.size) :
    Blocks sb exact v (b :: L) ((s.setBitmap b true).setBlock b Block.zero) := by
  have hlo := h.alloc.lo_le hfree
  have hpos := nmeta_pos sb
  have hb0 : b ≠ 0 := by omega
  have hne : ∀ n k, (v n).type ≠ .free → (v n).addrs k ≠ b := fun n k hn heq =>
    h.alloc.not_owned hfree (n, .addr k) ⟨hn, heq, hb0⟩
  refine ⟨?_, fun n hn bn hbn => ?_, h.small, fun n hn ha => ?_⟩
  · exact (h.alloc.take hfree hb).congr
      (owns_update Block.zero (fun n => h.alloc.not_owned hfree _) hb0)
  · have hsame : blockAt (Function.update s.data b Block.zero) (v n) bn = blockAt s.data (v n) bn :=
      blockAt_update Block.zero bn (hne n indirect hn)
    exact fun h0 => h.mapped n hn bn hbn (hsame.symm.trans h0)
  · have hdata : ((s.setBitmap b true).setBlock b Block.zero).data ((v n).addrs indirect) =
        s.data ((v n).addrs indirect) := Function.update_of_ne (hne n indirect hn) _ _
    have hhome : ((s.setBitmap b true).setBlock b Block.zero).home ((v n).addrs indirect) =
        s.home ((v n).addrs indirect) := Function.update_of_ne (hne n indirect hn) _ _
    rw [hdata, hhome]
    exact h.clean n hn ha

theorem nodes_take (h : Blocks sb exact v L s) (hfree : s.bitmap b = false) :
    nodes v ((s.setBitmap b true).setBlock b Block.zero).data = nodes v s.data := by
  have hlo := h.alloc.lo_le hfree
  have hpos := nmeta_pos sb
  have hb0 : b ≠ 0 := by omega
  funext n
  unfold nodes node
  split
  · rfl
  · rename_i hn
    have hcontent : content (Function.update s.data b Block.zero) (v n) = content s.data (v n) :=
      content_update Block.zero hn hb0 fun x => h.alloc.not_owned hfree (n, x)
    have hdata : ((s.setBitmap b true).setBlock b Block.zero).data =
        Function.update s.data b Block.zero := rfl
    rw [hdata, hcontent]

-- A cleared block becomes one of the addresses of an inode.
theorem setAddr (h : Blocks sb exact v (b :: L) s) (k : Fin (NDIRECT + 1))
    (hn : (v n).type ≠ .free) (hk : (v n).addrs k = 0) (hdata : s.data b = Block.zero)
    (hhome : s.home b = Block.zero) :
    Blocks sb exact (Function.update v n ((v n).setAddr k b)) L s := by
  have hb0 := h.loose_ne_zero (List.mem_cons_self ..)
  refine ⟨?_, fun m hm => ?_, fun m hm => ?_, fun m hm ha => ?_⟩
  · refine h.alloc.attach (n, .addr k) (fun c ho => ?_) (owns_setAddr k hn hk hb0 hdata)
    exact ho.2.2 (ho.2.1.symm.trans hk)
  · by_cases hmn : m = n
    · subst hmn
      rw [Function.update_self]
      intro bn hbn
      by_cases hpos : pos bn = some (.addr k)
      · rw [blockAt_of_pos hpos, ptr_setAddr_self]
        exact hb0
      · rw [blockAt_setAddr k hk hdata hpos]
        exact h.mapped m hn bn hbn
    · rw [Function.update_of_ne hmn] at hm ⊢
      exact h.mapped m hm
  · by_cases hmn : m = n
    · subst hmn
      rw [Function.update_self]
      exact h.small m hn
    · rw [Function.update_of_ne hmn] at hm ⊢
      exact h.small m hm
  · by_cases hmn : m = n
    · subst hmn
      rw [Function.update_self] at ha ⊢
      by_cases hki : k = indirect
      · subst hki
        simp [Dinode.setAddr, hdata, hhome]
      · have hsame : ((v m).setAddr k b).addrs indirect = (v m).addrs indirect :=
          Function.update_of_ne (Ne.symm hki) _ _
        rw [hsame] at ha ⊢
        exact h.clean m hn ha
    · rw [Function.update_of_ne hmn] at hm ha ⊢
      exact h.clean m hm ha

-- A cleared block becomes an entry of the indirect block of an inode.
theorem setEntry (h : Blocks sb exact v (b :: L) s) {j : Fin NINDIRECT}
    (hn : (v n).type ≠ .free) (ha : (v n).addrs indirect ≠ 0)
    (hj : (s.data ((v n).addrs indirect)).getUint j = 0) :
    Blocks sb exact v L (s.setBlock ((v n).addrs indirect)
      ((s.data ((v n).addrs indirect)).putUint j b)) := by
  have hmem : b ∈ b :: L := List.mem_cons_self ..
  have hb0 := h.loose_ne_zero hmem
  have hlt := h.loose_lt hmem
  have howner := h.owner hn ha
  refine ⟨?_, fun m hm bn hbn => ?_, h.small, fun m hm hind => ?_⟩
  · refine h.alloc.attach (n, .entry j) (fun c ho => ?_)
      (owns_setEntry hn ha hj hlt howner hb0)
    have hptr : ptr s.data (v n) (.entry j) = 0 := by simp [ptr, hj]
    exact ho.2.2 (ho.2.1.symm.trans hptr)
  · have hold := h.mapped m hm bn hbn
    cases hx : pos bn with
    | none => exact absurd (blockAt_of_none hx) hold
    | some x =>
      rw [blockAt_of_pos hx] at hold ⊢
      by_cases hmn : m = n
      · subst hmn
        have hxj : x ≠ .entry j := by
          rintro rfl
          exact hold (by simp [ptr, hj])
        exact fun h0 => hold ((ptr_setEntry_other hxj).symm.trans h0)
      · have hne := addrs_ne_of_owner ha howner hm hmn
        exact fun h0 => hold ((ptr_update _ x hne).symm.trans h0)
  · by_cases heq : (v m).addrs indirect = (v n).addrs indirect
    · rw [heq]
      simp [Sys.setBlock]
    · have hdata := Function.update_of_ne heq ((s.data ((v n).addrs indirect)).putUint j b) s.data
      have hhome := Function.update_of_ne heq ((s.data ((v n).addrs indirect)).putUint j b) s.home
      exact hhome.trans ((h.clean m hm hind).trans hdata.symm)

theorem set {d : Dinode} (h : Blocks sb exact v L s) (haddrs : d.addrs = (v n).addrs)
    (htype : d.type = .free ↔ (v n).type = .free)
    (hmapped : d.type ≠ .free → Mapped s.data d) (hsmall : d.type ≠ .free → d.size ≤ MAXFILE * BSIZE) :
    Blocks sb exact (Function.update v n d) L s := by
  refine ⟨h.alloc.congr (owns_set haddrs htype), fun m hm => ?_, fun m hm => ?_, fun m hm ha => ?_⟩
  · by_cases hmn : m = n
    · rw [hmn, Function.update_self] at hm ⊢
      exact hmapped hm
    · rw [Function.update_of_ne hmn] at hm ⊢
      exact h.mapped m hm
  · by_cases hmn : m = n
    · rw [hmn, Function.update_self] at hm ⊢
      exact hsmall hm
    · rw [Function.update_of_ne hmn] at hm ⊢
      exact h.small m hm
  · by_cases hmn : m = n
    · rw [hmn, Function.update_self] at hm ha ⊢
      rw [haddrs] at ha ⊢
      exact h.clean n (fun hfree => hm (htype.mpr hfree)) ha
    · rw [Function.update_of_ne hmn] at hm ha ⊢
      exact h.clean m hm ha

-- An inode without blocks comes in place of one.
theorem assign {d : Dinode} (h : Blocks sb exact v L s)
    (hold : (v n).type = .free ∨ (v n).addrs = fun _ => 0) (hd : d.addrs = fun _ => 0)
    (hsize : d.size = 0) : Blocks sb exact (Function.update v n d) L s := by
  have hown : ∀ o b, Owns s.data (Function.update v n d) o b ↔ Owns s.data v o b := by
    rintro ⟨m, x⟩ b
    by_cases hmn : m = n
    · subst hmn
      constructor
      · rintro ⟨-, hptr, hb⟩
        rw [Function.update_self, ptr_of_zero hd] at hptr
        exact absurd hptr.symm hb
      · rintro ⟨hm, hptr, hb⟩
        rcases hold with hfree | hzero
        · exact absurd hfree hm
        · rw [ptr_of_zero hzero] at hptr
          exact absurd hptr.symm hb
    · simp only [Owns, Function.update_of_ne hmn]
  refine ⟨h.alloc.congr hown, fun m hm bn hbn => ?_, fun m hm => ?_, fun m hm ha => ?_⟩
  · by_cases hmn : m = n
    · rw [hmn, Function.update_self, hsize] at hbn
      exact absurd hbn (Nat.not_lt_zero _)
    · rw [Function.update_of_ne hmn] at hm hbn ⊢
      exact h.mapped m hm bn hbn
  · by_cases hmn : m = n
    · rw [hmn, Function.update_self, hsize]
      exact Nat.zero_le _
    · rw [Function.update_of_ne hmn] at hm ⊢
      exact h.small m hm
  · by_cases hmn : m = n
    · rw [hmn, Function.update_self, hd] at ha
      exact absurd rfl ha
    · rw [Function.update_of_ne hmn] at hm ha ⊢
      exact h.clean m hm ha

theorem evict (h : Blocks sb exact v L s) (b : Nat) :
    Blocks sb exact v L (s.setData b (s.home b)) := by
  have hptr : ∀ m, (v m).type ≠ .free → ∀ x,
      ptr (Function.update s.data b (s.home b)) (v m) x = ptr s.data (v m) x := by
    intro m hm x
    by_cases hb : (v m).addrs indirect = b
    · cases x with
      | addr k => rfl
      | entry j =>
        rw [ptr, ptr, hb, Function.update_self]
        by_cases hb0 : b = 0
        · rw [if_pos hb0, if_pos hb0]
        · rw [← hb, h.clean m hm (by rw [hb]; exact hb0)]
    · exact ptr_update _ x hb
  refine ⟨h.alloc.congr fun o c => ?_, fun m hm bn hbn => ?_, h.small, fun m hm ha => ?_⟩
  · constructor
    · rintro ⟨ho, hc, hc0⟩
      exact ⟨ho, (hptr o.1 ho o.2).symm.trans hc, hc0⟩
    · rintro ⟨ho, hc, hc0⟩
      exact ⟨ho, (hptr o.1 ho o.2).trans hc, hc0⟩
  · have hold := h.mapped m hm bn hbn
    cases hx : pos bn with
    | none => exact absurd (blockAt_of_none hx) hold
    | some x =>
      rw [blockAt_of_pos hx] at hold ⊢
      rw [Sys.setData, hptr m hm x]
      exact hold
  · show s.home _ = Function.update s.data b (s.home b) _
    by_cases hb : (v m).addrs indirect = b
    · rw [hb, Function.update_self]
    · rw [Function.update_of_ne hb]
      exact h.clean m hm ha

-- A write to a block of the file, logged or not.
section Write

variable (h : Blocks sb exact v L s) (hn : (v n).type ≠ .free)
  (hb : blockAt s.data (v n) bn = b) (hb0 : b ≠ 0)

include h hn hb hb0

theorem exists_pos : ∃ x, pos bn = some x ∧ ∀ o, Owns s.data v o b → o = (n, x) := by
  cases hx : pos bn with
  | none => exact absurd (hb.symm.trans (blockAt_of_none hx)) hb0
  | some x => exact ⟨x, rfl, fun o ho => h.alloc.inj _ _ b ho (owns_blockAt hn hx hb hb0)⟩

theorem indirect_ne {m : Nat} (hm : (v m).type ≠ .free) : (v m).addrs indirect ≠ b := by
  obtain ⟨x, hx, howner⟩ := h.exists_pos hn hb hb0
  intro heq
  have hown := howner (m, .addr indirect) ⟨hm, heq, hb0⟩
  exact pos_ne_indirect bn (hx.trans (congrArg some (congrArg Prod.snd hown).symm))

theorem write (blk : Block) (hbitmap : t.bitmap = s.bitmap)
    (hdata : t.data = Function.update s.data b blk) (hhome : ∀ c, c ≠ b → t.home c = s.home c) :
    Blocks sb exact v L t := by
  have hind : ∀ m, (v m).type ≠ .free → (v m).addrs indirect ≠ b :=
    fun m hm => h.indirect_ne hn hb hb0 hm
  refine ⟨?_, fun m hm k hk => ?_, h.small, fun m hm ha => ?_⟩
  · rw [hbitmap, hdata]
    exact h.alloc.congr (owns_update blk (fun m ho => hind m ho.1 ho.2.1) hb0)
  · rw [hdata, blockAt_update blk k (hind m hm)]
    exact h.mapped m hm k hk
  · rw [hdata, hhome _ (hind m hm), Function.update_of_ne (hind m hm)]
    exact h.clean m hm ha

theorem nodes_write (blk : Block) :
    nodes v (Function.update s.data b blk) = Function.update (nodes v s.data) n
      { nodes v s.data n with content := Function.update (content s.data (v n)) bn blk } := by
  obtain ⟨x, hx, howner⟩ := h.exists_pos hn hb hb0
  exact Fs.nodes_write blk hn hx hb hb0 howner

end Write

end Blocks

end Xv6.Fs
