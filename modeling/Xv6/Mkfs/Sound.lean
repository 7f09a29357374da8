import Xv6.Fs.Rw
import Xv6.Mkfs.Refine

namespace Xv6.Mkfs

open Fs Lib

-- The inodes that mkfs has written.
def Store.wrote (m : Store) (n : Nat) : Prop := 0 < n ∧ n < m.freeinode

-- What the kernel relies on in an image.
structure Store.Sound (m : Store) : Prop where
  inum : ∀ n, m.wrote n → n < sb.ninodes
  area : ∀ n x, m.wrote n → ptr m.data (m.image.dinode n) x ≠ 0 →
    nmeta ≤ ptr m.data (m.image.dinode n) x ∧ ptr m.data (m.image.dinode n) x < sb.size
  once : ∀ n x n' x', m.wrote n → m.wrote n' → ptr m.data (m.image.dinode n) x ≠ 0 →
    ptr m.data (m.image.dinode n) x = ptr m.data (m.image.dinode n') x' → n = n' ∧ x = x'
  bitmap : ∀ b, b < sb.size → (m.image.bitmap b = true ↔ b < m.freeblock)
  mapped : ∀ n, m.wrote n → Mapped m.data (m.image.dinode n)

-- mkfs counts the files.
section Count

variable {m r : Store} {inum : Nat}

theorem freeinode_loop {d : Dinode} {bs : List UInt8} {cs : List (Nat × Nat)}
    {r : Dinode × Store} (h : iappendLoop d bs cs m = some r) : r.2.freeinode = m.freeinode := by
  induction cs generalizing d bs m with
  | nil =>
    cases h
    rfl
  | cons c rest ih =>
    rw [iappendLoop] at h
    split at h
    · obtain ⟨e, he, h⟩ := Option.bind_eq_some_iff.mp h
      obtain ⟨buf, -, h⟩ := Option.bind_eq_some_iff.mp h
      exact (ih h).trans (block_same he).2.1
    · cases h

theorem freeinode_winode {d : Dinode} (h : Sector.winode inum d m = some r) :
    r.freeinode = m.freeinode := by
  obtain ⟨buf, -, h⟩ := Option.bind_eq_some_iff.mp h
  cases h
  rfl

theorem freeinode_iappend {bs : List UInt8} (h : Sector.iappend inum bs m = some r) :
    r.freeinode = m.freeinode := by
  obtain ⟨d, -, h⟩ := Option.bind_eq_some_iff.mp h
  obtain ⟨e, he, h⟩ := Option.bind_eq_some_iff.mp h
  exact (freeinode_winode h).trans (freeinode_loop he)

theorem freeinode_ialloc {type : InodeType} {e : Nat × Store}
    (h : Sector.ialloc type m = some e) : e.2.freeinode = m.freeinode + 1 := by
  obtain ⟨r, hr, h⟩ := Option.bind_eq_some_iff.mp h
  cases h
  exact freeinode_winode hr

theorem freeinode_copy {reads : List (List UInt8)} (h : Sector.copy inum reads m = some r) :
    r.freeinode = m.freeinode := by
  induction reads generalizing m with
  | nil =>
    cases h
    rfl
  | cons bs rest ih =>
    obtain ⟨e, he, h⟩ := Option.bind_eq_some_iff.mp h
    exact (ih h).trans (freeinode_iappend he)

theorem freeinode_addFiles {files : List HostFile} (h : Sector.addFiles files m = some r) :
    r.freeinode = m.freeinode + files.length := by
  induction files generalizing m with
  | nil =>
    cases h
    rfl
  | cons f rest ih =>
    obtain ⟨e, he, h⟩ := Option.bind_eq_some_iff.mp h
    rw [Sector.addFile] at he
    split at he
    · obtain ⟨r₁, h₁, he⟩ := Option.bind_eq_some_iff.mp he
      obtain ⟨r₂, h₂, he⟩ := Option.bind_eq_some_iff.mp he
      rw [ih h, freeinode_copy he, freeinode_iappend h₂, freeinode_ialloc h₁, List.length_cons]
      omega
    · cases he

theorem freeinode_main {files : List HostFile} (h : Sector.main files = some r) :
    r.freeinode = files.length + 2 := by
  rw [Sector.main] at h
  obtain ⟨r₁, h₁, h⟩ := Option.bind_eq_some_iff.mp h
  split at h
  · obtain ⟨r₂, h₂, h⟩ := Option.bind_eq_some_iff.mp h
    obtain ⟨r₃, h₃, h⟩ := Option.bind_eq_some_iff.mp h
    obtain ⟨r₄, h₄, h⟩ := Option.bind_eq_some_iff.mp h
    obtain ⟨r₅, h₅, h⟩ := Option.bind_eq_some_iff.mp h
    rw [Sector.fixRoot] at h₅
    obtain ⟨d, -, h₅⟩ := Option.bind_eq_some_iff.mp h₅
    rw [Sector.balloc] at h
    split at h
    · obtain rfl := Option.some.inj h
      have hstart : Sector.start.freeinode = 1 := rfl
      show r₅.freeinode = _
      rw [freeinode_winode h₅, freeinode_addFiles h₄, freeinode_iappend h₃, freeinode_iappend h₂,
        freeinode_ialloc h₁, hstart]
      omega
    · cases h
  · cases h

end Count

namespace Final

variable {files : List HostFile} {m : Mk} {m' : Store}

theorem image_dinode (h : Final files m m') {n : Nat} (hn : n < NINODES) :
    m'.image.dinode n = m.dinode n := by
  have hstart : m'.inodestart = Sector.inodestart := by
    rw [Store.inodestart, h.sim.superblock]
    decide
  rw [← h.sim.dinode n hn]
  show (m'.data (IBLOCK n m'.inodestart)).dinode _ = _
  rw [hstart]

theorem image_bitmap (h : Final files m m') {b : Nat} (hb : b < FSSIZE) :
    m'.image.bitmap b = decide (b < m'.freeblock) := by
  have hbpb : b < BPB := Nat.lt_trans hb (by decide)
  have hstart : m'.superblock.bmapstart = 2 + LOGSIZE + ninodeblocks := by
    show (m'.data 1).getUint 7 = _
    rw [h.sim.superblock]
    decide
  show Balloc.inUse (m'.data (BBLOCK b m'.superblock.bmapstart)) (b % BPB) = _
  rw [hstart, BBLOCK, Nat.div_eq_of_lt hbpb, Nat.zero_add, h.bitmap, Nat.mod_eq_of_lt hbpb,
    Sector.inUse_marks _ hbpb]
  have hfb : m'.freeblock = m.freeblock := h.sim.agree.freeblock
  rw [hfb]

theorem alloc (h : Final files m m') : Alloc nmeta FSSIZE True
    (fun b => decide (b < m.freeblock)) (Owns m.data m.dinode) [] := by
  obtain ⟨m₀, hbuilt, rfl⟩ := h.built
  have halloc := hbuilt.ok.blocks.alloc
  rw [nmeta_sb] at halloc
  exact halloc.congr (owns_set rfl Iff.rfl)

theorem ptr_eq (h : Final files m m') {n : Nat} (ht : (m.dinode n).type ≠ .free) (x : Pos) :
    ptr m'.data (m.dinode n) x = ptr m.data (m.dinode n) x := by
  cases x with
  | addr k => rfl
  | entry j =>
    rw [ptr, ptr]
    by_cases ha : (m.dinode n).addrs indirect = 0
    · rw [if_pos ha, if_pos ha]
    · have hown : Owns m.data m.dinode (n, .addr indirect) ((m.dinode n).addrs indirect) :=
        ⟨ht, rfl, ha⟩
      rw [if_neg ha, if_neg ha, h.sim.agree.data _ (h.alloc.owned _ _ hown).1]

theorem blockAt_eq (h : Final files m m') {n : Nat} (ht : (m.dinode n).type ≠ .free) (bn : Nat) :
    blockAt m'.data (m.dinode n) bn = blockAt m.data (m.dinode n) bn := by
  cases hx : pos bn with
  | none => rw [blockAt_of_none hx, blockAt_of_none hx]
  | some x => rw [blockAt_of_pos hx, blockAt_of_pos hx, h.ptr_eq ht]

theorem wrote_iff (h : Final files m m') (n : Nat) :
    m'.wrote n ↔ 0 < n ∧ n < files.length + 2 := by
  obtain ⟨m₀, hbuilt, rfl⟩ := h.built
  have hfree : m'.freeinode = files.length + 2 := by
    have hcount := hbuilt.freeinode
    rw [List.length_map] at hcount
    exact h.sim.agree.freeinode.trans hcount
  rw [Store.wrote, hfree]

theorem type_ne (h : Final files m m') {n : Nat} (hn : 0 < n) (hlt : n < files.length + 2) :
    (m.dinode n).type ≠ .free := by
  obtain ⟨m₀, hbuilt, rfl⟩ := h.built
  have htype : ((fixRoot m₀).dinode n).type = (m₀.dinode n).type := by
    show (Function.update m₀.dinode ROOTINO _ n).type = _
    by_cases hroot : n = ROOTINO
    · rw [hroot, Function.update_self]
    · rw [Function.update_of_ne hroot]
  rw [htype]
  by_cases hroot : n = ROOTINO
  · rw [hroot]
    exact hbuilt.root_alloc
  · have hroot' : n ≠ 1 := hroot
    have halloc := hbuilt.file_alloc (k := n - 2) (by rw [List.length_map]; omega)
    rwa [Nat.sub_add_cancel (by omega)] at halloc

end Final

theorem length_entries (es : List Dirent) :
    (es.flatMap Dirent.encode).length = es.length * DIRENT := by
  induction es with
  | nil => simp
  | cons de rest ih =>
    rw [List.flatMap_cons, List.length_append, ih, length_encode, List.length_cons, Nat.succ_mul]
    exact Nat.add_comm ..

theorem Built.root_size {files : List HostFile} {bodies : List (List UInt8)} {m : Mk}
    (h : Built (rootEntries files) bodies m) :
    (m.dinode ROOTINO).size = (files.length + 2) * DIRENT := by
  have hlen : (m.contents ROOTINO).length = (m.dinode ROOTINO).size := length_contents ..
  rw [← hlen, h.entries, length_entries]
  simp [rootEntries]

namespace Final

variable {files : List HostFile} {m : Mk} {m' : Store}

theorem mapped_file (h : Final files m m') {n : Nat} (hn : 1 < n) (hlt : n < files.length + 2) :
    Mapped m'.data (m.dinode n) := by
  have ht := h.type_ne (by omega) hlt
  intro bn hbn
  rw [h.blockAt_eq ht]
  obtain ⟨m₀, hbuilt, rfl⟩ := h.built
  have hne : n ≠ ROOTINO := Nat.ne_of_gt hn
  rw [fixRoot_other m₀ hne] at ht hbn ⊢
  exact hbuilt.ok.blocks.mapped n ht bn hbn

-- The blocks of the root directory are there below its size before it is rounded
-- up. If its entries fill the last block, then the block after it is missing.
theorem mapped_root (h : Final files m m') (hn : files.length + 1 < NINODES) :
    Mapped m'.data (m.dinode ROOTINO) ↔ (files.length + 2) % 64 ≠ 0 := by
  have hinodes : NINODES = 200 := rfl
  have ht := h.type_ne (n := ROOTINO) (by decide) (by unfold ROOTINO; omega)
  have hblock := fun bn => h.blockAt_eq ht bn
  obtain ⟨m₀, hbuilt, rfl⟩ := h.built
  have hsize := hbuilt.root_size
  have hdirent : DIRENT = 16 := rfl
  have hbsize : BSIZE = 1024 := rfl
  have hself : (fixRoot m₀).dinode ROOTINO = { m₀.dinode ROOTINO with
      size := ((m₀.dinode ROOTINO).size / BSIZE + 1) * BSIZE } := by
    simp [fixRoot]
  have hat : ∀ bn, blockAt m'.data ((fixRoot m₀).dinode ROOTINO) bn =
      blockAt m₀.data (m₀.dinode ROOTINO) bn := fun bn => by
    rw [hblock bn, hself]
    exact blockAt_congr rfl bn
  constructor
  · intro hmapped hfull
    have hdiv : (m₀.dinode ROOTINO).size / BSIZE < NDIRECT := by
      rw [hsize, hdirent, hbsize]
      unfold NDIRECT
      omega
    have hbn := hmapped ((m₀.dinode ROOTINO).size / BSIZE) (by
      rw [hself]
      exact Nat.mul_lt_mul_of_pos_right (Nat.lt_succ_self _) (by decide))
    have hpos : pos ((m₀.dinode ROOTINO).size / BSIZE) =
        some (.addr ⟨(m₀.dinode ROOTINO).size / BSIZE, Nat.lt_succ_of_lt hdiv⟩) := dif_pos hdiv
    rw [hat, blockAt_of_pos hpos] at hbn
    refine hbn (hbuilt.ok.tight ROOTINO _ (fun heq => ?_) ?_)
    · exact absurd (congrArg Fin.val heq) (Nat.ne_of_lt hdiv)
    · show (m₀.dinode ROOTINO).size ≤ (m₀.dinode ROOTINO).size / BSIZE * BSIZE
      rw [hsize, hdirent, hbsize]
      omega
  · intro hne bn hbn
    rw [hat]
    refine hbuilt.ok.blocks.mapped ROOTINO hbuilt.root_alloc bn ?_
    rw [hself] at hbn
    have hbn' : bn * BSIZE < ((m₀.dinode ROOTINO).size / BSIZE + 1) * BSIZE := hbn
    rw [hsize, hdirent, hbsize] at hbn' ⊢
    omega

theorem made (h : Final files m m') {n : Nat} (hn : 0 < n) (hlt : n < files.length + 2) :
    (m.dinode n).nlink = 1 := by
  obtain ⟨m₀, hbuilt, rfl⟩ := h.built
  by_cases hroot : n = ROOTINO
  · subst hroot
    rw [← hbuilt.root.nlink]
    simp [fixRoot]
  · have hroot' : n ≠ 1 := hroot
    have hk : n - 2 < (files.map HostFile.contents).length := by
      rw [List.length_map]
      omega
    have hfile := (hbuilt.file (n - 2) _ (List.getElem?_eq_getElem hk)).1.nlink
    rw [Nat.sub_add_cancel (by omega)] at hfile
    rwa [fixRoot_other m₀ hroot]

theorem free (h : Final files m m') {n : Nat} (hn : n = 0 ∨ files.length + 2 ≤ n) :
    m.dinode n = Dinode.zero := by
  obtain ⟨m₀, hbuilt, rfl⟩ := h.built
  have hroot : n ≠ ROOTINO := by
    unfold ROOTINO
    omega
  rw [fixRoot_other m₀ hroot]
  exact hbuilt.free n (by rwa [List.length_map])

theorem root_size (h : Final files m m') :
    (m.dinode ROOTINO).size = ((files.length + 2) * DIRENT / BSIZE + 1) * BSIZE := by
  obtain ⟨m₀, hbuilt, rfl⟩ := h.built
  rw [← hbuilt.root_size]
  simp [fixRoot]

theorem holeFree {exact : Prop} (h : Final files m m') (hn : files.length + 1 < NINODES)
    (hroot : (files.length + 2) % 64 ≠ 0) : Blocks sb exact m.dinode [] (boot m.image) := by
  have hinodes : NINODES = 200 := rfl
  have halloc := h.alloc
  have hmapped : ∀ n, (m.dinode n).type ≠ .free → Mapped m.data (m.dinode n) := by
    intro n ht bn hbn
    have hwrote : 0 < n ∧ n < files.length + 2 := by
      by_contra hnot
      refine ht ?_
      rw [h.free (by omega)]
      rfl
    rw [← h.blockAt_eq ht]
    by_cases hn1 : n = ROOTINO
    · subst hn1
      exact (h.mapped_root hn).mpr hroot bn hbn
    · have hne : n ≠ 1 := hn1
      exact h.mapped_file (by omega) hwrote.2 bn hbn
  obtain ⟨m₀, hbuilt, rfl⟩ := h.built
  have hold := hbuilt.ok.blocks
  refine ⟨⟨hold.alloc.low, halloc.owned, halloc.inj, List.nodup_nil, by simp,
    fun _ => halloc.all trivial⟩, hmapped, fun n ht => ?_, fun n _ _ => rfl⟩
  by_cases hn1 : n = ROOTINO
  · rw [hn1, h.root_size]
    have hmax : MAXFILE * BSIZE = 274432 := by decide
    unfold DIRENT DIRSIZ
    rw [hmax]
    unfold BSIZE
    omega
  · rw [fixRoot_other m₀ hn1] at ht ⊢
    exact hold.small n ht

theorem sound_iff (h : Final files m m') (hn : files.length + 1 < NINODES) :
    m'.Sound ↔ (files.length + 2) % 64 ≠ 0 := by
  have hdinode : ∀ n, m'.wrote n → m'.image.dinode n = m.dinode n ∧ (m.dinode n).type ≠ .free :=
    fun n hw => by
      obtain ⟨hpos, hlt⟩ := (h.wrote_iff n).mp hw
      exact ⟨h.image_dinode (by omega), h.type_ne hpos hlt⟩
  have hown : ∀ n x, m'.wrote n → ptr m'.data (m'.image.dinode n) x ≠ 0 →
      Owns m.data m.dinode (n, x) (ptr m'.data (m'.image.dinode n) x) := fun n x hw hx => by
    obtain ⟨heq, ht⟩ := hdinode n hw
    rw [heq] at hx ⊢
    exact ⟨ht, (h.ptr_eq ht x).symm, hx⟩
  have hroot : m'.wrote ROOTINO := (h.wrote_iff ROOTINO).mpr ⟨by decide, by unfold ROOTINO; omega⟩
  rw [← h.mapped_root hn, ← (hdinode ROOTINO hroot).1]
  constructor
  · exact fun hs => hs.mapped ROOTINO hroot
  · intro hmapped
    refine ⟨fun n hw => ?_, fun n x hw hx => ?_, fun n x n' x' hw hw' hx heq => ?_,
      fun b hb => ?_, fun n hw => ?_⟩
    · have hlt := ((h.wrote_iff n).mp hw).2
      show n < NINODES
      omega
    · obtain ⟨hlo, hhi, -⟩ := h.alloc.owned _ _ (hown n x hw hx)
      exact ⟨hlo, hhi⟩
    · have ho' := hown n' x' hw' (heq ▸ hx)
      rw [← heq] at ho'
      have hsame := h.alloc.inj _ _ _ (hown n x hw hx) ho'
      exact Prod.mk.injEq .. ▸ hsame
    · rw [h.image_bitmap hb, decide_eq_true_iff]
    · by_cases hn : n = ROOTINO
      · rw [hn]
        exact hmapped
      · obtain ⟨hpos, hlt⟩ := (h.wrote_iff n).mp hw
        have hne : n ≠ 1 := hn
        rw [(hdinode n hw).1]
        exact h.mapped_file (by omega) hlt

end Final

-- The image is in order unless mkfs runs out of inodes or the entries of the root
-- directory fill its last block.
theorem image_sound_iff {files : List HostFile} {m : Store} (h : Sector.main files = some m) :
    m.Sound ↔ files.length + 1 < NINODES ∧ (files.length + 2) % 64 ≠ 0 := by
  by_cases hn : files.length + 1 < NINODES
  · obtain ⟨r, -, hfinal⟩ := exists_of_rel' (main_sim hn) h
    rw [hfinal.sound_iff hn]
    exact (and_iff_right hn).symm
  · refine iff_of_false (fun hs => hn ?_) fun hc => hn hc.1
    refine hs.inum (files.length + 1) ⟨Nat.succ_pos _, ?_⟩
    rw [freeinode_main h]
    exact Nat.lt_succ_self _

def twoFiles : List HostFile :=
  [⟨[97], [[1, 2], [3]], by decide, by decide⟩, ⟨[98], [], by decide, by decide⟩]

theorem build_twoFiles : (build twoFiles).isSome = true := by decide +kernel

theorem image_sound_iff_twoFiles : ∃ m, Sector.main twoFiles = some m ∧ m.Sound := by
  obtain ⟨-, m, -, hm, -⟩ := main_of_build twoFiles (by decide) build_twoFiles
  exact ⟨m, hm, (image_sound_iff hm).mpr (by decide)⟩

-- 62 empty files, with which the root directory has 64 entries.
def emptyFiles : List HostFile := List.replicate 62 ⟨[97], [], by decide, by simp⟩

theorem full_root_unmapped : ∃ m, Sector.main emptyFiles = some m ∧ ¬ m.Sound := by
  have hbuild : (build emptyFiles).isSome = true := by decide +kernel
  obtain ⟨r, m, -, hm, hfinal⟩ := main_of_build emptyFiles (by decide) hbuild
  refine ⟨m, hm, fun hs => ?_⟩
  exact absurd ((hfinal.sound_iff (by decide)).mp hs) (by decide)

end Xv6.Mkfs
