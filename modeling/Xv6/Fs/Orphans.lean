import Xv6.Fs.Account
import Xv6.Log.Crash

namespace Xv6.Fs

open Lib

variable {sb : Superblock} {M : Mode} {s t : Sys} {hist : List (Label × Sys)} {p n : Nat}
  {snap : Sys}

-- The runs from an image in order, in which the inodes of keep are compared with
-- what they were in the state snap.
def Mode.linking (sb : Superblock) (durable writes : Prop) (keep : Nat → Prop) (snap : Sys) :
    Mode where
  sb := sb
  p := 0
  exact := True
  holeFree := True
  linked := True
  durable := durable
  writes := writes
  roomy := False
  keep := keep
  watch := fun _ => False
  snap := snap
  linked_of_durable := fun _ => trivial

-- An image whose allocated inodes have links, and whose blocks are accounted for.
structure Image.InOrder (sb : Superblock) (img : Image) : Prop where
  linked : img.Linked
  blocks : Blocks sb True img.dinode [] (boot img)

theorem inOrder_emptyImage : emptyImage.InOrder Mkfs.sb :=
  ⟨consistent_emptyImage.linked, blocks_emptyImage⟩

theorem settled_linking (durable : Prop) {img : Image} (himg : img.InOrder sb)
    (h : Serial (Calls sb) (boot img) hist s)
    (hok : ∀ e ∈ hist, durable → Sole e.1 e.2) :
    Settled (.linking sb durable True (fun _ => False) (boot img)) s ∧
      ∀ e ∈ hist, Must (.linking sb durable True (fun _ => False) (boot img)) e.1 e.2 :=
  Spec.serial (C := (Mode.linking sb durable True (fun _ => False) (boot img)).spec) h
    (fun _ _ _ hs hq => hs.calls hq trivial (fun _ => id) fun hr => hr.elim)
    (settled_boot img (fun _ => himg.linked) (fun _ => himg.blocks) fun _ _ hk => hk.elim)
    fun e he => ⟨hok e he, fun _ _ => id⟩

-- An open file or the current directory of a process refers to inode n.
def Referenced (s : Sys) (n : Nat) : Prop :=
  ∃ i, (s.inode i).inum = n ∧ ((∃ f, 0 < (s.file f).ref ∧
    ((s.file f).type = .inode ∨ (s.file f).type = .device) ∧ (s.file f).ip = i) ∨
    ∃ q, (s.proc q).cwd = some i)

theorem Settled.referenced_iff (h : Settled M s) (n : Nat) :
    Referenced s n ↔ ∃ i, 0 < (Ctx.idle s).opens i ∧ (s.inode i).inum = n := by
  constructor
  · rintro ⟨i, hinum, hfile | ⟨q, hcwd⟩⟩
    · obtain ⟨f, hf⟩ := hfile
      have hip := (h.files.fileIp_iff f i).mpr hf
      exact ⟨i, Nat.add_pos_left (tally_pos (sparse_of_finite _) hip) _, hinum⟩
    · exact ⟨i, Nat.add_pos_right _ (tally_pos h.inv.sparse hcwd), hinum⟩
  · rintro ⟨i, hopen, hinum⟩
    refine ⟨i, hinum, ?_⟩
    rcases Nat.add_pos_iff_pos_or_pos.mp hopen with hfile | hcwd
    · obtain ⟨f, hf⟩ := exists_of_tally_pos hfile
      exact .inl ⟨f, (h.files.fileIp_iff f i).mp hf⟩
    · exact .inr (exists_of_tally_pos hcwd)

theorem Settled.alloc_iff (h : Settled M s) (hl : M.linked) (n : Nat) :
    (s.dinode n).type ≠ .free ↔ (s.dinode n).nlink ≠ 0 ∨ Referenced s n := by
  have hlinks := h.inv.links hl
  rw [h.referenced_iff n]
  constructor
  · intro htype
    by_cases hnlink : (s.dinode n).nlink = 0
    · rcases hlinks.orphan n ⟨htype, hnlink⟩ with hfresh | ⟨i, huse, -⟩
      · cases hfresh
      · exact .inr ⟨i, huse.refs, huse.inum⟩
    · exact .inl hnlink
  · rintro (hnlink | ⟨i, hopen, rfl⟩) hfree
    · exact hnlink (hlinks.free n hfree)
    · exact hlinks.opened i hopen hfree

theorem Settled.shrinks (h : Settled (.linking sb False True (fun _ => False) snap) s)
    (hlive : (s.proc p).cwd ≠ none) {call : Syscall} (hcall : ¬ call.writes)
    {e : Label × Sys} (he : e ∈ (syscall sb p call).trace s) {i : Slot} (hlbl : e.1 = .size i) :
    (e.2.inode i).type = .dir ∨ (e.2.inode i).ref = 1 ∧ (e.2.inode i).nlink = 0 := by
  have hs : Settled (.linking sb False False (fun _ => False) snap) s :=
    h.remode ⟨rfl, rfl, id, id, id⟩ fun _ _ hk => hk.elim
  have hwp := hs.call hlive call (fun hw => absurd hw hcall) (fun _ _ => id) fun hr => hr.elim
  have hmust := hwp.must (fun _ _ => ⟨fun hd => hd.elim, fun _ _ => id⟩) e he
  exact (hmust.size i hlbl).resolve_left id

theorem Settled.keeps (h : Settled (.linking sb False True (fun _ => False) snap) s)
    (hlive : (s.proc p).cwd ≠ none) {call : Syscall} (hcall : ¬ call.evicts) {r : Int}
    (hr : (syscall sb p call).run s = .done t r) (hn : (s.dinode n).type ≠ .free)
    (hsize : ∀ e ∈ (syscall sb p call).trace s, ∀ i, e.1 = .size i → (e.2.inode i).inum ≠ n) :
    Kept s t n := by
  have hs : Settled (.linking sb False True (· = n) s) s := by
    refine h.remode ⟨rfl, rfl, id, id, id⟩ fun _ m hm => ?_
    rw [hm]
    exact ⟨hn, rfl, rfl, rfl, rfl⟩
  have hwp := hs.call hlive call (fun _ => trivial) (fun he => absurd he hcall) fun hr => hr.elim
  have ht := hwp.done (fun e he => ⟨fun hd => hd.elim, hsize e he⟩) hr
  exact (ht.inv.disk trivial).kept n rfl

-- An inode without links lives as long as something refers to it, with its blocks
-- and its bytes, and the iput() that drops the last reference frees both.
theorem unlinked_inode_lives {img : Image} (himg : img.InOrder sb)
    (h : Serial (Calls sb) (boot img) hist s) :
    (∀ n, (s.dinode n).type ≠ .free ↔ (s.dinode n).nlink ≠ 0 ∨ Referenced s n) ∧
    ∀ p call, (s.proc p).cwd ≠ none →
      (¬ call.writes → ∀ e ∈ (syscall sb p call).trace s, ∀ i, e.1 = .size i →
        (e.2.inode i).type = .dir ∨ (e.2.inode i).ref = 1 ∧ (e.2.inode i).nlink = 0) ∧
      ∀ t r, (syscall sb p call).run s = .done t r →
        (¬ call.evicts → ∀ n, (s.dinode n).type ≠ .free →
          (∀ e ∈ (syscall sb p call).trace s, ∀ i, e.1 = .size i → (e.2.inode i).inum ≠ n) →
          Kept s t n) ∧
        ∀ n x b, Owns s.data s.dinode (n, x) b → (t.dinode n).nlink = 0 → ¬ Referenced t n →
          (t.dinode n).type = .free ∧
            (t.bitmap b = true → ∃ o, o.1 ≠ n ∧ Owns t.data t.dinode o b) := by
  obtain ⟨hs, -⟩ := settled_linking False himg h fun _ _ hd => hd.elim
  refine ⟨hs.alloc_iff trivial, fun p call hlive => ⟨fun hcall e he i hlbl =>
    hs.shrinks hlive hcall he hlbl, fun t r hr => ⟨fun hcall n hn hsize =>
      hs.keeps hlive hcall hr hn hsize, fun n x b hb hnlink href => ?_⟩⟩⟩
  have ht := (hs.call hlive call (fun _ => trivial) (fun _ _ => id) fun hr => hr.elim).done
    (fun _ _ => ⟨fun hd => hd.elim, fun _ _ => id⟩) hr
  have hfree : (t.dinode n).type = .free := by
    by_contra hne
    exact ((ht.alloc_iff trivial n).mp hne).elim (fun hnz => hnz hnlink) href
  refine ⟨hfree, fun hused => ?_⟩
  have hold := (hs.inv.disk trivial).blocks.alloc.owned _ b hb
  rcases (ht.inv.disk trivial).blocks.alloc.all trivial b hold.2.1 hused with hlow | hloose | ⟨o, ho⟩
  · exact absurd hlow (Nat.not_lt.mpr hold.1)
  · cases hloose
  · refine ⟨o, fun heq => ho.1 ?_, ho⟩
    rw [heq]
    exact hfree

-- unlink("a") while the file is open.
theorem unlinked_inode_lives_open : ∃ hist s, Serial (Calls Mkfs.sb) (boot emptyImage) hist s ∧
    (s.dinode 2).type ≠ .free ∧ (s.dinode 2).nlink = 0 ∧ Referenced s 2 := by
  have hrun : (session Mkfs.sb [(0, .open (some [97]) O_CREATE), (0, .unlink (some [97]))]
      (boot emptyImage)).any (fun r => decide ((r.2.dinode 2).type ≠ .free ∧
        (r.2.dinode 2).nlink = 0)) = true := by decide +kernel
  obtain ⟨hist, s, hs, hcheck⟩ := exists_serial hrun
  obtain ⟨htype, hnlink⟩ := of_decide_eq_true hcheck
  exact ⟨hist, s, hs, htype, hnlink, (((unlinked_inode_lives inOrder_emptyImage hs).1 2).mp
    htype).resolve_left fun hne => hne hnlink⟩

-- The inodes that recover_from_log() finds after a crash: those of the last
-- transaction that has ended.
def recovered (img : Image) (hist : List (Label × Sys)) : Nat → Dinode :=
  ((hist.reverse.find? fun e => decide (e.1 = .endOp)).map fun e => e.2.dinode).getD img.dinode

theorem recovered_cases (img : Image) (hist : List (Label × Sys)) :
    recovered img hist = img.dinode ∨
      ∃ e ∈ hist, e.1 = .endOp ∧ recovered img hist = e.2.dinode := by
  unfold recovered
  cases hfind : hist.reverse.find? fun e => decide (e.1 = .endOp) with
  | none => exact .inl rfl
  | some e =>
    have hlbl := List.find?_some hfind
    exact .inr ⟨e, List.mem_reverse.mp (List.mem_of_find?_eq_some hfind),
      of_decide_eq_true hlbl, rfl⟩

-- The dinodes v are on the disk.
def OnDisk (sb : Superblock) (inodestart : Nat) (disk : Nat → Block) (v : Nat → Dinode) : Prop :=
  ∀ n < sb.ninodes, (disk (Mkfs.IBLOCK n inodestart)).dinode (n % IPB) = v n

-- The machine stops while commit() writes the transaction that ends in s to a disk with the
-- inodes of the history before. Then recover_from_log() leaves these inodes or those of s, as
-- recovered has it.
theorem recovered_of_crash {img : Image} {dev : Log.Dev} {tx : Log.Tx dev} {inodestart : Nat}
    {trace : List (Log.Io × Log.Store)} {rest : Prog Log.Store Log.Io Unit} {u : Log.Store}
    {disk : Log.Disk} (hclean : Log.headN (tx.old dev.start) = 0)
    (harea : ∀ n, ¬ dev.area (Mkfs.IBLOCK n inodestart))
    (hold : OnDisk sb inodestart tx.old (recovered img hist))
    (hnew : OnDisk sb inodestart (fun b => if b ∈ tx.lh then tx.new b else tx.old b) s.dinode)
    (hcrash : Prog.Exec (Log.commit dev tx.lh) (Log.Store.logged tx.old tx.lh tx.new) trace rest u)
    (hrec : Log.Crashed dev u.disk disk) :
    ∃ t, (Log.recoverFromLog dev).run (Log.Store.boot disk) = .done t () ∧
      (OnDisk sb inodestart t.disk (recovered img hist) ∨
        OnDisk sb inodestart t.disk (recovered img (hist ++ [(.endOp, s)]))) := by
  have hlast : recovered img (hist ++ [(.endOp, s)]) = s.dinode := by simp [recovered]
  obtain ⟨t, ht, hpending, hinstalled⟩ := Log.Tx.crash_recovers hclean hcrash hrec
  refine ⟨t, ht, ?_⟩
  by_cases hw : Log.Io.write dev.start ∈ trace.map Prod.fst
  · obtain ⟨-, hframe, hblocks⟩ := hinstalled hw
    refine .inr fun n hn => ?_
    rw [hlast, ← hnew n hn]
    dsimp only
    split
    · rename_i hmem
      rw [hblocks _ hmem]
    · rename_i hmem
      rw [hframe _ hmem (harea n)]
  · obtain ⟨-, hframe, hblocks⟩ := hpending hw
    refine .inl fun n hn => ?_
    rw [← hold n hn]
    by_cases hmem : Mkfs.IBLOCK n inodestart ∈ tx.lh
    · rw [hblocks _ hmem]
    · rw [hframe _ hmem (harea n)]

-- A crash at any action of a run in which every inode that loses its last link is
-- one that only the call refers to.
theorem crash_leaves_no_orphan {img : Image} (himg : img.InOrder sb)
    (h : Serial (Calls sb) (boot img) hist s) (hlive : (s.proc p).cwd ≠ none) (call : Syscall)
    {l : List (Label × Sys)} (hl : l <+: (syscall sb p call).trace s)
    (hsole : ∀ e ∈ hist ++ l, Sole e.1 e.2) (n : Nat)
    (hn : (recovered img (hist ++ l) n).type ≠ .free) :
    (recovered img (hist ++ l) n).nlink ≠ 0 := by
  obtain ⟨hs, hmust⟩ := settled_linking True himg h
    fun e he _ => hsole e (List.mem_append_left _ he)
  have hmust' := (hs.call hlive call (fun _ => trivial) (fun _ _ => id)
    fun hr => hr.elim).must_of_first hl
      fun e he => ⟨fun _ => hsole e (List.mem_append_right _ he), fun _ _ => id⟩
  rcases recovered_cases img (hist ++ l) with heq | ⟨e, he, hlbl, heq⟩
  · rw [heq] at hn ⊢
    exact (himg.linked.alloc n).mp hn
  · rw [heq] at hn ⊢
    have hend : ∀ m, ¬ Orphan e.2 m := by
      rcases List.mem_append.mp he with he | he
      · exact (hmust e he).endOp hlbl trivial
      · exact (hmust' e he).endOp hlbl trivial
    exact fun hzero => hend n ⟨hn, hzero⟩

instance (lbl : Label) (s : Sys) : Decidable (Sole lbl s) := by
  cases lbl with
  | incLink i => exact inferInstanceAs (Decidable (_ → _))
  | setLink i => exact inferInstanceAs (Decidable (_ → _))
  | _ => exact .isTrue trivial

-- unlink("a") of a file that is not open.
theorem crash_leaves_no_orphan_closed : ∃ hist s,
    Serial (Calls Mkfs.sb) (boot emptyImage) hist s ∧
      ∀ n, (recovered emptyImage (hist ++ (syscall Mkfs.sb 0 (.unlink (some [97]))).trace s)
        n).type ≠ .free →
        (recovered emptyImage (hist ++ (syscall Mkfs.sb 0 (.unlink (some [97]))).trace s)
          n).nlink ≠ 0 := by
  have hrun : (session Mkfs.sb [(0, .mknod (some [97]) 1 0)] (boot emptyImage)).any
      (fun r => decide ((r.2.proc 0).cwd ≠ none) &&
        (r.1 ++ (syscall Mkfs.sb 0 (.unlink (some [97]))).trace r.2).all
          fun e => decide (Sole e.1 e.2)) = true := by decide +kernel
  obtain ⟨hist, s, hs, hcheck⟩ := exists_serial hrun
  obtain ⟨hlive, hsole⟩ := Bool.and_eq_true_iff.mp hcheck
  exact ⟨hist, s, hs, crash_leaves_no_orphan inOrder_emptyImage hs (of_decide_eq_true hlive) _
    (List.prefix_refl _) fun e he => of_decide_eq_true (List.all_eq_true.mp hsole e he)⟩

-- unlink("a") while the file is open, and a crash after it.
theorem crash_leaves_orphan : ∃ hist s, Serial (Calls Mkfs.sb) (boot emptyImage) hist s ∧
    (recovered emptyImage hist 2).type = .file ∧ (recovered emptyImage hist 2).nlink = 0 := by
  have hrun : (session Mkfs.sb [(0, .open (some [97]) O_CREATE), (0, .unlink (some [97]))]
      (boot emptyImage)).any (fun r => decide ((recovered emptyImage r.1 2).type = .file ∧
        (recovered emptyImage r.1 2).nlink = 0)) = true := by decide +kernel
  obtain ⟨hist, s, hs, hcheck⟩ := exists_serial hrun
  exact ⟨hist, s, hs, of_decide_eq_true hcheck⟩

-- What mkfs writes is a file system on which no run of system calls loses a block, gives
-- one to two inodes, or has an inode in use that is neither linked nor referenced.
theorem mkfs_image_runs {files : List Mkfs.HostFile} {m : Mkfs.Store}
    (hm : Mkfs.Sector.main files = some m) (hn : files.length + 1 < Mkfs.NINODES)
    (hroot : (files.length + 2) % 64 ≠ 0) :
    ∃ img : Image, (∀ n < Mkfs.NINODES, m.image.dinode n = img.dinode n) ∧
      (∀ b < FSSIZE, m.image.bitmap b = img.bitmap b) ∧
      (∀ b, Mkfs.nmeta ≤ b → m.data b = img.data b) ∧
      ∀ hist s, Serial (Calls Mkfs.sb) (boot img) hist s →
        (∀ b < FSSIZE, s.bitmap b = true ↔ b < Mkfs.nmeta ∨ ∃ o, Owns s.data s.dinode o b) ∧
        (∀ o o' b, Owns s.data s.dinode o b → Owns s.data s.dinode o' b → o = o') ∧
        ∀ n, (s.dinode n).type ≠ .free ↔ (s.dinode n).nlink ≠ 0 ∨ Referenced s n := by
  obtain ⟨r, -, h⟩ := exists_of_rel' (Mkfs.main_sim hn) hm
  refine ⟨r.image, fun n => h.image_dinode, fun b hb => ?_, h.sim.agree.data, fun hist s hs => ?_⟩
  · rw [h.image_bitmap hb, h.sim.agree.freeblock]
    rfl
  · obtain ⟨hset, -⟩ := settled_linking False ⟨linked_of_final h, h.holeFree hn hroot⟩ hs
      fun _ _ hd => hd.elim
    have halloc := (hset.inv.disk trivial).blocks.alloc
    refine ⟨fun b hb => ⟨fun hused => ?_, ?_⟩, halloc.inj, hset.alloc_iff trivial⟩
    · rcases halloc.all trivial b hb hused with hlow | hloose | howned
      · exact .inl hlow
      · cases hloose
      · exact .inr howned
    · rintro (hlow | ⟨o, ho⟩)
      · exact halloc.low b hlow
      · exact (halloc.owned o b ho).2.2

theorem mkfs_image_runs_twoFiles : ∃ m img, Mkfs.Sector.main Mkfs.twoFiles = some m ∧
    m.image.dinode ROOTINO = img.dinode ROOTINO ∧ ∀ hist s,
      Serial (Calls Mkfs.sb) (boot img) hist s → ∀ n, (s.dinode n).type ≠ .free ↔
        (s.dinode n).nlink ≠ 0 ∨ Referenced s n := by
  obtain ⟨-, m, -, hm, -⟩ := Mkfs.main_of_build Mkfs.twoFiles (by decide) Mkfs.build_twoFiles
  obtain ⟨img, hroot, -, -, hruns⟩ := mkfs_image_runs hm (by decide) (by decide)
  exact ⟨m, img, hm, hroot 1 (by decide), fun hist s hs => (hruns hist s hs).2.2⟩

end Xv6.Fs
