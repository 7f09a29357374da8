import Xv6.Fs.Session
import Xv6.Fs.Syscalls

namespace Xv6.Fs

open Lib

-- The calls of another process.
def Mode.of (M : Mode) (p : Nat) : Mode := { M with p := p }

-- The second of two modes that assumes no more than the first.
structure Mode.Covers (M N : Mode) : Prop where
  sb : N.sb = M.sb
  exact : N.exact = M.exact
  holeFree : N.holeFree → M.holeFree
  linked : N.linked → M.linked
  durable : N.durable → M.durable

variable {M N : Mode} {s t : Sys} {sb : Superblock} {p : Nat} {hist : List (Label × Sys)}

theorem Settled.remode (h : Settled M s) (hN : M.Covers N)
    (hkeep : N.holeFree → ∀ n, N.keep n → Kept N.snap s n) : Settled N s := by
  obtain ⟨hi, hfiles, hunused⟩ := h
  refine ⟨⟨hi.proc, hi.file, hi.pipe, hi.sparse, ⟨fun i => ?_, hi.table.unique, hi.table.nodup⟩,
    fun hlinked => ?_, fun hhole => ⟨?_, hkeep hhole⟩, fun _ hw => hw.elim⟩, hfiles, hunused⟩
  · have he := hi.table.entry i
    exact ⟨he.ref, he.dev, he.lock, he.locked, he.isdir, fun hpos hvalid =>
      ⟨(he.agree hpos hvalid).1, (he.agree hpos hvalid).2.type, (he.agree hpos hvalid).2.nlink,
        fun hhole => (he.agree hpos hvalid).2.whole (hN.holeFree hhole)⟩⟩
  · have hl := hi.links (hN.linked hlinked)
    refine ⟨hl.ranged, hl.free, fun n hn => ?_, hl.opened⟩
    rcases hl.orphan n hn with hfresh | ⟨i, huse, hdying⟩
    · exact .inl hfresh
    · exact .inr ⟨i, huse, fun hd => hdying (hN.durable hd)⟩
  · rw [hN.sb, hN.exact]
    exact (hi.disk (hN.holeFree hhole)).blocks

theorem Settled.of (h : Settled M s) (p : Nat) : Settled (M.of p) s :=
  h.remode ⟨rfl, rfl, id, id, id⟩ fun hhole => (h.inv.disk hhole).kept

theorem Settled.of_of (h : Settled (M.of p) s) : Settled M s :=
  h.remode ⟨rfl, rfl, id, id, id⟩ fun hhole => (h.inv.disk hhole).kept

theorem wp_of {α : Type} {Q : α → Sys → Prop} {m : Prog Sys Label α} (h : (M.of p).spec.Wp Q m s) :
    M.spec.Wp Q m s :=
  h.weaken (fun _ _ hok => hok) (fun _ _ hm => ⟨hm.coherent, hm.readi, hm.size, hm.endOp, hm.balloc⟩)
    (fun _ hpanics => hpanics) id

theorem Settled.call (h : Settled M s) (hlive : (s.proc p).cwd ≠ none) (call : Syscall)
    (hwrites : call.writes → M.writes) (hevicts : call.evicts → ∀ n, ¬ M.keep n)
    (hroom : M.Fits (Ctx.idle s) 3) : M.spec.Wp (fun _ t => Settled M t) (syscall M.sb p call) s :=
  (wp_of ((h.of p).wp_syscall hlive call hwrites hevicts hroom)).mono fun _ _ ht => ht.of_of

theorem tally_boot (img : Image) (i : Slot) :
    tally (Ctx.idle (boot img)).dirs i = if i = rootSlot then 1 else 0 := by
  have hnone : Sparse fun _ : Nat => (none : Option Slot) := by
    simp [Sparse]
  have hdirs : (Ctx.idle (boot img)).dirs =
      Function.update (fun _ => none) 0 (some rootSlot) := by
    funext q
    rw [Function.update_apply]
    rfl
  have htally := tally_update hnone 0 (some rootSlot) i
  rw [tally_eq_zero (f := fun _ : Nat => (none : Option Slot)) fun _ h => by cases h] at htally
  rw [hdirs]
  simpa [eq_comm] using htally

theorem refs_boot (img : Image) (i : Slot) :
    (Ctx.idle (boot img)).refs i = if i = rootSlot then 1 else 0 := by
  have hfile : tally (fileIp (Ctx.idle (boot img)).file) i = 0 :=
    tally_eq_zero fun f hf => by cases hf
  show tally (fileIp (Ctx.idle (boot img)).file) i + tally (Ctx.idle (boot img)).dirs i + 0 + 0 = _
  rw [hfile, tally_boot]
  omega

theorem refs_boot_pos {img : Image} {i : Slot} (h : 0 < (Ctx.idle (boot img)).refs i) :
    i = rootSlot := by
  rw [refs_boot] at h
  by_contra hi
  rw [if_neg hi] at h
  exact absurd h (lt_irrefl 0)

-- The allocated inodes of an image are those that have links, and the root
-- directory is one of them.
structure Image.Linked (img : Image) : Prop where
  ranged : ∀ n, short (img.dinode n).nlink = (img.dinode n).nlink
  alloc : ∀ n, (img.dinode n).type ≠ .free ↔ (img.dinode n).nlink ≠ 0
  root : (img.dinode ROOTINO).type ≠ .free

theorem settled_boot (img : Image) (hlinks : M.linked → img.Linked)
    (hblocks : M.holeFree → Blocks M.sb M.exact img.dinode [] (boot img))
    (hkeep : M.holeFree → ∀ n, M.keep n → Kept M.snap (boot img) n) : Settled M (boot img) := by
  have hsparse : Sparse (Ctx.idle (boot img)).dirs := by
    refine (Set.finite_singleton 0).subset fun q hq => ?_
    by_contra hne
    exact hq (if_neg hne)
  refine ⟨⟨rfl, rfl, rfl, hsparse, ⟨fun i => ⟨?_, fun hpos => ?_, rfl, (fun hi => by cases hi),
    (fun hi => by cases hi), fun _ hv => by cases hv⟩, fun i j hi hj _ => ?_, List.nodup_nil⟩,
    fun hl => ?_, fun hhole => ⟨hblocks hhole, hkeep hhole⟩, fun _ hw => hw.elim⟩, ?_, ?_⟩
  · rw [refs_boot]
    by_cases hi : i = rootSlot
    · simp [boot, hi]
    · simp [boot, hi]
  · rw [refs_boot_pos hpos]
    rfl
  · rw [refs_boot_pos hi, refs_boot_pos hj]
  · obtain ⟨hranged, halloc, hroot⟩ := hlinks hl
    refine ⟨hranged, fun n hn => ?_, fun n hn => absurd hn.2 ((halloc n).mp hn.1), fun i hi => ?_⟩
    · by_contra hne
      exact (halloc n).mpr hne hn
    · rw [refs_boot_pos (Ctx.refs_pos_of_open hi)]
      exact hroot
  · refine ⟨by simp [Sparse, fds, boot], fun f => ?_, fun f _ => rfl, (fun f hf => by cases hf),
      ⟨(fun f pa w hf => by cases hf), (fun f g x hf => by cases hf), (fun pa e w he => by cases he),
        fun pa e he => by cases he⟩⟩
    rw [tally_eq_zero fun x hx => by cases hx]
    rfl
  · intro q hq
    have hne : q ≠ 0 := by
      rintro rfl
      cases hq
    exact ⟨if_neg hne, fun _ => rfl⟩

-- The runs in which only references are counted.
def Mode.counting (sb : Superblock) (start : Sys) (roomy : Prop) : Mode where
  sb := sb
  p := 0
  exact := False
  holeFree := False
  linked := False
  durable := False
  writes := True
  roomy := roomy
  keep := fun _ => False
  watch := fun _ => False
  snap := start
  linked_of_durable := id

theorem Settled.calls {q : Prog Sys Label Unit} (h : Settled M s) (hq : Calls M.sb p s q)
    (hwrites : M.writes) (hkeep : ∀ n, ¬ M.keep n) (hroom : M.Fits (Ctx.idle s) 3) :
    M.spec.Wp (fun _ t => Settled M t) q s := by
  obtain ⟨hlive, call, rfl⟩ := hq
  exact .bind (h.call hlive call (fun _ => hwrites) (fun _ => hkeep) hroom) fun _ _ ht => ht

theorem Settled.serial {start : Sys} {calls : Nat → Sys → Prog Sys Label Unit → Prop}
    (h : Serial calls start hist s) (hcalls : ∀ p s q, calls p s q → Calls M.sb p s q)
    (hstart : Settled M start) (hdurable : ¬ M.durable) (hwrites : M.writes) (hkeep : ∀ n, ¬ M.keep n)
    (hroom : ∀ p s q, Settled M s → calls p s q → M.Fits (Ctx.idle s) 3) :
    Settled M s ∧ ∀ e ∈ hist, Must M e.1 e.2 :=
  Spec.serial (C := M.spec) h
    (fun p s q hs hq => hs.calls (hcalls p s q hq) hwrites hkeep (hroom p s q hs hq)) hstart
    fun _ _ => ⟨fun hd => absurd hd hdurable, fun _ _ => hkeep _⟩

theorem settled_counting (img : Image) (roomy : Prop) :
    Settled (.counting sb (boot img) roomy) (boot img) :=
  settled_boot img (fun h => h.elim) (fun h => h.elim) fun h => h.elim

theorem Settled.ref_eq (h : Settled M s) (i : Slot) : (s.inode i).ref = (Ctx.idle s).opens i :=
  (h.inv.table.entry i).ref

theorem settled_of_serial (img : Image) (h : Serial (Calls sb) (boot img) hist s) :
    Settled (.counting sb (boot img) False) s :=
  (Settled.serial (M := .counting sb (boot img) False) h (fun _ _ _ hq => hq)
    (settled_counting img False) id trivial (fun _ hk => hk) fun _ _ _ _ _ hr => hr.elim).1

theorem Files.ref_nonneg {fd : Nat × Fd → Option FileIdx} {loose : List FileIdx}
    {file : FileIdx → File} {pipe : Nat → Option PipeEnds} (h : Files fd loose file pipe)
    (f : FileIdx) : 0 ≤ (file f).ref := by
  rw [h.ref f]
  omega

theorem Files.ref_pos {fd : Nat × Fd → Option FileIdx} {loose : List FileIdx}
    {file : FileIdx → File} {pipe : Nat → Option PipeEnds} (h : Files fd loose file pipe)
    {f : FileIdx} (htype : (file f).type ≠ .none) : 0 < (file f).ref :=
  lt_of_le_of_ne (h.ref_nonneg f) fun hz => htype (h.closed f hz.symm)

theorem Files.fileIp_iff {fd : Nat × Fd → Option FileIdx} {loose : List FileIdx}
    {file : FileIdx → File} {pipe : Nat → Option PipeEnds} (h : Files fd loose file pipe)
    (f : FileIdx) (i : Slot) : fileIp file f = some i ↔ 0 < (file f).ref ∧
      ((file f).type = .inode ∨ (file f).type = .device) ∧ (file f).ip = i := by
  unfold fileIp
  constructor
  · intro hf
    split at hf
    · rename_i htype
      cases hf
      refine ⟨h.ref_pos fun hnone => ?_, htype, rfl⟩
      rw [hnone] at htype
      rcases htype with htype | htype <;> cases htype
    · cases hf
  · rintro ⟨-, htype, hip⟩
    rw [if_pos htype, hip]

-- The references to an entry of the table of inodes are those of the open files
-- and those of the current directories.
theorem inode_refs (img : Image) (h : Serial (Calls sb) (boot img) hist s) (i : Slot) :
    {q | (s.proc q).cwd ≠ none}.Finite ∧
      (s.inode i).ref = {f | 0 < (s.file f).ref ∧
        ((s.file f).type = .inode ∨ (s.file f).type = .device) ∧ (s.file f).ip = i}.ncard +
        {q | (s.proc q).cwd = some i}.ncard ∧
      (s.inode i).lock = none := by
  have hs := settled_of_serial img h
  have hfiles : {f | 0 < (s.file f).ref ∧
      ((s.file f).type = .inode ∨ (s.file f).type = .device) ∧ (s.file f).ip = i} =
      {f | fileIp s.file f = some i} := by
    ext f
    exact (hs.files.fileIp_iff f i).symm
  refine ⟨hs.inv.sparse, ?_, (hs.inv.table.entry i).lock⟩
  rw [hfiles, hs.ref_eq i]
  rfl

-- open("/", O_RDONLY) is a second reference to the root directory.
theorem inode_refs_open : ∃ hist s, Serial (Calls Mkfs.sb) (boot emptyImage) hist s ∧
    ({f | 0 < (s.file f).ref ∧ ((s.file f).type = .inode ∨ (s.file f).type = .device) ∧
      (s.file f).ip = rootSlot}.ncard + {q | (s.proc q).cwd = some rootSlot}.ncard : Int) = 2 := by
  have hrun : (session Mkfs.sb [(0, .open (some [47]) 0)] (boot emptyImage)).any
      (fun r => decide ((r.2.inode rootSlot).ref = 2)) = true := by decide +kernel
  obtain ⟨hist, s, hserial, hcheck⟩ := exists_serial hrun
  refine ⟨hist, s, hserial, ?_⟩
  rw [← (inode_refs emptyImage hserial rootSlot).2.1]
  exact of_decide_eq_true hcheck

-- An open file that is the writable or the readable end of the pipe at pa.
def OpenEnd (s : Sys) (pa : Nat) (w : Bool) (f : FileIdx) : Prop :=
  0 < (s.file f).ref ∧ (s.file f).type = .pipe ∧ (s.file f).pipe = pa ∧
    if w then (s.file f).writable = true else (s.file f).readable = true

theorem Files.openEnd_iff (h : Files (fds s.proc) [] s.file s.pipe) (pa : Nat) (w : Bool)
    (f : FileIdx) : OpenEnd s pa w f ↔ pipeEnd (s.file f) = some (pa, w) := by
  unfold OpenEnd pipeEnd
  constructor
  · rintro ⟨-, htype, rfl, hw⟩
    have hread := h.readable f htype
    rw [if_pos htype]
    cases w with
    | true =>
      rw [if_pos rfl] at hw
      rw [hw]
    | false =>
      rw [if_neg Bool.false_ne_true, hread, Bool.not_eq_true'] at hw
      rw [hw]
  · intro hf
    split at hf
    · rename_i htype
      cases hf
      refine ⟨h.ref_pos fun hnone => ?_, htype, rfl, ?_⟩
      · rw [hnone] at htype
        cases htype
      · rw [h.readable f htype]
        cases (s.file f).writable <;> rfl
    · cases hf

-- The references to an open file are the descriptors that point to it, a page is
-- allocated to a pipe while an end of it is open, and an end is open while an open
-- file is that end.
structure FileCounts (s : Sys) : Prop where
  finite : {x : Nat × Fd | (s.proc x.1).ofile x.2 ≠ none}.Finite
  ref : ∀ f, (s.file f).ref = {x : Nat × Fd | (s.proc x.1).ofile x.2 = some f}.ncard
  page : ∀ pa e, s.pipe pa = some e → e.readopen = true ∨ e.writeopen = true
  readopen : ∀ pa, (∃ e, s.pipe pa = some e ∧ e.readopen = true) ↔ ∃ f, OpenEnd s pa false f
  writeopen : ∀ pa, (∃ e, s.pipe pa = some e ∧ e.writeopen = true) ↔ ∃ f, OpenEnd s pa true f

theorem Files.open_iff (h : Files (fds s.proc) [] s.file s.pipe) (pa : Nat) (w : Bool) :
    (∃ e, s.pipe pa = some e ∧ e.isOpen w = true) ↔ ∃ f, OpenEnd s pa w f := by
  constructor
  · rintro ⟨e, he, hopen⟩
    obtain ⟨f, hf⟩ := h.ends.opened pa e w he hopen
    exact ⟨f, (h.openEnd_iff pa w f).mpr hf⟩
  · rintro ⟨f, hf⟩
    exact h.ends.page f pa w ((h.openEnd_iff pa w f).mp hf)

theorem Files.counts (h : Files (fds s.proc) [] s.file s.pipe) : FileCounts s := by
  refine ⟨h.sparse, h.ref, fun pa e he => ?_, fun pa => h.open_iff pa false,
    fun pa => h.open_iff pa true⟩
  obtain ⟨w, hw⟩ := h.ends.kept pa e he
  cases w with
  | true => exact .inr hw
  | false => exact .inl hw

-- The counts of the table of files are right between calls, and no call finds one
-- that makes filedup() or fileclose() panic.
theorem file_refs (img : Image) (h : Serial (Calls sb) (boot img) hist s) :
    FileCounts s ∧ ∀ p call msg, (s.proc p).cwd ≠ none →
      (syscall sb p call).run s = .panic msg → msg ≠ "filedup" ∧ msg ≠ "fileclose" := by
  have hs := settled_of_serial img h
  refine ⟨hs.files.counts, fun p call msg hlive hr => ?_⟩
  have hwp := hs.call hlive call (fun _ => trivial) (fun _ _ hk => hk) fun hr => hr.elim
  exact (hwp.panic (fun _ _ => ⟨fun hd => hd.elim, fun _ _ hk => hk⟩) hr).1

-- pipe(), fork() and exit() of the child.
theorem file_refs_pipe : ∃ hist s, Serial (Calls Mkfs.sb) (boot emptyImage) hist s ∧
    (∃ pa f, OpenEnd s pa true f) ∧ FileCounts s := by
  have hrun : (session Mkfs.sb [(0, .pipe (some 7) true), (0, .fork 1 true), (1, .exit)]
      (boot emptyImage)).any (fun r => (r.2.pipe 7).any (·.writeopen)) = true := by decide +kernel
  obtain ⟨hist, s, hserial, hcheck⟩ := exists_serial hrun
  obtain ⟨e, he, hw⟩ := (Option.any_eq_true _ _).mp hcheck
  have hcounts := (file_refs emptyImage hserial).1
  obtain ⟨f, hf⟩ := (hcounts.writeopen 7).mp ⟨e, he, hw⟩
  exact ⟨hist, s, hserial, ⟨7, f, hf⟩, hcounts⟩

-- There is room in the table of inodes for those that one call takes.
def Roomy (s : Sys) : Prop :=
  (Finset.univ.filter fun i : Slot => 0 < (s.inode i).ref).card + 3 ≤ NINODE

instance (s : Sys) : Decidable (Roomy s) := inferInstanceAs (Decidable (_ ≤ _))

theorem Settled.fits (h : Settled M s) (hroom : Roomy s) : M.Fits (Ctx.idle s) 3 := by
  intro _
  have hused : (Ctx.idle s).used =
      (Finset.univ.filter fun i : Slot => 0 < (s.inode i).ref).card := by
    unfold Ctx.used
    congr 1
    ext i
    simp [h.ref_eq]
  show (Ctx.idle s).used + 0 + 0 + 3 ≤ NINODE
  rw [hused]
  exact hroom

-- If every call finds that NINODE - 3 entries of the table at most are in use, then
-- iget() always finds one that is free.
theorem iget_finds_inode (img : Image)
    (h : Serial (fun p s q => Calls sb p s q ∧ Roomy s) (boot img) hist s)
    (hlive : (s.proc p).cwd ≠ none) (hroom : Roomy s) (call : Syscall) :
    (syscall sb p call).run s ≠ .panic "iget: no inodes" := by
  intro hr
  have hs := (Settled.serial (M := .counting sb (boot img) True) h (fun _ _ _ hq => hq.1)
    (settled_counting img True) id trivial (fun _ hk => hk) fun _ _ _ hs hq => hs.fits hq.2).1
  have hwp := hs.call hlive call (fun _ => trivial) (fun _ _ hk => hk) (hs.fits hroom)
  have hpanics := hwp.panic (fun _ _ => ⟨fun hd => hd.elim, fun _ _ hk => hk⟩) hr
  exact hpanics.2.2 trivial rfl

-- mkdir("d") after boot.
theorem iget_finds_inode_mkdir : Roomy (boot emptyImage) ∧
    (syscall Mkfs.sb 0 (.mkdir (some [100]))).run (boot emptyImage) ≠
      .panic "iget: no inodes" := by
  have hroom : Roomy (boot emptyImage) := by decide +kernel
  exact ⟨hroom, iget_finds_inode emptyImage .init (p := 0) (fun h => by cases h) hroom _⟩

-- Directories 1 to NINODE + 1, of which each one has the next one in it, as a.
def nested : Image where
  dinode := fun n =>
    if n ≠ 0 ∧ n ≤ NINODE + 1 then
      { Dinode.zero with
        type := .dir
        nlink := if n = NINODE + 1 then 1 else 2
        size := if n = NINODE + 1 then 2 * DIRENT else 3 * DIRENT
        addrs := fun k => if k = 0 then Mkfs.nmeta + n else 0 }
    else Dinode.zero
  bitmap := fun b => decide (b ≤ Mkfs.nmeta + NINODE + 1)
  data := fun b => Block.zero.splice 0 (Dirent.encode ⟨b - Mkfs.nmeta, DOT⟩ ++
    Dirent.encode ⟨max (b - Mkfs.nmeta - 1) ROOTINO, DOTDOT⟩ ++
    Dirent.encode ⟨b - Mkfs.nmeta + 1, [97]⟩)

-- Each process of the list forks, and its child goes to the next directory.
def descend : List Nat → List (Nat × Syscall)
  | [] => []
  | p :: rest => (p, .fork (p + 1) true) :: (p + 1, .chdir (some [97])) :: descend rest

-- Fifty processes are each in a directory of their own, which takes every entry
-- of the table, and the last one looks up the next directory.
theorem nested_no_inodes :
    ∃ hist s, session Mkfs.sb (descend (List.range 49)) (boot nested) = some (hist, s) ∧
      Serial (Calls Mkfs.sb) (boot nested) hist s ∧ (s.proc 49).cwd ≠ none ∧
      (syscall Mkfs.sb 49 (.chdir (some [97]))).run s = .panic "iget: no inodes" := by
  have hrun : (session Mkfs.sb (descend (List.range 49)) (boot nested)).any (fun r =>
      (r.2.proc 49).cwd.isSome && decide (message ((syscall Mkfs.sb 49 (.chdir (some [97]))).run
        r.2) = some "iget: no inodes")) = true := by decide +kernel
  obtain ⟨⟨hist, s⟩, hs, hcheck⟩ := (Option.any_eq_true _ _).mp hrun
  rw [Bool.and_eq_true] at hcheck
  refine ⟨hist, s, hs, serial_of_session .init hs, ?_, eq_panic (of_decide_eq_true hcheck.2)⟩
  exact Option.isSome_iff_ne_none.mp hcheck.1

end Xv6.Fs
