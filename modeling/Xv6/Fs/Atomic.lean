import Xv6.Fs.Runs
import Xv6.Mkfs.Sound

namespace Xv6.Fs

open Lib

variable {sb : Superblock} {s t : Sys} {p : Nat} {hist : List (Label × Sys)} {watch : Nat → Prop}

-- The runs from a consistent image, in which the inodes of watch are compared with
-- what they were in the state snap.
def Mode.comparing (sb : Superblock) (p : Nat) (watch : Nat → Prop) (snap : Sys) : Mode where
  sb := sb
  p := p
  exact := False
  holeFree := True
  linked := True
  durable := False
  writes := True
  roomy := False
  keep := fun _ => False
  watch := watch
  snap := snap
  linked_of_durable := False.elim

-- An image whose inodes have blocks of their own, and the blocks that they need.
structure Image.Consistent (sb : Superblock) (img : Image) : Prop where
  linked : img.Linked
  blocks : Blocks sb False img.dinode [] (boot img)

theorem final_emptyImage : ∃ m m', emptyImage = m.image ∧ Mkfs.Final [] m m' := by
  have hbuild : (Mkfs.build []).isSome = true := by decide +kernel
  obtain ⟨m, m', hm, -, hfinal⟩ := Mkfs.main_of_build [] (by decide) hbuild
  refine ⟨m, m', ?_, hfinal⟩
  rw [emptyImage, Mkfs.main, hm]
  rfl

theorem linked_of_final {files : List Mkfs.HostFile} {m : Mkfs.Mk} {m' : Mkfs.Store}
    (h : Mkfs.Final files m m') : m.image.Linked := by
  refine ⟨fun n => (h.sim.fits n).nlink, fun n => ?_, h.type_ne Nat.one_pos (Nat.le_add_left 2 _)⟩
  by_cases hn : 0 < n ∧ n < files.length + 2
  · have hnlink := h.made hn.1 hn.2
    refine iff_of_true (h.type_ne hn.1 hn.2) ?_
    show (m.dinode n).nlink ≠ 0
    rw [hnlink]
    decide
  · have hfree := h.free (n := n) (by omega)
    show (m.dinode n).type ≠ .free ↔ (m.dinode n).nlink ≠ 0
    rw [hfree]
    exact iff_of_false (fun h => h rfl) fun h => h rfl

theorem consistent_emptyImage : emptyImage.Consistent Mkfs.sb := by
  obtain ⟨m, m', himg, hfinal⟩ := final_emptyImage
  rw [himg]
  exact ⟨linked_of_final hfinal, hfinal.holeFree (by decide) (by decide)⟩

theorem settled_comparing {img : Image} (himg : img.Consistent sb)
    (h : Serial (Calls sb) (boot img) hist s) (p : Nat) (watch : Nat → Prop) (snap : Sys) :
    Settled (.comparing sb p watch snap) s :=
  (Settled.serial (M := .comparing sb p watch snap) h (fun _ _ _ hq => hq)
    (settled_boot img (fun _ => himg.linked) (fun _ => himg.blocks) fun _ _ hk => hk.elim)
    id trivial (fun _ hk => hk) fun _ _ _ _ _ hr => hr.elim).1

def Linked (s : Sys) (n : Nat) : Prop := (s.dinode n).type ≠ .free ∧ (s.dinode n).nlink ≠ 0

-- What the call finds, where everything that it does can still be undone.
def Ctx.start (s : Sys) : Ctx :=
  { Ctx.idle s with watching := True, nlinks := fun n => (s.dinode n).nlink }

theorem node_relink {data : Nat → Block} {d : Dinode} (h : d.type ≠ .free) :
    { node data d with nlink := d.nlink } = node data d := by
  simp [node, h]

theorem Settled.start (h : Settled (.comparing sb p watch s) s)
    (hwatch : ∀ n, watch n → (s.dinode n).type ≠ .free) :
    Inv (.comparing sb p watch s) (Ctx.start s) s := by
  refine h.inv.recount rfl (fun _ => rfl) (fun _ hd => ⟨hd.dying, hd.held, hd.closed⟩)
    fun _ _ => ⟨trivial, fun _ => rfl, fun n hn => ⟨hwatch n hn, (node_relink (hwatch n hn)).symm⟩,
      fun n hn hz => ?_, (fun x hx => by cases hx), (fun x hx => by cases hx), fun _ _ => rfl⟩
  rcases (h.inv.links trivial).orphan n ⟨hwatch n hn, hz⟩ with hfresh | ⟨i, huse, -⟩
  · cases hfresh
  · exact .inl ⟨i, huse.refs, huse.inum⟩

-- What a call leaves that has failed.
structure Undone (watch : Nat → Prop) (s t : Sys) : Prop where
  same : ∀ n, watch n → node t.data (t.dinode n) = node s.data (s.dinode n)
  free : ∀ n, (s.dinode n).type = .free → (t.dinode n).type = .free

theorem Inv.undone (ht : Inv (.comparing sb p watch s) (Ctx.start s) t)
    (h : Settled (.comparing sb p watch s) s)
    (hwatch : ∀ n, watch n → (s.dinode n).type ≠ .free) : Undone watch s t := by
  have hw := ht.watched trivial trivial
  refine ⟨fun n hn => ?_, fun n hn => ?_⟩
  · rw [(hw.same n hn).2]
    exact node_relink (hwatch n hn)
  · by_contra halloc
    -- The inode has no link, and so a file or a process refers to it, as before.
    have hlinks := h.inv.links trivial
    have hnlink : (t.dinode n).nlink = 0 := (hw.nlink n).trans (hlinks.free n hn)
    rcases (ht.links trivial).orphan n ⟨halloc, hnlink⟩ with hfresh | ⟨i, huse, -⟩
    · cases hfresh
    · have hopen : 0 < (Ctx.idle s).opens i := huse.refs
      have hinum : (s.inode i).inum = n := (hw.opened i hopen).symm.trans huse.inum
      refine hlinks.opened i hopen ?_
      rw [hinum]
      exact hn

theorem Mode.done_comparing {α : Type} {Q : α → Sys → Prop} {m : Prog Sys Label α} {snap : Sys}
    {a : α} (h : (Mode.comparing sb p watch snap).spec.Wp Q m s) (hr : m.run s = .done t a) :
    Q a t :=
  h.done (fun _ _ => ⟨fun hd => hd.elim, fun _ _ hk => hk⟩) hr

theorem Ctx.clear_start (s : Sys) (p : Nat) : (Ctx.start s).Clear p :=
  ⟨⟨⟨rfl, rfl⟩, rfl, rfl, rfl⟩, rfl, rfl⟩

-- link(), unlink(), mkdir() and mknod().
def Syscall.names : Syscall → Prop
  | .link .. | .unlink _ | .mkdir _ | .mknod .. => True
  | _ => False

theorem Settled.wp_names (h : Settled (.comparing sb p (Linked s) s) s) {call : Syscall}
    (hcall : call.names) : (Mode.comparing sb p (Linked s) s).spec.Wp
      (fun r t => Inv (.comparing sb p (Linked s) s) ((Ctx.start s).after r) t)
      (syscall sb p call) s := by
  have hclear := Ctx.clear_start s p
  have hstart := h.start fun _ hn => hn.1
  have hroom : ∀ k, (Mode.comparing sb p (Linked s) s).Fits (Ctx.start s) k := fun _ hr => hr.elim
  cases call with
  | link old new => exact Inv.wp_sysLink hclear (hroom 3) hstart
  | unlink path => exact Inv.wp_sysUnlink hclear (hroom 2) hstart
  | mkdir path => exact Inv.wp_makeNode hclear (fun heq => by cases heq) (hroom 3) hstart
  | mknod path major minor =>
    exact Inv.wp_makeNode hclear (fun heq => by cases heq) (hroom 3) hstart
  | _ => exact hcall.elim

-- A call that fails leaves every inode that has a link as it was, with the entries
-- of the directories, and allocates none.
theorem failed_call_undone {img : Image} (himg : img.Consistent sb)
    (h : Serial (Calls sb) (boot img) hist s) {call : Syscall} (hcall : call.names)
    (hr : (syscall sb p call).run s = .done t (-1)) :
    (∀ n, (s.dinode n).type ≠ .free → (s.dinode n).nlink ≠ 0 →
      node t.data (t.dinode n) = node s.data (s.dinode n)) ∧
    ∀ n, (s.dinode n).type = .free → (t.dinode n).type = .free := by
  have hs := settled_comparing himg h p (Linked s) s
  have hdone := Mode.done_comparing (hs.wp_names hcall) hr
  rw [Ctx.after_of_neg (c := Ctx.start s) (r := -1) (by decide)] at hdone
  have hundone := hdone.undone hs fun _ hn => hn.1
  exact ⟨fun n htype hnlink => hundone.same n ⟨htype, hnlink⟩, hundone.free⟩

-- link() of a file to its own name, which has counted the link before it fails.
theorem failed_call_undone_link : ∃ hist s t,
    Serial (Calls Mkfs.sb) (boot emptyImage) hist s ∧ (s.dinode 2).nlink = 1 ∧
    (syscall Mkfs.sb 0 (.link (some [97]) (some [97]))).run s = .done t (-1) ∧
    (∀ n, (s.dinode n).type ≠ .free → (s.dinode n).nlink ≠ 0 →
      node t.data (t.dinode n) = node s.data (s.dinode n)) ∧
    ∀ n, (s.dinode n).type = .free → (t.dinode n).type = .free := by
  have hrun : (session Mkfs.sb [(0, .open (some [97]) O_CREATE)] (boot emptyImage)).any (fun r =>
      decide ((r.2.dinode 2).nlink = 1 ∧
        answer ((syscall Mkfs.sb 0 (.link (some [97]) (some [97]))).run r.2) = some (-1))) =
      true := by decide +kernel
  obtain ⟨hist, s, hs, hcheck⟩ := exists_serial hrun
  obtain ⟨hnlink, hanswer⟩ := of_decide_eq_true hcheck
  obtain ⟨t, ht⟩ := exists_answer hanswer
  have hcall : Syscall.names (.link (some [97]) (some [97])) := trivial
  obtain ⟨hsame, hfree⟩ := failed_call_undone consistent_emptyImage hs hcall ht
  exact ⟨hist, s, t, hs, hnlink, ht, hsame, hfree⟩

end Xv6.Fs
