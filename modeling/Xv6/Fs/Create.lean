import Xv6.Fs.Paths

namespace Xv6.Fs

open Lib

-- No inode is locked, and the current directory of the process counts.
structure Ctx.Outside (c : Ctx) (p : Nat) : Prop where
  bare : c.Bare
  locked : c.locked = []
  fresh : c.fresh = []
  cwd : c.dirs p = (c.proc p).cwd

-- The call refers to no inode.
structure Ctx.Clear (c : Ctx) (p : Nat) : Prop extends c.Outside p where
  held : c.held = []
  pinned : c.pinned = []

-- The slots of l are those that the call may have left without a link.
def Ctx.doom (c : Ctx) (l : List Slot) : Ctx := { c with dying := l }

-- The call has locked the inodes of two slots, one after the other.
def Ctx.inside (c : Ctx) (dp ip : Slot) : Ctx := (((c.hold dp).lock dp).hold ip).lock ip

variable {M : Mode} {c : Ctx} {s t : Sys} {i ip dp : Slot} {n : Nat} {v : Int}

namespace Ctx.Outside

variable {p : Nat} (h : c.Outside p)

include h

theorem hold (i : Slot) : (c.hold i).Outside p :=
  ⟨⟨h.bare.isdir, h.bare.made⟩, h.locked, h.fresh, h.cwd⟩

theorem pin (i : Slot) (n : Nat) : (c.pin i n).Outside p :=
  ⟨⟨h.bare.isdir, h.bare.made⟩, h.locked, h.fresh, h.cwd⟩

theorem doom (l : List Slot) : (c.doom l).Outside p :=
  ⟨⟨h.bare.isdir, h.bare.made⟩, h.locked, h.fresh, h.cwd⟩

theorem relinked (n : Nat) (v : Int) : (c.relinked n v).Outside p :=
  ⟨⟨h.bare.isdir, h.bare.made⟩, h.locked, h.fresh, h.cwd⟩

theorem blind : c.blind.Outside p :=
  ⟨⟨h.bare.isdir, h.bare.made⟩, h.locked, h.fresh, h.cwd⟩

theorem bare_lock (i : Slot) : ((c.hold i).lock i).Bare := ⟨h.bare.isdir, h.bare.made⟩

end Ctx.Outside

namespace Ctx.Clear

variable {p : Nat} (h : c.Clear p)

include h

theorem doom (l : List Slot) : (c.doom l).Clear p := ⟨h.toOutside.doom l, h.held, h.pinned⟩

end Ctx.Clear

namespace Inv

theorem undie (h : Inv M c s) (hheld : c.held = []) (hpinned : c.pinned = []) (l : List Slot) :
    Inv M (c.doom l) s := by
  refine h.recount rfl (fun _ => rfl) (fun j hd => ?_) fun hw hwatch => ?_
  · rcases hd.held with hmem | hmem
    · rw [hheld] at hmem
      cases hmem
    · rw [Ctx.pins, hpinned] at hmem
      cases hmem
  · exact (h.watched hw hwatch).congr h.table rfl rfl rfl rfl rfl (fun _ hj => ⟨hj, id⟩)
      fun _ _ => rfl

theorem wp_iunlockput_outer {dirs : List Slot} {made : List (Slot × Nat)} (hc : c.Outside M.p)
    (h : Inv M { c.inside dp ip with isdir := dirs, made := made } s) :
    M.spec.Wp (fun _ t => Inv M ((c.hold ip).lock ip) t) (iunlockput M.p dp) s := by
  refine (h.wp_iunlockput (List.mem_cons_of_mem _ List.mem_cons_self)).mono fun _ t ht => ?_
  have ht : Inv M ((((((c.hold dp).hold ip).lock dp).lock ip).unlock dp).drop dp) t := ht
  rw [Ctx.unlock_lock_lock _ _ _ ((hc.hold dp).hold ip).bare] at ht
  have ht : Inv M ((((c.hold dp).hold ip).drop dp).lock ip) t := ht
  rw [Ctx.drop_hold_hold] at ht
  exact ht

theorem nlink_eq (h : Inv M c s) (hi : i ∈ c.locked) (hw : M.holeFree) (hwatch : c.watching) :
    (s.inode i).nlink = c.nlinks (s.inode i).inum := by
  rw [← (h.watched hw hwatch).nlink, ← h.whole hi hw]

section Link

-- v is one more than the links of inode n, which the call does not free.
structure Bumped (M : Mode) (c : Ctx) (n : Nat) (v : Int) : Prop where
  succ : v = short (c.nlinks n + 1)
  ranged : short (c.nlinks n) = c.nlinks n
  live : M.watch n → c.nlinks n = 0 → HasFile M c n

variable (hc : c.Clear M.p)

include hc

theorem wp_linkBad (hv : M.holeFree → c.watching → Bumped M c n v)
    (h : Inv M (((c.relinked n v).die ip).pin ip n) s) :
    M.spec.Wp (fun r t => Inv M (c.after r) t) (linkBad M.p ip) s := by
  refine .bind (h.wp_ilock ip) fun _ t ht => ?_
  obtain ⟨-, -, ht, -⟩ := ht
  have hinum : M.holeFree → c.watching → (t.inode ip).inum = n := fun hw hwatch =>
    (ht.watched hw hwatch).pinned (ip, n) List.mem_cons_self
  refine .bind (ht.wp_decLink List.mem_cons_self (.inr List.mem_cons_self) fun hw hwatch => ?_)
    fun _ u hu => ?_
  · rw [hinum hw hwatch]
    exact List.mem_cons_self
  · -- The count is what it was before the call.
    have hu : Inv M (((c.doom (ip :: ip :: c.dying)).pin ip n).lock ip) u := by
      refine settle hu fun hw hwatch => ?_
      have hnlink := ht.nlink_eq List.mem_cons_self hw hwatch
      have hn : ((((c.relinked n v).die ip).pin ip n).lock ip).nlinks n = v :=
        Function.update_self ..
      rw [hinum hw hwatch, hn] at hnlink
      obtain ⟨hsucc, hranged, -⟩ := hv hw hwatch
      show Function.update (Function.update c.nlinks n v) _ _ = c.nlinks
      rw [hinum hw hwatch, hnlink, Function.update_idem, hsucc, short_pred_succ hranged,
        Function.update_eq_self]
    have hu : Inv M (((c.doom (ip :: ip :: c.dying)).lock ip).hold ip) u :=
      unpin hu fun hw hwatch => (hv hw hwatch).live
    refine .bind (hu.wp_iunlockput List.mem_cons_self) fun _ w hw => ?_
    have hw : Inv M (((((c.doom (ip :: ip :: c.dying)).hold ip).lock ip).unlock ip).drop ip) w := hw
    rw [Ctx.unlock_drop _ _ (hc.doom _).bare] at hw
    exact (hw.undie hc.held hc.pinned c.dying).wp_fail hc.held hc.pinned hc.fresh

theorem wp_linkParent {name : List UInt8} (hv : M.holeFree → c.watching → Bumped M c n v)
    (hroom : M.Fits c 3) (h : Inv M ((((c.relinked n v).die ip).pin ip n).hold dp) s) :
    M.spec.Wp (fun r t => Inv M (c.after r) t) (linkParent M.sb M.p ip dp name) s := by
  have hout : (((c.relinked n v).doom (ip :: c.dying)).pin ip n).Outside M.p :=
    ((hc.relinked n v).doom _).pin ip n
  refine .bind (h.wp_ilock dp) fun _ t ht => ?_
  obtain ⟨-, -, ht, -⟩ := ht
  refine .look_bind fun _ => ⟨ht.must rfl, ?_⟩
  refine .look_bind fun _ => ⟨ht.must rfl, ?_⟩
  have hentry : M.spec.Wp (fun r u =>
      Inv M (((((c.relinked n v).die ip).pin ip n).hold dp).lock dp |>.after r) u)
      (linkEntry M.sb M.p dp name ((t.inode dp).dev, (t.inode ip).dev) (t.inode ip).inum) t := by
    unfold linkEntry
    split
    · exact ht
    · refine (ht.wp_dirlink List.mem_cons_self fun hr => ?_).mono fun _ _ hu => hu.1
      exact ((hroom hr).pin ip n).hold dp
  refine .bind hentry fun r u hu => ?_
  by_cases hr : r < 0
  · rw [Ctx.after_of_neg _ hr] at hu
    refine .bind (hu.wp_iunlockput List.mem_cons_self) fun _ w hw => ?_
    have hw : Inv M (((((((c.relinked n v).doom (ip :: c.dying)).pin ip n).hold dp).lock dp).unlock
      dp).drop dp) w := hw
    rw [Ctx.unlock_drop _ _ hout.bare] at hw
    rw [if_pos hr]
    exact wp_linkBad hc hv hw
  · rw [Ctx.after_of_nonneg _ hr] at hu
    refine .bind (hu.wp_iunlockput List.mem_cons_self) fun _ w hw => ?_
    have hw : Inv M ((((((c.blind.doom (ip :: c.dying)).pin ip n).hold dp).lock dp).unlock
      dp).drop dp) w := hw
    rw [Ctx.unlock_drop _ _ ((hc.toOutside.blind.doom _).pin ip n).bare] at hw
    rw [if_neg hr]
    have hw : Inv M ((c.blind.doom (ip :: c.dying)).hold ip) w := hw.unpin fun _ hf => hf.elim
    refine .bind (hw.wp_iput List.mem_cons_self fun hi => ?_) fun _ x hx => ?_
    · have hi : ip ∈ c.locked := hi
      rw [hc.locked] at hi
      cases hi
    · rw [Ctx.drop_hold] at hx
      have hx : Inv M c.blind x := hx.undie hc.held hc.pinned c.dying
      exact .bind (hx.wp_endOp hc.held hc.pinned hc.fresh) fun _ _ hy => hy

theorem wp_linkFrom {new : List UInt8} (hroom : M.Fits c 3) (h : Inv M (c.hold ip) s) :
    M.spec.Wp (fun r t => Inv M (c.after r) t) (linkFrom M.sb M.p ip new) s := by
  refine .bind (h.wp_ilock ip) fun _ t ht => ?_
  obtain ⟨-, -, ht, -⟩ := ht
  refine .look_bind fun _ => ⟨ht.must rfl, ?_⟩
  split
  · refine .bind (ht.wp_iunlockput List.mem_cons_self) fun _ u hu => ?_
    rw [Ctx.unlock_drop _ _ hc.bare] at hu
    exact hu.wp_fail hc.held hc.pinned hc.fresh
  · have hv : M.holeFree → c.watching →
        Bumped M c (t.inode ip).inum (short ((t.inode ip).nlink + 1)) := by
      intro hw hwatch
      have hwatched := ht.watched hw hwatch
      refine ⟨?_, ?_, fun hn hz => ?_⟩
      · rw [ht.nlink_eq List.mem_cons_self hw hwatch]
        rfl
      · have hranged := (ht.links hwatched.linked).ranged (t.inode ip).inum
        rw [hwatched.nlink] at hranged
        exact hranged
      · rcases hwatched.live _ hn hz with hfile | ⟨j, hj⟩
        · exact hfile
        · have hj : (j, (t.inode ip).inum) ∈ c.pinned := hj
          rw [hc.pinned] at hj
          cases hj
    generalize hn : (t.inode ip).inum = n at hv
    have ht : Inv M ((c.lock ip).pin ip n) t := pin ht hn
    refine .bind (ht.wp_incLink List.mem_cons_self (.inr List.mem_cons_self) fun _ _ => ?_)
      fun _ u hu => ?_
    · rw [hn]
      exact List.mem_cons_self
    · rw [hn] at hu
      generalize short ((t.inode ip).nlink + 1) = v at hv hu
      refine .bind (hu.wp_iunlock ip) fun _ w hw => ?_
      have hw : Inv M (((((c.relinked n v).doom (ip :: c.dying)).pin ip n).lock ip).unlock ip) w :=
        hw.2
      have hout : (((c.relinked n v).doom (ip :: c.dying)).pin ip n).Outside M.p :=
        ((hc.relinked n v).doom _).pin ip n
      rw [Ctx.unlock_lock _ _ hout.bare] at hw
      refine .bind (hw.wp_nameiparent hout.bare hc.locked hc.cwd (fun hr => (hroom hr).pin ip n)
        new) fun r x hx => ?_
      cases r with
      | none => exact wp_linkBad hc hv hx
      | some y => exact wp_linkParent hc hv hroom hx

theorem wp_sysLink {old new : Option (List UInt8)} (hroom : M.Fits c 3) (h : Inv M c s) :
    M.spec.Wp (fun r t => Inv M (c.after r) t) (sysLink M.sb M.p old new) s := by
  cases old with
  | none => exact h
  | some old =>
    cases new with
    | none => exact h
    | some new =>
      refine .bind h.wp_beginOp fun _ t ht => ?_
      refine .bind (ht.wp_namei hc.bare hc.locked hc.cwd
        (fun hr => (hroom hr).mono (by decide)) old) fun r u hu => ?_
      cases r with
      | none => exact hu.wp_fail hc.held hc.pinned hc.fresh
      | some ip => exact wp_linkFrom hc hroom hu

theorem wp_unlinkBad (h : Inv M ((c.hold dp).lock dp) s) :
    M.spec.Wp (fun r t => Inv M (c.after r) t) (unlinkBad M.p dp) s := by
  refine .bind (h.wp_iunlockput List.mem_cons_self) fun _ t ht => ?_
  rw [Ctx.unlock_drop _ _ hc.bare] at ht
  exact ht.wp_fail hc.held hc.pinned hc.fresh

theorem wp_unlinkRemove {type : InodeType} {off : Nat}
    (h : Inv M ((c.inside dp ip).asdir dp) s) :
    M.spec.Wp (fun r t => Inv M (c.after r) t) (unlinkRemove M.sb M.p dp ip type off) s := by
  have hdp : dp ∈ ((c.inside dp ip).asdir dp).locked := List.mem_cons_of_mem _ List.mem_cons_self
  have hdp' : dp ∈ ((c.inside dp ip).asdir dp).held := List.mem_cons_of_mem _ List.mem_cons_self
  refine .bind (h.wp_writei hdp (.inr List.mem_cons_self)) fun r t ht => ?_
  split
  · have hparent : M.spec.Wp (fun _ u => ∃ l,
        Inv M (((c.blind.doom l).inside dp ip).asdir dp) u) (unlinkParent dp type) t := by
      unfold unlinkParent
      split
      · exact (ht.wp_decLink hdp (.inl hdp') fun _ hf => hf.elim).mono fun _ u hu =>
          ⟨dp :: c.dying, hu.blind⟩
      · exact ⟨c.dying, ht⟩
    refine .bind hparent fun _ u hu => ?_
    obtain ⟨l, hu⟩ := hu
    refine .bind (wp_iunlockput_outer (hc.toOutside.blind.doom l) hu) fun _ v hv => ?_
    refine .bind (hv.wp_decLink List.mem_cons_self (.inl List.mem_cons_self) fun _ hf => hf.elim)
      fun _ w hw => ?_
    have hw : Inv M (((c.blind.doom (ip :: l)).hold ip).lock ip) w := hw.blind
    refine .bind (hw.wp_iunlockput List.mem_cons_self) fun _ x hx => ?_
    rw [Ctx.unlock_drop _ _ (hc.toOutside.blind.doom _).bare] at hx
    have hx : Inv M c.blind x := hx.undie hc.held hc.pinned c.dying
    exact .bind (hx.wp_endOp hc.held hc.pinned hc.fresh) fun _ _ hy => hy
  · exact ⟨by decide, fun _ => by decide, fun _ => by decide⟩

theorem wp_unlinkEntry {off : Nat} (h : Inv M ((((c.hold dp).lock dp).asdir dp).hold ip) s) :
    M.spec.Wp (fun r t => Inv M (c.after r) t) (unlinkEntry M.sb M.p dp ip off) s := by
  refine .bind (h.wp_ilock ip) fun _ t ht => ?_
  obtain ⟨-, -, ht, -⟩ := ht
  refine .look_bind fun _ => ⟨ht.must rfl, ?_⟩
  split
  · exact ⟨by decide, fun _ => by decide, fun _ => by decide⟩
  · have hremovable : M.spec.Wp (fun _ u => Inv M ((c.inside dp ip).asdir dp) u)
        (removable M.sb ip (t.inode ip).type) t := by
      unfold removable
      split
      · exact ht.wp_isdirempty List.mem_cons_self
      · exact ht
    refine .bind hremovable fun ok u hu => ?_
    cases ok with
    | true => exact wp_unlinkRemove hc hu
    | false =>
      refine .bind (hu.wp_iunlockput List.mem_cons_self) fun _ v hv => ?_
      have hv : Inv M (((((c.hold dp).lock dp).hold ip).lock ip).unlock ip |>.drop ip) v := hv
      rw [Ctx.unlock_drop _ _ (hc.bare_lock dp)] at hv
      exact wp_unlinkBad hc hv

theorem wp_unlinkFrom {name : List UInt8} (hroom : M.Fits c 2) (h : Inv M (c.hold dp) s) :
    M.spec.Wp (fun r t => Inv M (c.after r) t) (unlinkFrom M.sb M.p dp name) s := by
  refine .bind (h.wp_ilock dp) fun _ t ht => ?_
  obtain ⟨-, -, ht, -⟩ := ht
  split
  · exact wp_unlinkBad hc ht
  · refine .bind (ht.wp_dirlookup List.mem_cons_self fun hr => (hroom hr).hold dp) fun r u hu => ?_
    cases r with
    | none => exact wp_unlinkBad hc (of_asdir hu)
    | some x => exact wp_unlinkEntry hc hu

theorem wp_sysUnlink {path : Option (List UInt8)} (hroom : M.Fits c 2) (h : Inv M c s) :
    M.spec.Wp (fun r t => Inv M (c.after r) t) (sysUnlink M.sb M.p path) s := by
  cases path with
  | none => exact h
  | some path =>
    refine .bind h.wp_beginOp fun _ t ht => ?_
    refine .bind (ht.wp_nameiparent hc.bare hc.locked hc.cwd hroom path) fun r u hu => ?_
    cases r with
    | none => exact hu.wp_fail hc.held hc.pinned hc.fresh
    | some x => exact wp_unlinkFrom hc hroom hu

end Link

-- What create() answers with: an inode that it has locked. It lowers no link count
-- for a file.
def Created (M : Mode) (c : Ctx) (type : InodeType) (r : Option Slot) (t : Sys) : Prop :=
  match r with
  | none => ∃ l, Inv M (c.doom l) t
  | some i => ∃ l, Inv M (((c.blind.doom l).hold i).lock i) t ∧ (type = .file → l = c.dying)

section Create

variable {type : InodeType}

theorem Room.inside {k : Nat} (h : c.Room (k + 2)) (dp ip : Slot) : (c.inside dp ip).Room k :=
  (Ctx.Room.hold h dp).hold ip

theorem wp_createParent (h : Inv M ((c.blind.inside dp ip).make ip n) s) :
    M.spec.Wp (fun _ t => ∃ l, Inv M (((c.blind.doom l).inside dp ip).make ip n) t ∧
      (type = .file → l = c.dying)) (createParent dp type) s := by
  have hdp : dp ∈ ((c.blind.inside dp ip).make ip n).locked :=
    List.mem_cons_of_mem _ List.mem_cons_self
  have hdp' : dp ∈ ((c.blind.inside dp ip).make ip n).held :=
    List.mem_cons_of_mem _ List.mem_cons_self
  unfold createParent
  split
  · rename_i hdir
    refine (h.wp_incLink hdp (.inl hdp') fun _ hf => hf.elim).mono fun _ t ht =>
      ⟨dp :: c.dying, ht.blind, fun hfile => ?_⟩
    rw [hdir] at hfile
    cases hfile
  · exact ⟨c.dying, h, fun _ => rfl⟩

theorem wp_createDots (hroom : M.Fits c 3) (h : Inv M ((c.inside dp ip).make ip n) s) :
    M.spec.Wp (fun _ t => Inv M ((c.inside dp ip).make ip n) t)
      (createDots M.sb M.p dp ip type) s := by
  have hfits : M.Fits ((c.inside dp ip).make ip n) 1 := fun hr => Room.inside (hroom hr) dp ip
  have hmade : Unwatched M ((c.inside dp ip).make ip n) ip := .of_made List.mem_cons_self
  unfold createDots
  split
  · refine .look_bind fun _ => ⟨h.must rfl, ?_⟩
    refine .bind (h.wp_dirlink List.mem_cons_self hfits)
      fun r t ht => ?_
    have ht := ht.2 hmade
    split
    · exact ht
    · refine .look_bind fun _ => ⟨ht.must rfl, ?_⟩
      exact (ht.wp_dirlink List.mem_cons_self hfits).mono
        fun _ _ hu => hu.2 hmade
  · exact h

theorem wp_linkNew {major minor : Int} (hinum : (s.inode ip).inum = n)
    (hnew : M.holeFree → c.watching → ¬ M.watch n)
    (h : Inv M ({ c.inside dp ip with fresh := n :: c.fresh }.make ip n) s) :
    M.spec.Wp (fun _ t => Inv M (((c.relinked n 1).inside dp ip).make ip n) t) (do
      .modify (.setLink ip) fun s => s.setInode ip fun ip =>
        { ip with major := short major, minor := short minor, nlink := 1 }
      iupdate ip) s := by
  refine h.wp_relink List.mem_cons_self rfl ?_ rfl short_one (fun m hm hmem => ?_) (fun _ hj => hj)
    (fun _ hz => ?_) fun hw hwatch hn => ?_
  · rw [hinum]
    rfl
  · rcases List.mem_cons.mp hmem with hmem | hmem
    · exact absurd (hmem.trans hinum.symm) hm
    · exact hmem
  · cases hz
  · rw [hinum] at hn
    exact absurd hn (hnew hw hwatch)

variable (hc : c.Outside M.p)

include hc

-- The new inode is freed again.
theorem wp_createFail (hopen : M.linked → c.opens ip = 0)
    (hnew : M.holeFree → c.watching → ¬ M.watch n ∧ c.nlinks n = 0)
    (h : Inv M (((c.relinked n v).inside dp ip).make ip n) s) :
    M.spec.Wp (Created M c type) (createFail M.p dp ip) s := by
  have hinum : M.holeFree → c.watching → (s.inode ip).inum = n := fun hw hwatch =>
    ((h.watched hw hwatch).made (ip, n) List.mem_cons_self).2.1
  have hzero : M.spec.Wp (fun _ t =>
      Inv M (((((c.relinked n v).inside dp ip).make ip n).die ip).relinked (s.inode ip).inum 0) t)
      (do
        .modify (.setLink ip) fun s => s.setInode ip fun ip => { ip with nlink := 0 }
        iupdate ip) s := by
    refine h.wp_relink List.mem_cons_self rfl rfl rfl short_zero (fun _ _ => id)
      (fun _ => List.mem_cons_of_mem _) (fun _ _ hd => ?_) fun hw hwatch hn => ?_
    · refine ⟨List.mem_cons_self, .inl List.mem_cons_self, ?_⟩
      exact hopen (M.linked_of_durable hd)
    · rw [hinum hw hwatch] at hn
      exact absurd hn (hnew hw hwatch).1
  unfold createFail
  rw [← Prog.bind_assoc]
  refine .bind hzero fun _ t ht => ?_
  have ht : Inv M (((c.doom (ip :: c.dying)).inside dp ip).make ip n) t := by
    refine settle ht fun hw hwatch => ?_
    show Function.update (Function.update c.nlinks n v) _ _ = c.nlinks
    rw [hinum hw hwatch, Function.update_idem, ← (hnew hw hwatch).2, Function.update_eq_self]
  refine .bind (ht.wp_iunlockput List.mem_cons_self) fun _ u hu => ?_
  have hu : Inv M (((((((c.doom (ip :: c.dying)).hold dp).lock dp).hold ip).lock ip).unlock
    ip).drop ip) u := hu
  rw [Ctx.unlock_drop _ _ ((hc.doom _).bare_lock dp)] at hu
  refine .bind (hu.wp_iunlockput List.mem_cons_self) fun _ v hv => ?_
  rw [Ctx.unlock_drop _ _ (hc.doom _).bare] at hv
  exact ⟨ip :: c.dying, hv⟩

theorem wp_createNew {name : List UInt8} {major minor : Int} (hroom : M.Fits c 3)
    (h : Allocated M ((c.hold dp).lock dp) ip n s) :
    M.spec.Wp (Created M c type) (createNew M.sb M.p dp ip name type major minor) s := by
  refine .bind (h.inv.wp_ilock ip) fun _ t ht => ?_
  obtain ⟨-, -, ht, hinum⟩ := ht
  have hinum : (t.inode ip).inum = n := hinum.trans h.inum
  have hnew : M.holeFree → c.watching → ¬ M.watch n := fun hw hwatch => (h.new hw hwatch).1
  rw [← Prog.bind_assoc]
  refine .bind (wp_linkNew hinum hnew (ht.make List.mem_cons_self hinum hnew)) fun _ u hu => ?_
  refine .bind (wp_createDots (c := c.relinked n 1) hroom hu) fun r v hv => ?_
  split
  · exact wp_createFail hc h.closed h.new hv
  · refine .look_bind fun _ => ⟨hv.must rfl, ?_⟩
    have hdp : dp ∈ (((c.relinked n 1).inside dp ip).make ip n).locked :=
      List.mem_cons_of_mem _ List.mem_cons_self
    refine .bind (hv.wp_dirlink hdp fun hr =>
      Room.inside (hroom hr) dp ip) fun r w hw => ?_
    have hw := hw.1
    split
    · rename_i hr
      rw [Ctx.after_of_neg _ hr] at hw
      exact wp_createFail hc h.closed h.new hw
    · rename_i hr
      rw [Ctx.after_of_nonneg _ hr] at hw
      refine .bind (wp_createParent hw) fun _ x hx => ?_
      obtain ⟨l, hx, hl⟩ := hx
      exact .bind (wp_iunlockput_outer (hc.blind.doom l) hx) fun _ y hy => ⟨l, hy, hl⟩

theorem wp_createFound (h : Inv M (((c.hold dp).lock dp).hold ip) s) :
    M.spec.Wp (fun r t => Inv M (r.elim c fun i => (c.hold i).lock i) t)
      (createFound M.p dp ip type) s := by
  refine .bind (h.wp_iunlockput (List.mem_cons_of_mem _ List.mem_cons_self)) fun _ t ht => ?_
  have ht : Inv M (((((c.hold dp).hold ip).lock dp).unlock dp).drop dp) t := ht
  rw [Ctx.unlock_lock _ _ ((hc.hold dp).hold ip).bare, Ctx.drop_hold_hold] at ht
  refine .bind (ht.wp_ilock ip) fun _ u hu => ?_
  obtain ⟨-, -, hu, -⟩ := hu
  refine .look_bind fun _ => ⟨hu.must rfl, ?_⟩
  split
  · exact hu
  · refine .bind (hu.wp_iunlockput List.mem_cons_self) fun _ v hv => ?_
    rw [Ctx.unlock_drop _ _ hc.bare] at hv
    exact hv

theorem wp_createIn {name : List UInt8} {major minor : Int} (htype : type ≠ .free)
    (hroom : M.Fits c 3) (h : Inv M (c.hold dp) s) :
    M.spec.Wp (Created M c type) (createIn M.sb M.p dp name type major minor) s := by
  have hfits : M.Fits ((c.hold dp).lock dp) 1 := fun hr =>
    ((hroom hr).mono (by decide : 2 ≤ 3)).hold dp
  refine .bind (h.wp_ilock dp) fun _ t ht => ?_
  obtain ⟨-, hpos, ht, -⟩ := ht
  have hdev : (t.inode dp).dev = ROOTDEV := ht.dev hpos
  refine .look_bind fun _ => ⟨ht.must rfl, ?_⟩
  refine .bind (ht.wp_dirlookup List.mem_cons_self hfits) fun r u hu => ?_
  cases r with
  | some x =>
    refine (wp_createFound hc (forget hu fun _ hj => List.mem_cons_of_mem _ hj)).mono
      fun r v hv => ?_
    cases r with
    | none => exact ⟨c.dying, hv⟩
    | some i => exact ⟨c.dying, Inv.blind hv, fun _ => rfl⟩
  | none =>
    have hu : Inv M ((c.hold dp).lock dp) u := of_asdir hu
    dsimp only
    rw [hdev]
    refine .bind (hu.wp_ialloc htype hfits) fun r v hv => ?_
    cases r with
    | none =>
      refine .bind (wp_iunlockput (i := dp) hv List.mem_cons_self) fun _ w hw => ?_
      rw [Ctx.unlock_drop _ _ hc.bare] at hw
      exact ⟨c.dying, hw⟩
    | some ip =>
      obtain ⟨n, hv⟩ := hv
      exact wp_createNew hc hroom hv

theorem wp_create {path : List UInt8} {major minor : Int} (htype : type ≠ .free)
    (hroom : M.Fits c 3) (h : Inv M c s) :
    M.spec.Wp (Created M c type) (create M.sb M.p path type major minor) s := by
  refine .bind (h.wp_nameiparent hc.bare hc.locked hc.cwd (fun hr => (hroom hr).mono (by decide))
    path) fun r t ht => ?_
  cases r with
  | none => exact ⟨c.dying, ht⟩
  | some x => exact wp_createIn hc htype hroom ht

end Create

theorem wp_makeNode {path : Option (List UInt8)} {type : InodeType} {major minor : Int}
    (hc : c.Clear M.p) (htype : type ≠ .free) (hroom : M.Fits c 3) (h : Inv M c s) :
    M.spec.Wp (fun r t => Inv M (c.after r) t) (makeNode M.sb M.p path type major minor) s := by
  refine .bind h.wp_beginOp fun _ t ht => ?_
  cases path with
  | none => exact ht.wp_fail hc.held hc.pinned hc.fresh
  | some path =>
    refine .bind (wp_create hc.toOutside htype hroom ht) fun r u hu => ?_
    cases r with
    | none =>
      obtain ⟨l, hu⟩ := hu
      exact (hu.undie hc.held hc.pinned c.dying).wp_fail hc.held hc.pinned hc.fresh
    | some ip =>
      obtain ⟨l, hu, -⟩ := hu
      refine .bind (hu.wp_iunlockput List.mem_cons_self) fun _ v hv => ?_
      rw [Ctx.unlock_drop _ _ (hc.toOutside.blind.doom l).bare] at hv
      have hv : Inv M c.blind v := hv.undie hc.held hc.pinned c.dying
      exact .bind (hv.wp_endOp hc.held hc.pinned hc.fresh) fun _ _ hw => hw

end Inv

end Xv6.Fs
