import Xv6.Fs.Rw
import Xv6.Fs.Inodes

namespace Xv6.Fs

open Lib

theorem short_zero : short 0 = 0 := by decide

theorem short_one : short 1 = 1 := by decide

theorem short_short (x : Int) : short (short x) = short x := Int.bmod_bmod

theorem short_pred_succ {x : Int} (h : short x = x) : short (short (x + 1) - 1) = x := by
  have hbmod : short (short (x + 1) - 1) = short (x + 1 - 1) := Int.bmod_sub_bmod
  rw [hbmod, Int.add_sub_cancel, h]

-- Where the call finds room for k more inodes if it is to find room.
abbrev Mode.Fits (M : Mode) (c : Ctx) (k : Nat) : Prop := M.roomy → c.Room k

-- What a call knows when it answers with r: it has failed, or what it has done is
-- there to stay.
def Ctx.after (c : Ctx) (r : Int) : Ctx := if r < 0 then c else c.blind

theorem Ctx.after_of_neg {r : Int} (c : Ctx) (h : r < 0) : c.after r = c := if_pos h

theorem Ctx.after_of_nonneg {r : Int} (c : Ctx) (h : ¬ r < 0) : c.after r = c.blind := if_neg h

variable {M : Mode} {c c' : Ctx} {s t : Sys} {i j : Slot} {n : Nat} {lbl : Label}

theorem dvd_of_mem_offsets {size off : Nat} (h : off ∈ offsets size) : DIRENT ∣ off := by
  obtain ⟨k, -, rfl⟩ := List.mem_map.mp h
  exact Nat.dvd_mul_left ..

theorem yields_dirlinkLoop (sb : Superblock) (i : Slot) (size : Nat) :
    (dirlinkLoop sb i size (offsets size)).Yields (DIRENT ∣ ·) := by
  have hoffs : ∀ off ∈ offsets size, DIRENT ∣ off := fun _ => dvd_of_mem_offsets
  generalize offsets size = offs at hoffs ⊢
  induction offs with
  | nil => exact Nat.dvd_mul_left ..
  | cons off rest ih =>
    refine .bind (.always _) fun de _ => ?_
    split
    · exact hoffs off List.mem_cons_self
    · exact ih fun off' hmem => hoffs off' (List.mem_cons_of_mem _ hmem)

namespace Inv

theorem wp_beginOp (h : Inv M c s) : M.spec.Wp (fun _ t => Inv M c t) beginOp s :=
  .modify fun _ => ⟨h.must rfl, h⟩

theorem wp_endOp (h : Inv M c s) (hheld : c.held = []) (hpinned : c.pinned = [])
    (hfresh : c.fresh = []) :
    M.spec.Wp (fun _ t => Inv M c t) endOp s := by
  refine .modify fun _ => ⟨⟨fun hw _ => h.coherent hw, (fun _ _ _ heq => by cases heq),
    (fun _ heq => by cases heq), fun _ hd n hn => ?_, fun _ _ heq => by cases heq⟩, h⟩
  rcases (h.links (M.linked_of_durable hd)).orphan n hn with hmem | ⟨i, -, hdying⟩
  · rw [hfresh] at hmem
    cases hmem
  · rcases (hdying hd).held with hmem | hmem
    · rw [hheld] at hmem
      cases hmem
    · rw [Ctx.pins, hpinned] at hmem
      cases hmem

theorem wp_fail (h : Inv M c s) (hheld : c.held = []) (hpinned : c.pinned = [])
    (hfresh : c.fresh = []) : M.spec.Wp (fun r t => Inv M (c.after r) t) fail s :=
  .bind (h.wp_endOp hheld hpinned hfresh) fun _ _ ht => ht

theorem forget (h : Inv M c s) {l : List Slot} (hl : ∀ j ∈ l, j ∈ c.isdir) :
    Inv M { c with isdir := l } s := by
  refine ⟨h.proc, h.file, h.pipe, h.sparse, ⟨fun j => ?_, h.table.unique, h.table.nodup⟩,
    fun hk => ?_, h.disk, fun hw hwatch => ?_⟩
  · have he := h.table.entry j
    exact ⟨he.ref, he.dev, he.lock, he.locked, fun hj => he.isdir (hl j hj), he.agree⟩
  · exact (h.links hk).same rfl (fun _ => id) (fun _ _ _ huse =>
      ⟨⟨huse.refs, huse.valid, huse.inum⟩, fun _ hd => ⟨hd.dying, hd.held, hd.closed⟩⟩)
      (h.links hk).opened
  · exact (h.watched hw hwatch).congr h.table rfl rfl rfl rfl rfl (fun _ hj => ⟨hj, id⟩)
      fun _ _ => rfl

theorem of_asdir (h : Inv M (c.asdir i) s) : Inv M c s :=
  h.forget fun _ => List.mem_cons_of_mem _

theorem asdir (h : Inv M c s) (hi : i ∈ c.locked) (htype : (s.inode i).type = .dir) :
    Inv M (c.asdir i) s := by
  refine ⟨h.proc, h.file, h.pipe, h.sparse, ⟨fun j => ?_, h.table.unique, h.table.nodup⟩,
    fun hk => ?_, h.disk, fun hw hwatch => ?_⟩
  · have he := h.table.entry j
    refine ⟨he.ref, he.dev, he.lock, he.locked, fun hj => ?_, he.agree⟩
    rcases List.mem_cons.mp hj with rfl | hj
    · exact ⟨hi, htype⟩
    · exact he.isdir hj
  · exact (h.links hk).same rfl (fun _ => id) (fun _ _ _ huse =>
      ⟨⟨huse.refs, huse.valid, huse.inum⟩, fun _ hd => ⟨hd.dying, hd.held, hd.closed⟩⟩)
      (h.links hk).opened
  · exact (h.watched hw hwatch).congr h.table rfl rfl rfl rfl rfl (fun _ hj => ⟨hj, id⟩)
      fun _ _ => rfl

theorem wp_readDirent {off : Nat} {msg : String} (h : Inv M c s) (hi : i ∈ c.locked)
    (hmsg : M.spec.panics msg) :
    M.spec.Wp (fun _ t => Inv M c t) (readDirent M.sb i off msg) s := by
  refine .bind (h.wp_readi hi) fun r t ht => ?_
  split
  · exact ht
  · exact hmsg

theorem wp_dirlookupLoop {name : List UInt8} (h : Inv M c s) (hi : i ∈ c.locked)
    (hroom : M.Fits c 1) (offs : List Nat) :
    M.spec.Wp (fun r t => Inv M (r.elim c fun x => c.hold x.1) t)
      (dirlookupLoop M.sb M.p i name offs) s := by
  induction offs generalizing s with
  | nil => exact h
  | cons off rest ih =>
    refine .bind (h.wp_readDirent hi ⟨by decide, fun _ => by decide, fun _ => by decide⟩) fun de t ht => ?_
    split
    · exact ih ht
    · split
      · refine .look_bind fun _ => ⟨ht.must rfl, ?_⟩
        rw [ht.dev (ht.pos hi)]
        exact .bind (ht.wp_iget hroom de.inum) fun j u hu => hu.1
      · exact ih ht

theorem wp_dirlookup {name : List UInt8} (h : Inv M c s) (hi : i ∈ c.locked)
    (hroom : M.Fits c 1) :
    M.spec.Wp (fun r t => Inv M (r.elim (c.asdir i) fun x => (c.asdir i).hold x.1) t)
      (dirlookup M.sb M.p i name) s := by
  refine .look_bind fun _ => ⟨h.must rfl, ?_⟩
  split
  · rename_i htype
    exact (h.asdir hi htype).wp_dirlookupLoop hi hroom _
  · exact ⟨by decide, fun _ => by decide, fun _ => by decide⟩

theorem wp_dirlinkLoop (h : Inv M c s) (hi : i ∈ c.locked) (size : Nat) (offs : List Nat) :
    M.spec.Wp (fun _ t => Inv M c t) (dirlinkLoop M.sb i size offs) s := by
  induction offs generalizing s with
  | nil => exact h
  | cons off rest ih =>
    refine .bind (h.wp_readDirent hi ⟨by decide, fun _ => by decide, fun _ => by decide⟩) fun de t ht => ?_
    split
    · exact ht
    · exact ih ht

theorem wp_dirlink {name : List UInt8} {inum : Nat} (h : Inv M c s) (hi : i ∈ c.locked)
    (hroom : M.Fits c 1) :
    M.spec.Wp (fun r t => Inv M (c.after r) t ∧ (Unwatched M c i → Inv M c t))
      (dirlink M.sb M.p i name inum) s := by
  refine .bind (h.wp_dirlookup hi hroom) fun r t ht => ?_
  cases r with
  | some x =>
    obtain ⟨j, off⟩ := x
    have ht : Inv M ((c.asdir i).hold j) t := ht
    refine .bind (ht.wp_iput List.mem_cons_self fun hj => ?_) fun _ u hu => ?_
    · have hpos : 0 < c.refs j := h.pos hj
      have hrefs := c.refs_hold j j
      rw [if_pos rfl] at hrefs
      show 1 < (c.hold j).refs j
      omega
    · rw [Ctx.drop_hold] at hu
      exact ⟨hu.of_asdir, fun _ => hu.of_asdir⟩
  | none =>
    refine .look_bind fun _ => ⟨ht.must rfl, ?_⟩
    refine .bind ((yields_dirlinkLoop M.sb i _).wp (ht.wp_dirlinkLoop hi _ _)) fun off u hu => ?_
    obtain ⟨hu, hoff⟩ := hu
    refine .bind (hu.wp_writeEntry hi (.inr List.mem_cons_self) hoff (length_encode _))
      fun r v hv => ?_
    obtain ⟨hblind, hwhole⟩ := hv
    by_cases hr : r = DIRENT
    · show Inv M (c.after (if r = DIRENT then 0 else -1)) v ∧ _
      rw [if_pos hr]
      have hblind : Inv M (c.blind.asdir i) v := hblind
      exact ⟨hblind.of_asdir, fun hnot =>
        (hwhole (.inr fun u hu => hnot u hu.of_asdir)).of_asdir⟩
    · show Inv M (c.after (if r = DIRENT then 0 else -1)) v ∧ _
      rw [if_neg hr]
      have hv := (hwhole (.inl hr)).of_asdir
      exact ⟨hv, fun _ => hv⟩

theorem wp_isdiremptyLoop (h : Inv M c s) (hi : i ∈ c.locked) (offs : List Nat) :
    M.spec.Wp (fun _ t => Inv M c t) (isdiremptyLoop M.sb i offs) s := by
  induction offs generalizing s with
  | nil => exact h
  | cons off rest ih =>
    refine .bind (h.wp_readDirent hi ⟨by decide, fun _ => by decide, fun _ => by decide⟩) fun de t ht => ?_
    split
    · exact ht
    · exact ih ht

theorem wp_isdirempty (h : Inv M c s) (hi : i ∈ c.locked) :
    M.spec.Wp (fun _ t => Inv M c t) (isdirempty M.sb i) s :=
  .look_bind fun _ => ⟨h.must rfl, h.wp_isdiremptyLoop hi _⟩

-- What the call knows of an inode n that it has allocated, in slot i.
structure Allocated (M : Mode) (c : Ctx) (i : Slot) (n : Nat) (t : Sys) : Prop where
  inv : Inv M { c.hold i with fresh := n :: c.fresh } t
  inum : (t.inode i).inum = n
  closed : M.linked → c.opens i = 0
  new : M.holeFree → c.watching → ¬ M.watch n ∧ c.nlinks n = 0

-- The loop of ialloc(). Nobody else refers to the new inode.
theorem wp_iallocLoop {type : InodeType} (h : Inv M c s) (htype : type ≠ .free)
    (hroom : M.Fits c 1) (inums : List Nat) :
    M.spec.Wp (fun r t => r.elim (Inv M c t) fun i => ∃ n, Allocated M c i n t)
      (iallocLoop M.p ROOTDEV type inums) s := by
  induction inums with
  | nil => exact h
  | cons n rest ih =>
    refine .atomic_bind fun _ => ⟨h.must rfl, fun found hfound => ?_, fun msg hmsg => ?_⟩
    · split at hfound
      · rename_i hfree
        cases hfound
        rw [if_pos hfree, if_pos rfl]
        refine .bind ((h.allocated htype hfree).wp_iget hroom n) fun i t ht => ?_
        obtain ⟨hinv, hinum, hold⟩ := ht
        refine ⟨n, hinv, hinum, fun hl => ?_, fun hw hwatch => ?_⟩
        · by_contra hopen
          have hpos : 0 < c.opens i := Nat.pos_of_ne_zero hopen
          have hused := (h.links hl).opened i hpos
          have hn : (s.inode i).inum = n := hold (Ctx.refs_pos_of_open hpos)
          rw [hn] at hused
          exact hused hfree
        · have hwatched := h.watched hw hwatch
          refine ⟨fun hn => (hwatched.same n hn).1 hfree, ?_⟩
          rw [← hwatched.nlink n]
          exact (h.links hwatched.linked).free n hfree
      · rename_i hfree
        cases hfound
        rw [if_neg hfree, if_neg (by simp)]
        exact ih
    · split at hmsg <;> cases hmsg

theorem wp_ialloc {type : InodeType} (h : Inv M c s) (htype : type ≠ .free)
    (hroom : M.Fits c 1) :
    M.spec.Wp (fun r t => r.elim (Inv M c t) fun i => ∃ n, Allocated M c i n t)
      (ialloc M.sb M.p ROOTDEV type) s :=
  h.wp_iallocLoop htype hroom _

-- A change of the link count, with iupdate().
theorem wp_relink {f : Inode → Inode} (h : Inv M c s) (hi : i ∈ c.locked)
    (hl : lbl.plain = true)
    (hc : c' = { c with
      fresh := c'.fresh, dying := c'.dying
      nlinks := Function.update c.nlinks (s.inode i).inum (f (s.inode i)).nlink })
    (hf : f (s.inode i) = { s.inode i with
      major := (f (s.inode i)).major, minor := (f (s.inode i)).minor,
      nlink := (f (s.inode i)).nlink })
    (hranged : short (f (s.inode i)).nlink = (f (s.inode i)).nlink)
    (hfresh : ∀ m, m ≠ (s.inode i).inum → m ∈ c.fresh → m ∈ c'.fresh)
    (hdying : ∀ j, j ∈ c.dying → j ∈ c'.dying)
    (hzero : (M.durable → Sole lbl s) → (f (s.inode i)).nlink = 0 → M.durable → Dying c' i)
    (hkept : M.holeFree → c.watching → M.watch (s.inode i).inum →
      (f (s.inode i)).major = (s.inode i).major ∧ (f (s.inode i)).minor = (s.inode i).minor ∧
      ((f (s.inode i)).nlink = 0 → (i, (s.inode i).inum) ∈ c.pinned)) :
    M.spec.Wp (fun _ t => Inv M c' t) (do
      .modify lbl fun s => s.setInode i f
      iupdate i) s := by
  have hself : (s.setInode i f).inode i = f (s.inode i) := Sys.setInode_self s i f
  have hinum : ((s.setInode i f).inode i).inum = (s.inode i).inum := by
    rw [hself, hf]
  refine .modify_bind fun hok => ⟨h.must hl, ?_⟩
  refine .modify fun _ => ⟨.of_lock (i := i) rfl ?_, ?_⟩
  · rw [hself, hf]
    exact h.lock_ne hi
  · have hinode : ∀ n d, ((s.setInode i f).setDinode n d).inode i = f (s.inode i) :=
      fun _ _ => hself
    refine h.relink hi ⟨rfl, fun j hj => Sys.setInode_other s f hj, ?_, ?_⟩ ?_ ?_ hfresh hdying
      ?_ ?_
    · rw [hinode]
      exact hf
    · rw [hinum]
      rfl
    · rw [hinode]
      exact hc
    · rw [hinode]
      exact hranged
    · rw [hinode]
      exact hzero hok.1
    · rw [hinode]
      exact hkept

theorem dying_of_sole {nlink : Int} (h : Inv M c s) (hi : i ∈ c.held ∨ i ∈ c.pins)
    (hone : (s.inode i).ref = 1) : Dying ((c.die i).relinked n nlink) i := by
  refine ⟨List.mem_cons_self, hi, ?_⟩
  rw [h.ref] at hone
  have hrefs : c.refs i = c.opens i + c.pins.count i + c.held.count i := rfl
  show c.opens i = 0
  rcases hi with hi | hi
  · have hcount := List.count_pos_iff.mpr hi
    omega
  · have hcount := List.count_pos_iff.mpr hi
    omega

theorem wp_incLink (h : Inv M c s) (hi : i ∈ c.locked) (hheld : i ∈ c.held ∨ i ∈ c.pins)
    (hpin : M.holeFree → c.watching → (i, (s.inode i).inum) ∈ c.pinned) :
    M.spec.Wp (fun _ t =>
      Inv M ((c.die i).relinked (s.inode i).inum (short ((s.inode i).nlink + 1))) t)
      (incLink i) s :=
  h.wp_relink hi rfl rfl rfl (short_short _) (fun _ _ => id) (fun _ => List.mem_cons_of_mem _)
    (fun hsole hzero hd => h.dying_of_sole hheld (hsole hd hzero))
    fun hw hwatch _ => ⟨rfl, rfl, fun _ => hpin hw hwatch⟩

theorem wp_decLink (h : Inv M c s) (hi : i ∈ c.locked) (hheld : i ∈ c.held ∨ i ∈ c.pins)
    (hpin : M.holeFree → c.watching → (i, (s.inode i).inum) ∈ c.pinned) :
    M.spec.Wp (fun _ t =>
      Inv M ((c.die i).relinked (s.inode i).inum (short ((s.inode i).nlink - 1))) t)
      (decLink i) s :=
  h.wp_relink hi rfl rfl rfl (short_short _) (fun _ _ => id) (fun _ => List.mem_cons_of_mem _)
    (fun hsole hzero hd => h.dying_of_sole hheld (hsole hd hzero))
    fun hw hwatch _ => ⟨rfl, rfl, fun _ => hpin hw hwatch⟩

theorem wp_namexLoop {np : Bool} {names : List (List UInt8)} (hbare : c.Bare)
    (hlocked : c.locked = []) (hroom : M.Fits c 2) (h : Inv M (c.hold i) s) :
    M.spec.Wp (fun r t => Inv M (r.elim c fun x => c.hold x.1) t)
      (namexLoop M.sb M.p np i names) s := by
  induction names generalizing i s with
  | nil =>
    rw [namexLoop]
    split
    · refine .bind (h.wp_iput List.mem_cons_self fun hi => ?_) fun _ t ht => ?_
      · rw [show (c.hold i).locked = [] from hlocked] at hi
        cases hi
      · rw [Ctx.drop_hold] at ht
        exact ht
    · exact h
  | cons name rest ih =>
    rw [namexLoop]
    refine .bind (h.wp_ilock i) fun _ t ht => ?_
    obtain ⟨-, -, ht, -⟩ := ht
    have hunlock : ((c.hold i).lock i).unlock i = c.hold i :=
      Ctx.unlock_lock _ _ ⟨hbare.isdir, hbare.made⟩
    refine .look_bind fun _ => ⟨ht.must rfl, ?_⟩
    split
    · refine .bind (ht.wp_iunlockput List.mem_cons_self) fun _ u hu => ?_
      rw [hunlock, Ctx.drop_hold] at hu
      exact hu
    · split
      · refine .bind (ht.wp_iunlock i) fun _ u hu => ?_
        rw [hunlock] at hu
        exact hu.2
      · refine .bind (ht.wp_dirlookup List.mem_cons_self fun hr =>
          (hroom hr).hold i) fun r u hu => ?_
        cases r with
        | none =>
          refine .bind (hu.wp_iunlockput List.mem_cons_self) fun _ v hv => ?_
          have hv : Inv M ((((c.hold i).lock i).unlock i).drop i) v := hv
          rw [hunlock, Ctx.drop_hold] at hv
          exact hv
        | some x =>
          have hmem : i ∈ (((c.hold i).lock i).hold x.1).held :=
            List.mem_cons_of_mem _ List.mem_cons_self
          refine .bind (hu.wp_iunlockput hmem) fun _ v hv => ?_
          have hv : Inv M (((((c.hold i).lock i).unlock i).hold x.1).drop i) v := hv
          rw [hunlock, Ctx.drop_hold_hold] at hv
          exact ih hv

theorem wp_namexStart (h : Inv M c s) (hcwd : c.dirs M.p = (c.proc M.p).cwd)
    (hroom : M.Fits c 1) (path : List UInt8) :
    M.spec.Wp (fun i t => Inv M (c.hold i) t) (namexStart M.p path) s := by
  unfold namexStart
  split
  · exact (h.wp_iget hroom ROOTINO).mono fun i t ht => ht.1
  · refine .look_bind fun _ => ⟨h.must rfl, ?_⟩
    cases hi : (s.proc M.p).cwd with
    | none => exact ⟨by decide, fun _ => by decide, fun _ => by decide⟩
    | some i =>
      have hdirs : c.dirs M.p = some i := by rw [hcwd, ← h.proc, hi]
      have hpos : 0 < c.opens i := Nat.add_pos_right _ (tally_pos h.sparse hdirs)
      refine (h.wp_idup (Ctx.refs_pos_of_open hpos)).mono fun j t ht => ?_
      rw [ht.1]
      exact ht.2

section Lookup

variable (h : Inv M c s) (hbare : c.Bare) (hlocked : c.locked = [])
  (hcwd : c.dirs M.p = (c.proc M.p).cwd) (hroom : M.Fits c 2) (path : List UInt8)

include h hbare hlocked hcwd hroom

theorem wp_namex {np : Bool} :
    M.spec.Wp (fun r t => Inv M (r.elim c fun x => c.hold x.1) t) (namex M.sb M.p np path) s :=
  .bind (h.wp_namexStart hcwd (fun hr => (hroom hr).mono (by decide)) path) fun _ _ ht =>
    ht.wp_namexLoop hbare hlocked hroom

theorem wp_namei :
    M.spec.Wp (fun r t => Inv M (r.elim c fun i => c.hold i) t) (namei M.sb M.p path) s := by
  refine .bind (h.wp_namex hbare hlocked hcwd hroom path) fun r t ht => ?_
  cases r with
  | none => exact ht
  | some x => exact ht

theorem wp_nameiparent :
    M.spec.Wp (fun r t => Inv M (r.elim c fun x => c.hold x.1) t)
      (nameiparent M.sb M.p path) s :=
  h.wp_namex hbare hlocked hcwd hroom path

end Lookup

end Inv

end Xv6.Fs
