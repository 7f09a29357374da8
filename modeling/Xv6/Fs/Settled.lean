import Xv6.Fs.Calls

namespace Xv6.Fs

open Lib

-- A slot of the process table that is not in use refers to nothing.
def Unused (proc : Nat → Proc) : Prop :=
  ∀ q, (proc q).used = false → (proc q).cwd = none ∧ ∀ x, (proc q).ofile x = none

-- The state between two calls.
structure Settled (M : Mode) (s : Sys) : Prop where
  inv : Inv M (Ctx.idle s) s
  files : Files (fds s.proc) [] s.file s.pipe
  unused : Unused s.proc

variable {M : Mode} {c c' : Ctx} {s t : Sys} {i ip : Slot} {f : FileIdx} {p q : Nat}
  {fd : Nat × Fd → Option FileIdx} {loose : List FileIdx}

theorem Ctx.plain_idle (s : Sys) : (Ctx.idle s).Plain := ⟨⟨rfl, rfl⟩, rfl, rfl, rfl, id⟩

theorem Ctx.clear_idle (s : Sys) (p : Nat) : (Ctx.idle s).Clear p :=
  ⟨⟨⟨rfl, rfl⟩, rfl, rfl, rfl⟩, rfl, rfl⟩

theorem Ctx.after_idle (s : Sys) (r : Int) : (Ctx.idle s).after r = Ctx.idle s := by
  unfold Ctx.after
  split <;> rfl

theorem Unused.withFd {proc : Nat → Proc} (h : Unused proc) (hlive : (proc p).cwd ≠ none) (x : Fd)
    (g : Option FileIdx) : Unused (withFd proc p x g) := by
  intro q hq
  obtain ⟨hcwd, hused⟩ := withFd_same proc p q x g
  rw [hused] at hq
  obtain ⟨hnone, hfiles⟩ := h q hq
  refine ⟨hcwd.trans hnone, fun y => ?_⟩
  have hne : q ≠ p := by
    rintro rfl
    exact hlive hnone
  rw [Fs.withFd, Function.update_of_ne hne]
  exact hfiles y

theorem Settled.ready (h : Settled M s) : Ready M (fds s.proc) [] (Ctx.idle s) s :=
  ⟨h.inv, Ctx.plain_idle s, h.files⟩

theorem Settled.of_ready (h : Ready M (fds c.proc) [] c t) (hheld : c.held = [])
    (hlocked : c.locked = []) (hdirs : ∀ q, c.dirs q = (c.proc q).cwd) (hu : Unused c.proc) :
    Settled M t := by
  have hproc := h.inv.proc
  have hdirs' : (Ctx.idle t).dirs = c.dirs := by
    funext q
    rw [hdirs, ← hproc]
    rfl
  refine ⟨?_, ?_, ?_⟩
  · have hopens : (Ctx.idle t).opens = c.opens := by
      funext j
      show tally (fileIp t.file) j + tally (Ctx.idle t).dirs j = _
      rw [hdirs', h.inv.file]
      rfl
    refine h.inv.recast rfl rfl rfl rfl (by rw [hdirs']; exact h.inv.sparse) (fun j => ?_)
      hlocked.symm h.plain.bare.isdir.symm (fun m hm => ?_) (fun j hd => ?_) (fun j hj => .inl ?_) id
    · show (Ctx.idle t).opens j + [].count j + [].count j =
        c.opens j + (c.pinned.map Prod.fst).count j + c.held.count j
      rw [hopens, h.plain.pinned, hheld]
      rfl
    · rw [h.plain.fresh] at hm
      cases hm
    · have hmem := hd.dying
      rw [h.plain.dying] at hmem
      cases hmem
    · rw [hopens] at hj
      exact hj
  · rw [hproc, h.inv.file, h.inv.pipe]
    exact h.files
  · rw [hproc]
    exact hu

theorem Settled.of_idle (h : Settled M s) (ht : Inv M (Ctx.idle s) t) : Settled M t :=
  .of_ready (c := Ctx.idle s) ⟨ht, Ctx.plain_idle s, h.files⟩ rfl rfl (fun _ => rfl) h.unused

theorem Settled.of_tables {proc : Nat → Proc} {file : FileIdx → File} {pipe : Nat → Option PipeEnds}
    (ht : Ready M fd [] { Ctx.idle s with proc := proc, file := file, pipe := pipe } t)
    (hfd : fd = fds proc) (hcwd : ∀ q, (proc q).cwd = (s.proc q).cwd) (hu : Unused proc) :
    Settled M t := by
  subst hfd
  exact .of_ready (c := { Ctx.idle s with proc := proc, file := file, pipe := pipe }) ht rfl rfl
    (fun q => (hcwd q).symm) hu

theorem Settled.of_files (h : Settled M s) {file : FileIdx → File} {pipe : Nat → Option PipeEnds}
    (ht : Ready M (fds s.proc) [] { Ctx.idle s with file := file, pipe := pipe } t) : Settled M t :=
  .of_tables ht rfl (fun _ => rfl) h.unused

theorem Settled.of_fd (h : Settled M s) (hlive : (s.proc p).cwd ≠ none) {x : Fd} {g : Option FileIdx}
    {file : FileIdx → File} {pipe : Nat → Option PipeEnds}
    (ht : Ready M (Function.update (fds s.proc) (p, x) g) []
      { Ctx.idle s with proc := withFd s.proc p x g, file := file, pipe := pipe } t) : Settled M t :=
  .of_tables ht (fds_withFd ..).symm (fun q => (withFd_same s.proc p q x g).1)
    (h.unused.withFd hlive x g)

namespace Ready

theorem wp_argfd {n : Int} (h : Ready M fd loose c s) :
    M.spec.Wp (fun r t => t = s ∧ ∀ x f, r = some (x, f) → (c.proc p).ofile x = some f)
      (argfd p n) s := by
  refine .look fun _ => ⟨h.inv.must rfl, rfl, fun x f hr => ?_⟩
  rw [← h.inv.proc]
  split at hr
  · obtain ⟨g, hg, heq⟩ := Option.map_eq_some_iff.mp hr
    cases heq
    exact hg
  · cases hr

theorem wp_advance {r : Int} (h : Ready M fd loose c s) :
    M.spec.Wp (fun _ t => ∃ file, Ready M fd loose { c with file := file } t) (advance f r) s := by
  refine .modify fun _ => ⟨h.inv.must rfl, ?_⟩
  split
  · have hfiles : Files fd loose (Function.update c.file f
        { c.file f with off := (c.file f).off + r.toNat }) c.pipe :=
      h.files.recount (h.files.ref f) (fun _ _ => rfl) (h.files.closed f) rfl
    exact ⟨_, h.setFile (g := fun fl => { fl with off := fl.off + r.toNat }) rfl hfiles⟩
  · exact ⟨c.file, h⟩

theorem lock (h : Ready M fd loose c s) (ht : Inv M (c.lock i) t) :
    Ready M fd loose (c.lock i) t :=
  ⟨ht, h.plain.tables, h.files⟩

theorem wp_iunlock (h : Ready M fd loose (c.lock i) s) :
    M.spec.Wp (fun _ t => Ready M fd loose c t) (iunlock M.p i) s := by
  have hp : c.Plain := ⟨⟨h.plain.bare.isdir, h.plain.bare.made⟩, h.plain.pinned, h.plain.dying,
    h.plain.fresh, h.plain.blind⟩
  refine (h.inv.wp_iunlock i).mono fun _ t ht => ⟨?_, hp, h.files⟩
  have hinv := ht.2
  rw [Ctx.unlock_lock _ _ hp.bare] at hinv
  exact hinv

theorem wp_fileread {dst : Dst} {n other : Int} (h : Ready M fd loose c s) :
    M.spec.Wp (fun _ t => ∃ file, Ready M fd loose { c with file := file } t)
      (fileread M.sb M.p f dst n other) s := by
  refine .look_bind fun _ => ⟨h.inv.must rfl, ?_⟩
  split
  · exact ⟨c.file, h⟩
  · split
    · exact ⟨c.file, h⟩
    · exact ⟨c.file, h⟩
    · refine .bind (h.inv.wp_ilock _) fun _ t ht => ?_
      have ht := h.lock ht.2.2.1
      refine .look_bind fun _ => ⟨ht.inv.must rfl, ?_⟩
      refine .bind (ht.inv.wp_readi List.mem_cons_self) fun r u hu => ?_
      refine .bind (h.lock hu).wp_advance fun _ v hv => ?_
      obtain ⟨file, hv⟩ := hv
      have hv : Ready M fd loose ({ c with file := file }.lock (s.file f).ip) v := hv
      exact .bind hv.wp_iunlock fun _ w hw => ⟨file, hw⟩
    · exact ⟨by decide, fun _ => by decide, fun _ => by decide⟩

theorem wp_filewriteLoop {mem : Nat → Option UInt8} (hwrites : M.writes) (hheld : c.held = [])
    {done : Nat} {rounds : List (Nat × Nat)} (h : Ready M fd loose c s) :
    M.spec.Wp (fun _ t => ∃ file, Ready M fd loose { c with file := file } t)
      (filewriteLoop M.sb M.p f ip mem done rounds) s := by
  induction rounds generalizing done c s with
  | nil => exact ⟨c.file, h⟩
  | cons round rest ih =>
    refine .bind h.inv.wp_beginOp fun _ t ht => ?_
    refine .bind (ht.wp_ilock ip) fun _ u hu => ?_
    have hu := h.lock hu.2.2.1
    refine .look_bind fun _ => ⟨hu.inv.must rfl, ?_⟩
    refine .bind (hu.inv.wp_writei List.mem_cons_self (.inl hwrites)) fun r v hv => ?_
    have hv : Inv M (c.lock ip) v := hv.unblind h.plain.blind
    refine .bind (h.lock hv).wp_advance fun _ w hw => ?_
    obtain ⟨file, hw⟩ := hw
    have hw : Ready M fd loose ({ c with file := file }.lock ip) w := hw
    refine .bind hw.wp_iunlock fun _ x hx => ?_
    refine .bind (hx.inv.wp_endOp hheld h.plain.pinned h.plain.fresh) fun _ y hy => ?_
    have hy : Ready M fd loose { c with file := file } y := ⟨hy, hx.plain, hx.files⟩
    split
    · exact ih (c := { c with file := file }) hheld hy
    · exact ⟨file, hy⟩

theorem wp_filewrite {mem : Nat → Option UInt8} {n other : Int} (hwrites : M.writes)
    (hheld : c.held = []) (h : Ready M fd loose c s) :
    M.spec.Wp (fun _ t => ∃ file, Ready M fd loose { c with file := file } t)
      (filewrite M.sb M.p f mem n other) s := by
  refine .look_bind fun _ => ⟨h.inv.must rfl, ?_⟩
  split
  · exact ⟨c.file, h⟩
  · split
    · exact ⟨c.file, h⟩
    · exact ⟨c.file, h⟩
    · exact .bind (h.wp_filewriteLoop hwrites hheld) fun _ _ ht => ht
    · exact ⟨by decide, fun _ => by decide, fun _ => by decide⟩

theorem wp_filestat {copied : Bool} (h : Ready M fd loose c s) :
    M.spec.Wp (fun _ t => Ready M fd loose c t) (filestat M.p f copied) s := by
  refine .look_bind fun _ => ⟨h.inv.must rfl, ?_⟩
  split
  · refine .bind (h.inv.wp_ilock _) fun _ t ht => ?_
    exact .bind (h.lock ht.2.2.1).wp_iunlock fun _ u hu => hu
  · exact h

end Ready

namespace Settled

variable (h : Settled M s) (hlive : (s.proc M.p).cwd ≠ none)

include h

theorem wp_sysRead {n m other : Int} {dst : Dst} :
    M.spec.Wp (fun _ t => Settled M t) (sysRead M.sb M.p n dst m other) s := by
  refine .bind h.ready.wp_argfd fun r t ht => ?_
  rw [ht.1]
  cases r with
  | none => exact h
  | some x => exact h.ready.wp_fileread.mono fun _ u hu => hu.elim fun _ hu => h.of_files hu

theorem wp_sysWrite {n m other : Int} {mem : Nat → Option UInt8} (hwrites : M.writes) :
    M.spec.Wp (fun _ t => Settled M t) (sysWrite M.sb M.p n mem m other) s := by
  refine .bind h.ready.wp_argfd fun r t ht => ?_
  rw [ht.1]
  cases r with
  | none => exact h
  | some x =>
    exact (h.ready.wp_filewrite hwrites rfl).mono fun _ u hu => hu.elim fun _ hu => h.of_files hu

theorem wp_sysFstat {n : Int} {copied : Bool} :
    M.spec.Wp (fun _ t => Settled M t) (sysFstat M.p n copied) s := by
  refine .bind h.ready.wp_argfd fun r t ht => ?_
  rw [ht.1]
  cases r with
  | none => exact h
  | some x => exact h.ready.wp_filestat.mono fun _ u hu => h.of_files hu

include hlive

theorem wp_sysDup {n : Int} : M.spec.Wp (fun _ t => Settled M t) (sysDup M.p n) s := by
  refine .bind h.ready.wp_argfd fun r t ht => ?_
  obtain ⟨hts, hr⟩ := ht
  rw [hts]
  cases r with
  | none => exact h
  | some x =>
    obtain ⟨x, f⟩ := x
    have hx : fds s.proc (M.p, x) = some f := hr x f rfl
    refine .bind h.ready.wp_fdalloc fun r u hu => ?_
    cases r with
    | none => exact h.of_files hu
    | some y =>
      obtain ⟨hy, hu⟩ := hu
      refine .bind (hu.wp_filedup (h.files.pos_of_fd hx)) fun _ v hv => ?_
      exact h.of_fd hlive (hv.install hy)

theorem wp_sysClose {n : Int} : M.spec.Wp (fun _ t => Settled M t) (sysClose M.p n) s := by
  refine .bind h.ready.wp_argfd fun r t ht => ?_
  obtain ⟨hts, hr⟩ := ht
  rw [hts]
  cases r with
  | none => exact h
  | some x =>
    obtain ⟨x, f⟩ := x
    have hx : fds s.proc (M.p, x) = some f := hr x f rfl
    have hrem := (h.ready.remove hx).setOfile M.p x none
    refine .modify_bind fun _ => ⟨h.inv.must rfl, ?_⟩
    refine .bind (hrem.wp_fileclose fun _ => ⟨rfl, rfl⟩) fun _ u hu => ?_
    obtain ⟨file, pipe, hu⟩ := hu
    exact h.of_fd hlive hu

end Settled

namespace Ready

theorem wp_openBad (h : Ready M fd loose ((c.hold ip).lock ip) s) (hheld : c.held = []) :
    M.spec.Wp (fun _ t => Inv M c t) (openBad M.p ip) s := by
  have hp : c.Plain := h.plain.tables
  refine .bind (h.inv.wp_iunlockput List.mem_cons_self) fun _ t ht => ?_
  rw [Ctx.unlock_drop _ _ hp.bare] at ht
  refine (ht.wp_fail hheld hp.pinned hp.fresh).mono fun r u hu => ?_
  unfold Ctx.after at hu
  split at hu
  · exact hu
  · exact hu.unblind hp.blind

-- f->ip = ip with the other fields. The reference of the call becomes one of the
-- file.
theorem openFile (h : Ready M fd loose ((c.hold ip).lock ip) s) (p omode : Nat)
    (hnone : (c.file f).type = .none) (hpos : 0 < (c.file f).ref) :
    ∃ file, Ready M fd loose ({ c with file := file }.lock ip) (s.openFile p f ip omode) := by
  have hnode : ∀ fl : File, fl.type = (if (s.inode ip).type = .device then .device else .inode) →
      (fl.type = .inode ∨ fl.type = .device) ∧ fl.type ≠ .pipe := by
    intro fl hfl
    rw [hfl]
    split
    · exact ⟨.inr rfl, fun heq => by cases heq⟩
    · exact ⟨.inl rfl, fun heq => by cases heq⟩
  have hfile : (s.openFile p f ip omode).file =
      Function.update c.file f ((s.openFile p f ip omode).file f) := by
    show Function.update s.file f _ = Function.update c.file f (Function.update s.file f _ f)
    rw [Function.update_self, h.inv.file]
    rfl
  have htype : ((s.openFile p f ip omode).file f).type =
      (if (s.inode ip).type = .device then .device else .inode) := by
    show (Function.update s.file f _ f).type = _
    rw [Function.update_self]
  have hip : ((s.openFile p f ip omode).file f).ip = ip := by
    show (Function.update s.file f _ f).ip = _
    rw [Function.update_self]
  have href : ((s.openFile p f ip omode).file f).ref = (c.file f).ref := by
    show (Function.update s.file f _ f).ref = _
    rw [Function.update_self, h.inv.file]
    rfl
  obtain ⟨hino, hnotpipe⟩ := hnode _ htype
  generalize (s.openFile p f ip omode).file f = fl at *
  have hold : fileIp c.file f = none := if_neg (by rw [hnone]; simp)
  have hnew : fileIp (Function.update c.file f fl) =
      Function.update (fileIp c.file) f (some ip) := by
    rw [fileIp_update, if_pos hino, hip]
  have htally : ∀ j, tally (Function.update (fileIp c.file) f (some ip)) j =
      tally (fileIp c.file) j + if ip = j then 1 else 0 := fun j => by
    have hupd := tally_update (sparse_of_finite (fileIp c.file)) f (some ip) j
    simpa [hold] using hupd
  refine ⟨Function.update c.file f fl, ?_, h.plain.tables, h.files.become hnone hpos href hnotpipe⟩
  show Inv M { (c.hold ip).lock ip with
    proc := c.proc, file := Function.update c.file f fl, pipe := c.pipe, dirs := c.dirs
    held := c.held } _
  refine h.inv.retable h.plain rfl h.inv.proc hfile h.inv.pipe h.inv.sparse (fun j => ?_)
    fun j hj => ?_
  · show _ = tally (fileIp c.file) j + tally c.dirs j + (ip :: c.held).count j
    have hj := htally j
    rw [hnew, List.count_cons]
    simp only [beq_iff_eq]
    omega
  · have hj' := htally j
    rw [hnew] at hj
    by_cases hji : ip = j
    · subst hji
      exact .inr ⟨h.inv.pos List.mem_cons_self, h.inv.valid List.mem_cons_self⟩
    · rw [if_neg hji] at hj'
      refine .inl ?_
      show 0 < tally (fileIp c.file) j + tally c.dirs j
      omega

theorem wp_openTrunc {type : InodeType} {omode : Nat} (h : Ready M fd loose (c.lock ip) s)
    (hwrites : omode &&& O_TRUNC ≠ 0 → M.writes) :
    M.spec.Wp (fun _ t => Ready M fd loose (c.lock ip) t) (openTrunc ip type omode) s := by
  unfold openTrunc
  split
  · rename_i hcond
    exact (h.inv.wp_itrunc List.mem_cons_self (hwrites hcond.1) h.plain.blind).mono fun _ t ht =>
      ⟨ht, h.plain, h.files⟩
  · exact h

end Ready

namespace Inv

theorem wp_openNamed {path : List UInt8} {omode : Nat} (h : Inv M c s) (hc : c.Clear M.p)
    (hroom : M.Fits c 3) (hcreate : ¬ omode &&& O_CREATE ≠ 0) :
    M.spec.Wp (fun r t => Inv M (r.elim c fun ip => (c.hold ip).lock ip) t)
      (openInode M.sb M.p path omode) s := by
  unfold openInode
  rw [if_neg hcreate]
  refine .bind (h.wp_namei hc.bare hc.locked hc.cwd (fun hr => (hroom hr).mono (by decide)) path)
    fun r t ht => ?_
  cases r with
  | none => exact ht
  | some ip =>
    have ht : Inv M (c.hold ip) t := ht
    refine .bind (ht.wp_ilock ip) fun _ u hu => ?_
    obtain ⟨-, -, hu, -⟩ := hu
    refine .look_bind fun _ => ⟨hu.must rfl, ?_⟩
    split
    · refine .bind (hu.wp_iunlockput List.mem_cons_self) fun _ v hv => ?_
      rw [Ctx.unlock_drop _ _ hc.bare] at hv
      exact hv
    · exact hu

theorem wp_openInode {path : List UInt8} {omode : Nat} (h : Inv M c s) (hc : c.Clear M.p)
    (hp : c.Plain) (hroom : M.Fits c 3) :
    M.spec.Wp (fun r t => r.elim (Inv M c t) fun ip => Inv M ((c.hold ip).lock ip) t)
      (openInode M.sb M.p path omode) s := by
  by_cases hcreate : omode &&& O_CREATE ≠ 0
  · unfold openInode
    rw [if_pos hcreate]
    refine (wp_create hc.toOutside (fun heq => by cases heq) hroom h).mono fun r t ht => ?_
    cases r with
    | none =>
      obtain ⟨l, ht⟩ := ht
      exact ht.undie hc.held hc.pinned c.dying
    | some ip =>
      obtain ⟨l, ht, hl⟩ := ht
      rw [hl rfl] at ht
      exact unblind ht hp.blind
  · refine (h.wp_openNamed hc hroom hcreate).mono fun r t ht => ?_
    cases r with
    | none => exact ht
    | some ip => exact ht

end Inv

namespace Settled

variable (h : Settled M s)

include h

theorem of_after {r : Int} (ht : Inv M ((Ctx.idle s).after r) t) : Settled M t := by
  rw [Ctx.after_idle] at ht
  exact h.of_idle ht

theorem wp_openFile {type : InodeType} {omode : Nat} (hlive : (s.proc M.p).cwd ≠ none)
    (hwrites : omode &&& O_TRUNC ≠ 0 → M.writes)
    (ht : Inv M (((Ctx.idle s).hold ip).lock ip) t) :
    M.spec.Wp (fun _ u => Settled M u) (openFile M.p ip type omode) t := by
  have hready : Ready M (fds s.proc) [] (((Ctx.idle s).hold ip).lock ip) t :=
    ⟨ht, (Ctx.plain_idle s).tables, h.files⟩
  refine .bind hready.wp_filealloc fun r u hu => ?_
  cases r with
  | none => exact (Ready.wp_openBad hu rfl).mono fun _ _ hv => h.of_idle hv
  | some f =>
    obtain ⟨href, hu⟩ := hu
    have hnone : (s.file f).type = .none := h.files.closed f href
    have hnone' : (Function.update s.file f { s.file f with ref := 1 } f).type = .none := by
      rw [Function.update_self]
      exact hnone
    have hplain : fileIp (Function.update s.file f { s.file f with ref := 1 }) f = none :=
      if_neg (by rw [hnone']; simp)
    refine .bind hu.wp_fdalloc fun r v hv => ?_
    cases r with
    | none =>
      refine .bind (Ready.wp_fileclose hv fun hip => ?_) fun _ w hw => ?_
      · exact absurd hplain hip
      · obtain ⟨file, pipe, hw⟩ := hw
        have hw : Ready M (fds s.proc) []
          (({ Ctx.idle s with file := file, pipe := pipe }.hold ip).lock ip) w := hw
        exact (hw.wp_openBad rfl).mono fun _ x hx => h.of_files ⟨hx, hw.plain.tables, hw.files⟩
    | some x =>
      obtain ⟨hx, hv⟩ := hv
      have hv : Ready M (fds s.proc) [f] (({ Ctx.idle s with
        proc := withFd s.proc M.p x (some f)
        file := Function.update s.file f { s.file f with ref := 1 } }.hold ip).lock ip) v := hv
      refine .modify_bind fun _ => ⟨hv.inv.must rfl, ?_⟩
      have hx : fds s.proc (M.p, x) = none := hx
      obtain ⟨file, hw⟩ := (hv.install hx).openFile M.p omode hnone' hv.files.pos_of_loose
      refine .bind (hw.wp_openTrunc hwrites) fun _ y hy => ?_
      refine .bind hy.wp_iunlock fun _ z hz => ?_
      refine .bind (hz.inv.wp_endOp rfl rfl rfl) fun _ w hw => ?_
      exact h.of_fd hlive ⟨hw, hz.plain, hz.files⟩

theorem wp_sysOpen {path : Option (List UInt8)} {omode : Nat}
    (hlive : (s.proc M.p).cwd ≠ none) (hwrites : omode &&& O_TRUNC ≠ 0 → M.writes)
    (hroom : M.Fits (Ctx.idle s) 3) :
    M.spec.Wp (fun _ t => Settled M t) (sysOpen M.sb M.p path omode) s := by
  cases path with
  | none => exact h
  | some path =>
    refine .bind h.inv.wp_beginOp fun _ t ht => ?_
    refine .bind (ht.wp_openInode (Ctx.clear_idle s M.p) (Ctx.plain_idle s) hroom) fun r u hu => ?_
    cases r with
    | none => exact (Inv.wp_fail hu rfl rfl rfl).mono fun _ _ hv => h.of_after hv
    | some ip =>
      have hu : Inv M (((Ctx.idle s).hold ip).lock ip) u := hu
      have hready : Ready M (fds s.proc) [] (((Ctx.idle s).hold ip).lock ip) u :=
        ⟨hu, (Ctx.plain_idle s).tables, h.files⟩
      refine .look_bind fun _ => ⟨hu.must rfl, ?_⟩
      split
      · exact (hready.wp_openBad rfl).mono fun _ _ hv => h.of_idle hv
      · exact h.wp_openFile hlive hwrites hu

end Settled

end Xv6.Fs
