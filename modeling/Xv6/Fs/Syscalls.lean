import Xv6.Fs.Settled

namespace Xv6.Fs

open Lib

variable {M : Mode} {c c' : Ctx} {s t : Sys} {i ip : Slot} {f rf wf : FileIdx} {p q : Nat}
  {fd : Nat × Fd → Option FileIdx} {loose : List FileIdx} {proc : Nat → Proc} {pr : Proc}

theorem fds_update (hofile : pr.ofile = (proc p).ofile) :
    fds (Function.update proc p pr) = fds proc := by
  grind [Function.update_self, Function.update_of_ne, fds]

theorem cwd_update : (fun q => (Function.update proc p pr q).cwd) =
    Function.update (fun q => (proc q).cwd) p pr.cwd := by
  grind

theorem Unused.update (h : Unused proc)
    (hp : pr.used = false → pr.cwd = none ∧ ∀ x, pr.ofile x = none) :
    Unused (Function.update proc p pr) := by
  intro q
  by_cases hq : q = p
  · grind
  · rw [Function.update_of_ne hq]
    exact h q

theorem update_undo {x y : Nat × Fd} (hx : fd x = none)
    (hy : Function.update fd x (some rf) y = none) :
    Function.update (Function.update (Function.update (Function.update fd x (some rf)) y (some wf))
      x none) y none = fd := by
  grind

theorem withFd_undo {x : Fd} (hx : (proc p).ofile x = none) :
    withFd (withFd proc p x (some f)) p x none = proc := by
  rw [withFd, withFd, Function.update_self, Function.update_idem]
  dsimp only
  rw [Function.update_idem, ← hx, Function.update_eq_self, Function.update_eq_self]

theorem Unused.used (h : Unused proc) (hlive : (proc p).cwd ≠ none) : (proc p).used ≠ false :=
  fun hused => hlive (h p hused).1

namespace Inv

theorem setProc (h : Inv M c s) (hp : c.Plain) (p : Nat) (g : Proc → Proc) :
    Inv M { c with proc := Function.update c.proc p (g (c.proc p)) } (s.setProc p g) := by
  refine h.retable_same hp rfl ?_ h.file h.pipe rfl
  show Function.update s.proc p (g (s.proc p)) = _
  rw [h.proc]

theorem swapDir (h : Inv M c s) (hp : c.Plain) {held : List Slot} {new : Option Slot}
    (hrefs : ∀ j, held.count j + (if new = some j then 1 else 0) =
      c.held.count j + if c.dirs p = some j then 1 else 0)
    (hopen : ∀ j, new = some j → 0 < c.opens j ∨ 0 < c.refs j ∧ (s.inode j).valid = true) :
    Inv M { c with dirs := Function.update c.dirs p new, held := held } s := by
  refine h.retable hp rfl h.proc h.file h.pipe (h.sparse.update p new) (fun j => ?_) fun j hj => ?_
  · grind [tally_update, sparse]
  · by_cases hnew : new = some j
    · exact hopen j hnew
    · have hupd := tally_update h.sparse p new j
      rw [if_neg hnew] at hupd
      refine .inl ?_
      show 0 < tally (fileIp c.file) j + tally c.dirs j
      omega

theorem wp_iputCwd (h : Inv M c s) (hcwd : (c.proc M.p).cwd = some i) (hheld : c.held = [i])
    (hlocked : c.locked = []) :
    M.spec.Wp (fun _ t => Inv M { c with held := [] } t) (iputCwd M.p) s := by
  refine .look_bind fun _ => ⟨h.must rfl, ?_⟩
  grind [proc, List.mem_cons_self, Spec.Wp.mono, wp_iput, List.erase_cons_head, Ctx.drop]

end Inv

namespace Settled

theorem of_proc (h : Settled M s)
    (ht : Inv M { Ctx.idle s with
      proc := Function.update s.proc p pr
      dirs := Function.update (Ctx.idle s).dirs p pr.cwd } t)
    (hofile : pr.ofile = (s.proc p).ofile)
    (hused : pr.used = false → pr.cwd = none ∧ ∀ x, pr.ofile x = none) : Settled M t := by
  have hfiles : Files (fds (Function.update s.proc p pr)) [] s.file s.pipe := by
    rw [fds_update hofile]
    exact h.files
  exact .of_ready (c := { Ctx.idle s with
    proc := Function.update s.proc p pr
    dirs := Function.update (Ctx.idle s).dirs p pr.cwd })
    ⟨ht, (Ctx.plain_idle s).tables, hfiles⟩ rfl rfl (fun q => (congrFun cwd_update q).symm)
    (h.unused.update hused)

theorem wp_chdirTo (h : Settled M s) (hlive : (s.proc M.p).cwd ≠ none)
    (ht : Inv M ((Ctx.idle s).hold ip) t) :
    M.spec.Wp (fun _ u => Settled M u) (chdirTo M.p ip) t := by
  obtain ⟨old, hold⟩ := Option.ne_none_iff_exists'.mp hlive
  refine .bind (ht.wp_ilock ip) fun _ u hu => ?_
  obtain ⟨-, hpos, hu, -⟩ := hu
  refine .look_bind fun _ => ⟨hu.must rfl, ?_⟩
  split
  · have hready : Ready M (fds s.proc) [] (((Ctx.idle s).hold ip).lock ip) u :=
      ⟨hu, (Ctx.plain_idle s).tables, h.files⟩
    exact (hready.wp_openBad rfl).mono fun _ _ hv => h.of_idle hv
  · -- From here on the new directory counts.
    have hu : Inv M ({ Ctx.idle s with
        dirs := Function.update (Ctx.idle s).dirs M.p (some ip), held := [old] }.lock ip) u := by
      refine hu.swapDir (Ctx.plain_idle s).tables (fun j => ?_) fun j hj => ?_
      · have hdirs : (Ctx.idle s).dirs M.p = some old := hold
        show [old].count j + _ = [ip].count j + if (Ctx.idle s).dirs M.p = some j then 1 else 0
        grind
      · cases hj
        exact .inr ⟨hpos, hu.valid List.mem_cons_self⟩
    refine .bind (hu.wp_iunlock ip) fun _ v hv => ?_
    obtain ⟨-, hv⟩ := hv
    rw [Ctx.unlock_lock _ _ ⟨rfl, rfl⟩] at hv
    refine .bind (hv.wp_iputCwd hold rfl rfl) fun _ w hw => ?_
    refine .bind (hw.wp_endOp rfl rfl rfl) fun _ x hx => ?_
    have hplain : { Ctx.idle s with
        dirs := Function.update (Ctx.idle s).dirs M.p (some ip) }.Plain := (Ctx.plain_idle s).tables
    refine .modify_bind fun _ => ⟨hx.must rfl, ?_⟩
    have hfinal := hx.setProc hplain M.p fun pr => { pr with cwd := some ip }
    exact h.of_proc hfinal rfl fun hused => absurd hused (h.unused.used hlive)

theorem wp_sysChdir {path : Option (List UInt8)} (h : Settled M s)
    (hlive : (s.proc M.p).cwd ≠ none) (hroom : M.Fits (Ctx.idle s) 2) :
    M.spec.Wp (fun _ t => Settled M t) (sysChdir M.sb M.p path) s := by
  refine .bind h.inv.wp_beginOp fun _ t ht => ?_
  cases path with
  | none => exact (ht.wp_fail rfl rfl rfl).mono fun _ _ hu => h.of_after hu
  | some path =>
    refine .bind (ht.wp_namei ⟨rfl, rfl⟩ rfl rfl hroom path) fun r u hu => ?_
    cases r with
    | none => exact (Inv.wp_fail hu rfl rfl rfl).mono fun _ _ hv => h.of_after hv
    | some ip => exact h.wp_chdirTo hlive hu

theorem wp_execReads {reads : List (Nat × Nat)} (h : Inv M c s) (hi : i ∈ c.locked) :
    M.spec.Wp (fun _ t => Inv M c t) (execReads M.sb i reads) s := by
  induction reads generalizing s with
  | nil => exact h
  | cons read rest ih => exact .bind (h.wp_readi hi) fun _ t ht => ih ht

theorem wp_sysExec {path : Option (List UInt8)} {reads : List (Nat × Nat)} {answer : Int}
    (h : Settled M s) (hroom : M.Fits (Ctx.idle s) 2) :
    M.spec.Wp (fun _ t => Settled M t) (sysExec M.sb M.p path reads answer) s := by
  cases path with
  | none => exact h
  | some path =>
    refine .bind h.inv.wp_beginOp fun _ t ht => ?_
    refine .bind (ht.wp_namei ⟨rfl, rfl⟩ rfl rfl hroom path) fun r u hu => ?_
    cases r with
    | none => exact (Inv.wp_fail hu rfl rfl rfl).mono fun _ _ hv => h.of_after hv
    | some ip =>
      have hu : Inv M ((Ctx.idle s).hold ip) u := hu
      refine .bind (hu.wp_ilock ip) fun _ v hv => ?_
      obtain ⟨-, -, hv, -⟩ := hv
      refine .bind (wp_execReads hv List.mem_cons_self) fun _ w hw => ?_
      refine .bind (hw.wp_iunlockput List.mem_cons_self) fun _ x hx => ?_
      rw [Ctx.unlock_drop _ _ ⟨rfl, rfl⟩] at hx
      exact .bind (hx.wp_endOp rfl rfl rfl) fun _ y hy => h.of_idle hy

end Settled

namespace Ready

theorem perm {loose' : List FileIdx} (h : Ready M fd loose c s) (hl : loose.Perm loose') :
    Ready M fd loose' c s := by
  refine ⟨h.inv, h.plain, h.files.sparse, fun f => ?_, h.files.closed, h.files.readable,
    h.files.ends⟩
  rw [← hl.count_eq]
  exact h.files.ref f

theorem wp_closeBoth (h : Ready M fd [wf, rf] c s) (hheld : c.held = []) (hlocked : c.locked = []) :
    M.spec.Wp (fun _ t => ∃ file pipe, Ready M fd [] { c with file := file, pipe := pipe } t)
      (closeBoth M.p rf wf) s := by
  have hswap := h.perm (.swap rf wf [])
  refine .bind (hswap.wp_fileclose fun _ => ⟨hheld, hlocked⟩) fun _ t ht => ?_
  grind [wp_fileclose]

theorem setPipe (h : Ready M fd loose c s) (pa : Nat) (e : Option PipeEnds) :
    Inv M { c with pipe := Function.update c.pipe pa e } (s.setPipe pa e) := by
  refine h.inv.retable_same h.plain rfl h.inv.proc h.inv.file ?_ rfl
  show Function.update s.pipe pa e = _
  rw [h.inv.pipe]

-- The two files become the ends of a pipe that has got a page.
theorem pipes {pa : Nat} (h : Ready M fd [wf, rf] c s) (hne : rf ≠ wf)
    (hrf : (c.file rf).type = .none) (hwf : (c.file wf).type = .none) (hpa : c.pipe pa = none) :
    ∃ file pipe, Ready M fd [wf, rf] { c with file := file, pipe := pipe }
      (pipeFile wf pa true (pipeFile rf pa false (s.setPipe pa (some ⟨true, true⟩)))) := by
  have hrpos : 0 < (c.file rf).ref := (h.perm (.swap rf wf [])).files.pos_of_loose
  have hfiles := h.files.pipes hrf hwf hrpos h.files.pos_of_loose hne hpa
  refine ⟨Function.update (Function.update c.file rf
      { c.file rf with type := .pipe, readable := true, writable := false, pipe := pa }) wf
    { c.file wf with type := .pipe, readable := false, writable := true, pipe := pa },
    Function.update c.pipe pa (some ⟨true, true⟩), ?_, h.plain.tables, hfiles⟩
  refine h.inv.retable_same h.plain rfl h.inv.proc ?_ ?_ ?_
  · show Function.update (Function.update s.file rf
        { s.file rf with type := .pipe, readable := true, writable := false, pipe := pa }) wf
      { Function.update s.file rf _ wf with
        type := .pipe, readable := false, writable := true, pipe := pa } = _
    rw [Function.update_of_ne hne.symm, h.inv.file]
  · show Function.update s.pipe pa _ = _
    rw [h.inv.pipe]
  · have hnone : ∀ g, (c.file g).type = .none → fileIp c.file g = none := fun g hg =>
      if_neg (by rw [hg]; simp)
    have hr : fileIp (Function.update c.file rf
        { c.file rf with type := .pipe, readable := true, writable := false, pipe := pa }) =
        fileIp c.file := fileIp_same (hnone rf hrf).symm
    rw [fileIp_update, hr, if_neg (by simp), ← hnone wf hwf, Function.update_eq_self]

-- What pipealloc() has: the two ends of a new pipe.
theorem wp_pipealloc {page : Option Nat} (h : Ready M fd [] c s) (hheld : c.held = [])
    (hlocked : c.locked = []) :
    M.spec.Wp (fun r t => ∃ file pipe, Ready M fd (r.elim [] fun x => [x.2, x.1])
      { c with file := file, pipe := pipe } t) (pipealloc M.p page) s := by
  refine .bind h.wp_filealloc fun r t ht => ?_
  cases r with
  | none => exact ⟨c.file, c.pipe, ht⟩
  | some rf =>
    obtain ⟨hrf, ht⟩ := ht
    refine .bind ht.wp_filealloc fun r u hu => ?_
    cases r with
    | none =>
      refine .bind (wp_fileclose hu fun _ => ⟨hheld, hlocked⟩) fun _ v hv => ?_
      obtain ⟨file, pipe, hv⟩ := hv
      exact ⟨file, pipe, hv⟩
    | some wf =>
      obtain ⟨hwf, hu⟩ := hu
      have hne : rf ≠ wf := by
        grind
      have hrtype : (c.file rf).type = .none := h.files.closed rf hrf
      have hwtype : (c.file wf).type = .none := by
        have hclosed := ht.files.closed wf hwf
        grind
      have hrtype : (Function.update (Function.update c.file rf { c.file rf with ref := 1 }) wf
          { Function.update c.file rf { c.file rf with ref := 1 } wf with ref := 1 } rf).type =
          .none := by
        grind
      have hwtype : (Function.update (Function.update c.file rf { c.file rf with ref := 1 }) wf
          { Function.update c.file rf { c.file rf with ref := 1 } wf with ref := 1 } wf).type =
          .none := by
        grind
      refine .atomic_bind fun _ => ⟨hu.inv.must rfl, fun r hr => ?_, fun msg hmsg => ?_⟩
      · cases hpage : page.filter fun pa => (u.pipe pa).isNone with
        | none =>
          simp only [hpage] at hr ⊢
          cases hr
          exact .bind (hu.wp_closeBoth hheld hlocked) fun _ v hv => hv
        | some pa =>
          simp only [hpage] at hr ⊢
          cases hr
          have hpa : c.pipe pa = none := by
            have hsome := (Option.filter_eq_some_iff.mp hpage).2
            rw [hu.inv.pipe] at hsome
            simp_all
          have hmid := hu.setPipe pa (some ⟨true, true⟩)
          obtain ⟨file, pipe, hv⟩ := hu.pipes hne hrtype hwtype hpa
          exact .modify_bind fun _ => ⟨hmid.must rfl, file, pipe, hv⟩
      · split at hmsg <;> cases hmsg

theorem wp_pipeFds (h : Ready M fd loose c s) :
    M.spec.Wp (fun r t => r.elim (Ready M fd loose c t) fun x =>
      (c.proc p).ofile x.1 = none ∧ (withFd c.proc p x.1 (some rf) p).ofile x.2 = none ∧
      Ready M fd loose
        { c with proc := withFd (withFd c.proc p x.1 (some rf)) p x.2 (some wf) } t)
      (pipeFds p rf wf) s := by
  refine .bind h.wp_fdalloc fun r t ht => ?_
  cases r with
  | none => exact ht
  | some x =>
    obtain ⟨hx, ht⟩ := ht
    refine .bind ht.wp_fdalloc fun r u hu => ?_
    cases r with
    | none =>
      refine .modify_bind fun _ => ⟨hu.inv.must rfl, ?_⟩
      have hundo := hu.setOfile p x none
      have hproc : withFd (withFd c.proc p x (some rf)) p x none = c.proc := withFd_undo hx
      have hctx : { c with proc := withFd (withFd c.proc p x (some rf)) p x none } = c := by
        rw [hproc]
      exact hctx ▸ hundo
    | some y => exact ⟨hx, hu.1, hu.2⟩

end Ready

namespace Settled

theorem wp_sysPipe {page : Option Nat} {copied : Bool} (h : Settled M s)
    (hlive : (s.proc M.p).cwd ≠ none) :
    M.spec.Wp (fun _ t => Settled M t) (sysPipe M.p page copied) s := by
  refine .bind (h.ready.wp_pipealloc rfl rfl) fun r t ht => ?_
  obtain ⟨file, pipe, ht⟩ := ht
  cases r with
  | none => exact h.of_files ht
  | some x =>
    obtain ⟨rf, wf⟩ := x
    have ht : Ready M (fds s.proc) [wf, rf] { Ctx.idle s with file := file, pipe := pipe } t := ht
    refine .bind ht.wp_pipeFds fun r u hu => ?_
    cases r with
    | none =>
      refine .bind (Ready.wp_closeBoth hu rfl rfl) fun _ v hv => ?_
      obtain ⟨file', pipe', hv⟩ := hv
      exact h.of_files hv
    | some x =>
      obtain ⟨x, y⟩ := x
      obtain ⟨hx, hy, hu⟩ := hu
      have hu : Ready M (fds s.proc) [wf, rf] { Ctx.idle s with
        proc := withFd (withFd s.proc M.p x (some rf)) M.p y (some wf)
        file := file, pipe := pipe } u := hu
      have hx : fds s.proc (M.p, x) = none := hx
      have hy : fds (withFd s.proc M.p x (some rf)) (M.p, y) = none := hy
      rw [fds_withFd] at hy
      have hlive' : (withFd s.proc M.p x (some rf) M.p).cwd ≠ none := by
        rw [(withFd_same ..).1]
        exact hlive
      have hunused : Unused (withFd (withFd s.proc M.p x (some rf)) M.p y (some wf)) :=
        (h.unused.withFd hlive x _).withFd hlive' y _
      have hcwd : ∀ q, (withFd (withFd s.proc M.p x (some rf)) M.p y (some wf) q).cwd =
          (s.proc q).cwd := fun q => by
        rw [(withFd_same ..).1, (withFd_same ..).1]
      dsimp only
      split
      · have hinst := ((hu.perm (.swap rf wf [])).install hx).install hy
        refine .of_tables hinst ?_ hcwd hunused
        rw [fds_withFd, fds_withFd]
      · refine .modify_bind fun _ => ⟨hu.inv.must rfl, ?_⟩
        have hclear := (hu.setOfile M.p x none).setOfile M.p y none
        refine .bind (hclear.wp_closeBoth rfl rfl) fun _ v hv => ?_
        obtain ⟨file', pipe', hv⟩ := hv
        have hv : Ready M (fds s.proc) [] { Ctx.idle s with
          proc := withFd (withFd (withFd (withFd s.proc M.p x (some rf)) M.p y (some wf)) M.p x
            none) M.p y none
          file := file', pipe := pipe' } v := hv
        have hlive'' : (withFd (withFd s.proc M.p x (some rf)) M.p y (some wf) M.p).cwd ≠
            none := by
          rw [hcwd]
          exact hlive
        refine .of_tables hv ?_ (fun q => ?_) ((hunused.withFd hlive'' x none).withFd ?_ y none)
        · rw [fds_withFd, fds_withFd, fds_withFd, fds_withFd]
          exact (update_undo hx hy).symm
        · rw [(withFd_same ..).1, (withFd_same ..).1, hcwd]
        · rw [(withFd_same ..).1]
          exact hlive''

end Settled

-- Only the descriptors of process q change.
structure Redescribed (q : Nat) (proc proc' : Nat → Proc) : Prop where
  other : ∀ r, r ≠ q → proc' r = proc r
  cwd : (proc' q).cwd = (proc q).cwd
  used : (proc' q).used = (proc q).used

namespace Redescribed

variable {proc' proc'' : Nat → Proc}

theorem refl (q : Nat) (proc : Nat → Proc) : Redescribed q proc proc := ⟨fun _ _ => rfl, rfl, rfl⟩

theorem trans (h : Redescribed q proc proc') (h' : Redescribed q proc' proc'') : Redescribed q proc proc'' :=
  ⟨fun r hr => (h'.other r hr).trans (h.other r hr), h'.cwd.trans h.cwd, h'.used.trans h.used⟩

theorem withFd (q : Nat) (proc : Nat → Proc) (x : Fd) (g : Option FileIdx) :
    Redescribed q proc (withFd proc q x g) :=
  ⟨fun _ hr => Function.update_of_ne hr _ _, (withFd_same proc q q x g).1,
    (withFd_same proc q q x g).2⟩

end Redescribed

namespace Ready

theorem wp_forkFile {x : Fd} (h : Ready M (fds c.proc) [] c s) (hx : (c.proc q).ofile x = none) :
    M.spec.Wp (fun _ t => ∃ g file,
      Ready M (fds (withFd c.proc q x g)) [] { c with
        proc := withFd c.proc q x g, file := file } t) (forkFile p q x) s := by
  refine .look_bind fun _ => ⟨h.inv.must rfl, ?_⟩
  rw [h.inv.proc]
  cases hf : (c.proc p).ofile x with
  | none =>
    have hsame : withFd c.proc q x none = c.proc := by
      rw [withFd, ← hx, Function.update_eq_self, Function.update_eq_self]
    refine ⟨none, c.file, ?_⟩
    rw [hsame]
    exact h
  | some f =>
    have hfd : fds c.proc (p, x) = some f := hf
    refine .bind (h.wp_filedup (h.files.pos_of_fd hfd)) fun _ t ht => ?_
    have hset := (ht.setOfile q x (some f)).install (x := (q, x)) hx
    rw [← fds_withFd] at hset
    exact .modify fun _ => ⟨ht.inv.must rfl, some f, _, hset⟩

theorem wp_forkFiles {xs : List Fd} (h : Ready M (fds c.proc) [] c s) (hnodup : xs.Nodup)
    (hfree : ∀ x ∈ xs, (c.proc q).ofile x = none) :
    M.spec.Wp (fun _ t => ∃ proc file, Redescribed q c.proc proc ∧
      Ready M (fds proc) [] { c with proc := proc, file := file } t) (forkFiles p q xs) s := by
  induction xs generalizing c s with
  | nil => exact ⟨c.proc, c.file, .refl q c.proc, h⟩
  | cons x rest ih =>
    obtain ⟨hx, hrest⟩ := List.nodup_cons.mp hnodup
    refine .bind (h.wp_forkFile (hfree x List.mem_cons_self)) fun _ t ht => ?_
    obtain ⟨g, file, ht⟩ := ht
    refine (ih (c := { c with proc := withFd c.proc q x g, file := file }) ht hrest
      fun y hy => ?_).mono fun _ u hu => ?_
    · have hne : y ≠ x := by
        rintro rfl
        exact hx hy
      show (withFd c.proc q x g q).ofile y = none
      rw [withFd, Function.update_self]
      exact (Function.update_of_ne hne _ _).trans (hfree y (List.mem_cons_of_mem _ hy))
    · obtain ⟨proc, file', hdesc, hu⟩ := hu
      exact ⟨proc, file', (Redescribed.withFd q c.proc x g).trans hdesc, hu⟩

theorem wp_exitFile {x : Fd} (h : Ready M (fds c.proc) [] c s) (hheld : c.held = [])
    (hlocked : c.locked = []) :
    M.spec.Wp (fun _ t => ∃ file pipe, Ready M (fds (withFd c.proc M.p x none)) [] { c with
      proc := withFd c.proc M.p x none, file := file, pipe := pipe } t) (exitFile M.p x) s := by
  refine .look_bind fun _ => ⟨h.inv.must rfl, ?_⟩
  rw [h.inv.proc]
  cases hf : (c.proc M.p).ofile x with
  | none =>
    have hsame : withFd c.proc M.p x none = c.proc := by
      rw [withFd, ← hf, Function.update_eq_self, Function.update_eq_self]
    refine ⟨c.file, c.pipe, ?_⟩
    rw [hsame]
    exact h
  | some f =>
    -- The file is closed before the descriptor is cleared.
    have hfd : fds c.proc (M.p, x) = some f := hf
    refine .bind ((h.remove hfd).wp_fileclose fun _ => ⟨hheld, hlocked⟩) fun _ t ht => ?_
    obtain ⟨file, pipe, ht⟩ := ht
    refine .modify fun _ => ⟨ht.inv.must rfl, file, pipe, ?_⟩
    rw [fds_withFd]
    exact ht.setOfile M.p x none

theorem wp_exitFiles {xs : List Fd} (h : Ready M (fds c.proc) [] c s) (hheld : c.held = [])
    (hlocked : c.locked = []) :
    M.spec.Wp (fun _ t => ∃ proc file pipe, Redescribed M.p c.proc proc ∧
      (∀ x, x ∈ xs ∨ (c.proc M.p).ofile x = none → (proc M.p).ofile x = none) ∧
      Ready M (fds proc) [] { c with proc := proc, file := file, pipe := pipe } t)
      (exitFiles M.p xs) s := by
  induction xs generalizing c s with
  | nil =>
    refine ⟨c.proc, c.file, c.pipe, .refl M.p c.proc, fun x hx => ?_, h⟩
    grind
  | cons x rest ih =>
    refine .bind (h.wp_exitFile hheld hlocked) fun _ t ht => ?_
    obtain ⟨file, pipe, ht⟩ := ht
    refine (ih (c := { c with proc := withFd c.proc M.p x none, file := file, pipe := pipe }) ht
      hheld hlocked).mono fun _ u hu => ?_
    obtain ⟨proc, file', pipe', hdesc, hclosed, hu⟩ := hu
    refine ⟨proc, file', pipe', (Redescribed.withFd M.p c.proc x none).trans hdesc, fun y hy => ?_, hu⟩
    have hself : (withFd c.proc M.p x none M.p).ofile =
        Function.update (c.proc M.p).ofile x none := by
      rw [withFd, Function.update_self]
    by_cases hyx : y = x
    · refine hclosed y (.inr ?_)
      show (withFd c.proc M.p x none M.p).ofile y = none
      rw [hself, hyx, Function.update_self]
    · rcases hy with hy | hy
      · exact hclosed y (.inl ((List.mem_cons.mp hy).resolve_left hyx))
      · refine hclosed y (.inr ?_)
        show (withFd c.proc M.p x none M.p).ofile y = none
        rw [hself, Function.update_of_ne hyx]
        exact hy

end Ready

namespace Settled

-- np->cwd = idup(p->cwd) for the slot that allocproc() has taken.
theorem wp_forkCwd (h : Settled M s) (hfree : (s.proc q).cwd = none) {proc' : Nat → Proc}
    {file : FileIdx → File} (hother : ∀ r, r ≠ q → proc' r = s.proc r) (hpq : p ≠ q)
    (hused : (proc' q).used = true)
    (ht : Ready M (fds proc') [] { Ctx.idle s with proc := proc', file := file } t) :
    M.spec.Wp (fun _ u => Settled M u) (forkCwd p q) t := by
  refine .look_bind fun _ => ⟨ht.inv.must rfl, ?_⟩
  have hproc : (t.proc p).cwd = (s.proc p).cwd := by
    rw [ht.inv.proc]
    grind
  cases hi : (t.proc p).cwd with
  | none => exact ⟨by decide, fun _ => by decide, fun _ => by decide⟩
  | some i =>
    have hdirs : (Ctx.idle s).dirs p = some i := hproc.symm.trans hi
    have hopen : 0 < ({ Ctx.idle s with proc := proc', file := file } : Ctx).opens i :=
      Nat.add_pos_right _ (tally_pos h.inv.sparse hdirs)
    have hinv := (ht.inv.hold q (Ctx.refs_pos_of_open hopen)).setProc ht.plain.tables q
      fun np => { np with cwd := some i, holder := none }
    have hinv : Inv M { Ctx.idle s with
        proc := Function.update proc' q { proc' q with cwd := some i, holder := none }
        file := file, dirs := Function.update (Ctx.idle s).dirs q (some i) }
        ((t.hold q i).setProc q fun np => { np with cwd := some i, holder := none }) := by
      refine hinv.swapDir ht.plain.tables (fun j => ?_) fun j hj => ?_
      · have hnone : (Ctx.idle s).dirs q = none := hfree
        show [].count j + _ = [i].count j + if (Ctx.idle s).dirs q = some j then 1 else 0
        rw [hnone]
        simp [List.count_singleton]
      · cases hj
        exact .inl hopen
    have hfds : fds (Function.update proc' q { proc' q with cwd := some i, holder := none }) =
        fds proc' := fds_update rfl
    have hfiles : Files (fds (Function.update proc' q
        { proc' q with cwd := some i, holder := none })) [] file s.pipe := by
      rw [hfds]
      exact ht.files
    have hunused : Unused proc' := by
      intro r hr
      by_cases hrq : r = q
      · grind
      · rw [hother r hrq] at hr ⊢
        exact h.unused r hr
    refine .modify_bind fun _ => ⟨ht.inv.must rfl, ?_⟩
    refine .of_ready (c := { Ctx.idle s with
      proc := Function.update proc' q { proc' q with cwd := some i, holder := none }
      file := file, dirs := Function.update (Ctx.idle s).dirs q (some i) })
      ⟨hinv, ht.plain.tables, hfiles⟩ rfl rfl (fun r => ?_) (hunused.update fun hfalse => ?_)
    · by_cases hrq : r = q
      · grind
      · show Function.update (Ctx.idle s).dirs q (some i) r = (Function.update proc' q _ r).cwd
        rw [Function.update_of_ne hrq, Function.update_of_ne hrq, hother r hrq]
        rfl
    grind

theorem wp_fork {copied : Bool} (h : Settled M s) (hlive : (s.proc p).cwd ≠ none) :
    M.spec.Wp (fun _ t => Settled M t) (fork p q copied) s := by
  refine .atomic_bind fun _ => ⟨h.inv.must rfl, fun r hr => ?_, fun msg hmsg => ?_⟩
  · by_cases hq : (s.proc q).used ∨ (s.proc q).holder ≠ none
    · simp only [if_pos hq] at hr ⊢
      cases hr
      exact h
    · simp only [if_neg hq] at hr ⊢
      cases hr
      have hunused : (s.proc q).used = false := by
        simpa using (not_or.mp hq).1
      obtain ⟨hcwd, hofile⟩ := h.unused q hunused
      have hpq : p ≠ q := by
        rintro rfl
        exact hlive hcwd
      have ht := h.inv.setProc (Ctx.plain_idle s) q fun np => { np with used := true, holder := some p }
      rw [if_pos rfl]
      split
      · have hfds : fds (Function.update s.proc q { s.proc q with used := true, holder := some p }) =
            fds s.proc := fds_update rfl
        have hfiles : Files (fds (Function.update s.proc q
            { s.proc q with used := true, holder := some p })) [] s.file s.pipe := by
          rw [hfds]
          exact h.files
        refine .bind (Ready.wp_forkFiles (c := { Ctx.idle s with
          proc := Function.update s.proc q { s.proc q with used := true, holder := some p } })
          ⟨ht, (Ctx.plain_idle s).tables, hfiles⟩ (List.nodup_finRange NOFILE) fun x _ => ?_)
          fun _ u hu => ?_
        · simp_all
        · obtain ⟨proc, file, hdesc, hu⟩ := hu
          refine h.wp_forkCwd hcwd (fun r hr => ?_) hpq ?_ hu
          · exact (hdesc.other r hr).trans (Function.update_of_ne hr _ _)
          grind [Redescribed.used, Function.update_self]
      · refine .modify_bind fun _ => ⟨ht.must rfl, ?_⟩
        have hback := ht.setProc (Ctx.plain_idle s).tables q
          fun np => { np with used := false, holder := none }
        have hctx : Function.update (Function.update s.proc q
            { s.proc q with used := true, holder := some p }) q
            { Function.update s.proc q { s.proc q with used := true, holder := some p } q with
              used := false, holder := none } =
            Function.update s.proc q { s.proc q with used := false, holder := none } := by
          grind
        have hdirs : Function.update (Ctx.idle s).dirs q (s.proc q).cwd = (Ctx.idle s).dirs :=
          Function.update_eq_self q _
        have hback : Inv M { Ctx.idle s with
            proc := Function.update s.proc q { s.proc q with used := false, holder := none }
            dirs := Function.update (Ctx.idle s).dirs q (s.proc q).cwd }
            ((s.setProc q fun np => { np with used := true, holder := some p }).setProc q
              fun np => { np with used := false, holder := none }) := by
          rw [hdirs, ← hctx]
          exact hback
        exact h.of_proc hback rfl fun _ => ⟨hcwd, hofile⟩
  · split at hmsg <;> cases hmsg

theorem wp_exit (h : Settled M s) (hlive : (s.proc M.p).cwd ≠ none) :
    M.spec.Wp (fun _ t => Settled M t) (exit M.p) s := by
  unfold exit
  split
  · exact ⟨by decide, fun _ => by decide, fun _ => by decide⟩
  · obtain ⟨old, hold⟩ := Option.ne_none_iff_exists'.mp hlive
    refine .bind (Ready.wp_exitFiles (c := Ctx.idle s) h.ready rfl rfl) fun _ t ht => ?_
    obtain ⟨proc, file, pipe, hdesc, hclosed, ht⟩ := ht
    refine .bind ht.inv.wp_beginOp fun _ u hu => ?_
    have hcwd : (proc M.p).cwd = some old := hdesc.cwd.trans hold
    have hu : Inv M { Ctx.idle s with
        proc := proc, file := file, pipe := pipe
        dirs := Function.update (Ctx.idle s).dirs M.p none, held := [old] } u := by
      refine hu.swapDir ht.plain (fun j => ?_) fun j hj => by cases hj
      have hdirs : (Ctx.idle s).dirs M.p = some old := hold
      show [old].count j + _ = [].count j + if (Ctx.idle s).dirs M.p = some j then 1 else 0
      rw [hdirs]
      simp [List.count_singleton]
    refine .bind (hu.wp_iputCwd hcwd rfl rfl) fun _ v hv => ?_
    refine .bind (hv.wp_endOp rfl rfl rfl) fun _ w hw => ?_
    refine .modify_bind fun _ => ⟨hw.must rfl, ?_⟩
    have hfinal := hw.setProc ht.plain.tables M.p fun pr => { pr with cwd := none, used := false }
    have hfds : fds (Function.update proc M.p { proc M.p with cwd := none, used := false }) =
        fds proc := fds_update rfl
    have hfiles : Files (fds (Function.update proc M.p
        { proc M.p with cwd := none, used := false })) [] file pipe := by
      rw [hfds]
      exact ht.files
    refine .of_ready (c := { Ctx.idle s with
      proc := Function.update proc M.p { proc M.p with cwd := none, used := false }
      file := file, pipe := pipe, dirs := Function.update (Ctx.idle s).dirs M.p none })
      ⟨hfinal, ht.plain.tables, hfiles⟩ rfl rfl (fun r => ?_) ?_
    · by_cases hr : r = M.p
      · grind
      · show Function.update (Ctx.idle s).dirs M.p none r = (Function.update proc M.p _ r).cwd
        rw [Function.update_of_ne hr, Function.update_of_ne hr, hdesc.other r hr]
        rfl
    · have hunused : Unused proc := by
        intro r hr
        by_cases hrp : r = M.p
        · rw [hrp, hdesc.used] at hr
          exact absurd hr (h.unused.used hlive)
        · rw [hdesc.other r hrp] at hr ⊢
          exact h.unused r hr
      grind [Unused.update]

theorem wp_evict (h : Settled M s) (hkeep : ∀ n, ¬ M.keep n) (b : Nat) :
    M.spec.Wp (fun _ t => Settled M t) (evict b) s :=
  .modify_bind fun _ => ⟨h.inv.must rfl, h.of_idle (h.inv.evict hkeep id b)⟩

end Settled

-- The calls that write to files.
def Syscall.writes : Syscall → Prop
  | .write .. => True
  | .open _ omode => omode &&& O_TRUNC ≠ 0
  | _ => False

def Syscall.evicts : Syscall → Prop
  | .evict _ => True
  | _ => False

-- Every system call keeps what holds between calls.
theorem Settled.wp_syscall (h : Settled M s) (hlive : (s.proc M.p).cwd ≠ none) (call : Syscall)
    (hwrites : call.writes → M.writes) (hevicts : call.evicts → ∀ n, ¬ M.keep n)
    (hroom : M.Fits (Ctx.idle s) 3) :
    M.spec.Wp (fun _ t => Settled M t) (syscall M.sb M.p call) s := by
  have hfits : M.Fits (Ctx.idle s) 2 := fun hr => (hroom hr).mono (by decide)
  have hclear := Ctx.clear_idle s M.p
  cases call with
  | dup fd => exact h.wp_sysDup hlive
  | read fd dst n other => exact h.wp_sysRead
  | write fd mem n other => exact h.wp_sysWrite (hwrites trivial)
  | close fd => exact h.wp_sysClose hlive
  | fstat fd copied => exact h.wp_sysFstat
  | link old new => exact (Inv.wp_sysLink hclear hroom h.inv).mono fun _ _ ht => h.of_after ht
  | unlink path => exact (Inv.wp_sysUnlink hclear hfits h.inv).mono fun _ _ ht => h.of_after ht
  | «open» path omode => exact h.wp_sysOpen hlive hwrites hroom
  | mkdir path =>
    exact (Inv.wp_makeNode hclear (fun heq => by cases heq) hroom h.inv).mono fun _ _ ht =>
      h.of_after ht
  | mknod path major minor =>
    exact (Inv.wp_makeNode hclear (fun heq => by cases heq) hroom h.inv).mono fun _ _ ht =>
      h.of_after ht
  | chdir path => exact h.wp_sysChdir hlive hfits
  | pipe page copied => exact h.wp_sysPipe hlive
  | exec path reads answer => exact h.wp_sysExec hfits
  | fork q copied => exact h.wp_fork hlive
  | exit => exact h.wp_exit hlive
  | evict b => exact h.wp_evict (hevicts trivial) b

end Xv6.Fs
