import Xv6.Fs.Create
import Xv6.Fs.Files

namespace Xv6.Fs

open Lib

-- The open files of the processes, by their descriptors.
def fds (proc : Nat → Proc) (x : Nat × Fd) : Option FileIdx := (proc x.1).ofile x.2

-- The call has lowered no link count, has made no inode and keeps no reference.
structure Ctx.Plain (c : Ctx) : Prop where
  bare : c.Bare
  pinned : c.pinned = []
  dying : c.dying = []
  fresh : c.fresh = []
  blind : ¬ c.watching

variable {M : Mode} {c c' : Ctx} {s t : Sys} {i ip : Slot} {f : FileIdx} {p q : Nat}
  {fd : Nat × Fd → Option FileIdx} {loose : List FileIdx}

theorem Ctx.Plain.tables (h : c.Plain) {held locked : List Slot} {proc : Nat → Proc}
    {file : FileIdx → File} {pipe : Nat → Option PipeEnds} {dirs : Nat → Option Slot} :
    { c with
      held := held, locked := locked, proc := proc, file := file, pipe := pipe
      dirs := dirs }.Plain :=
  ⟨⟨h.bare.isdir, h.bare.made⟩, h.pinned, h.dying, h.fresh, h.blind⟩

theorem fileIp_update (file : FileIdx → File) (f : FileIdx) (fl : File) :
    fileIp (Function.update file f fl) = Function.update (fileIp file) f
      (if fl.type = .inode ∨ fl.type = .device then some fl.ip else none) := by
  funext g
  by_cases hg : g = f
  · rw [hg, fileIp, Function.update_self, Function.update_self]
  · rw [fileIp, Function.update_of_ne hg, Function.update_of_ne hg, fileIp]

theorem fileIp_same {file : FileIdx → File} {fl : File}
    (h : (if fl.type = .inode ∨ fl.type = .device then some fl.ip else none) = fileIp file f) :
    fileIp (Function.update file f fl) = fileIp file := by
  rw [fileIp_update, h, Function.update_eq_self]

-- p->ofile[fd] = f
def withFd (proc : Nat → Proc) (p : Nat) (x : Fd) (f : Option FileIdx) : Nat → Proc :=
  Function.update proc p { proc p with ofile := Function.update (proc p).ofile x f }

theorem fds_withFd (proc : Nat → Proc) (p : Nat) (x : Fd) (f : Option FileIdx) :
    fds (withFd proc p x f) = Function.update (fds proc) (p, x) f := by
  funext y
  obtain ⟨q, z⟩ := y
  by_cases hq : q = p
  · subst hq
    by_cases hz : z = x
    · rw [hz, Function.update_self, fds, withFd, Function.update_self]
      exact Function.update_self ..
    · rw [Function.update_of_ne (fun heq => hz (Prod.mk.inj heq).2), fds, withFd,
        Function.update_self]
      exact Function.update_of_ne hz _ _
  · rw [Function.update_of_ne (fun heq => hq (Prod.mk.inj heq).1), fds, withFd,
      Function.update_of_ne hq, fds]

theorem withFd_same (proc : Nat → Proc) (p q : Nat) (x : Fd) (f : Option FileIdx) :
    (withFd proc p x f q).cwd = (proc q).cwd ∧ (withFd proc p x f q).used = (proc q).used := by
  by_cases hq : q = p
  · rw [hq, withFd, Function.update_self]
    exact ⟨rfl, rfl⟩
  · rw [withFd, Function.update_of_ne hq]
    exact ⟨rfl, rfl⟩

namespace Inv

theorem retable (h : Inv M c s) (hp : c.Plain)
    (hsys : t = { s with file := t.file, proc := t.proc, pipe := t.pipe, refs := t.refs })
    {proc : Nat → Proc} {file : FileIdx → File} {pipe : Nat → Option PipeEnds}
    {dirs : Nat → Option Slot} {held : List Slot}
    (hproc : t.proc = proc) (hfile : t.file = file) (hpipe : t.pipe = pipe) (hsparse : Sparse dirs)
    (hrefs : ∀ j, tally (fileIp file) j + tally dirs j + held.count j =
      tally (fileIp c.file) j + tally c.dirs j + c.held.count j)
    (hopen : ∀ j, 0 < tally (fileIp file) j + tally dirs j →
      0 < c.opens j ∨ 0 < c.refs j ∧ (s.inode j).valid = true) :
    Inv M { c with proc := proc, file := file, pipe := pipe, dirs := dirs, held := held } t := by
  refine h.recast hsys hproc hfile hpipe hsparse (fun j => ?_) rfl rfl (fun _ hm => hm)
    (fun j hd => ?_) hopen hp.blind
  · have hj := hrefs j
    show tally (fileIp file) j + tally dirs j + c.pins.count j + held.count j =
      tally (fileIp c.file) j + tally c.dirs j + c.pins.count j + c.held.count j
    omega
  · have hmem := hd.dying
    rw [hp.dying] at hmem
    cases hmem

theorem retable_same (h : Inv M c s) (hp : c.Plain)
    (hsys : t = { s with file := t.file, proc := t.proc, pipe := t.pipe, refs := t.refs })
    {proc : Nat → Proc} {file : FileIdx → File} {pipe : Nat → Option PipeEnds}
    (hproc : t.proc = proc) (hfile : t.file = file) (hpipe : t.pipe = pipe)
    (hip : fileIp file = fileIp c.file) :
    Inv M { c with proc := proc, file := file, pipe := pipe } t := by
  refine h.retable hp hsys hproc hfile hpipe h.sparse (fun j => by rw [hip]) fun j hj => .inl ?_
  rw [hip] at hj
  exact hj

-- The reference of an open file goes to the call.
theorem closeFile (h : Inv M c s) (hp : c.Plain) (hip : fileIp c.file f = some i) :
    Inv M { c with
      file := Function.update c.file f { c.file f with ref := 0, type := .none }
      held := i :: c.held } (s.closeFile p f) := by
  have hsys : s.closeFile p f = { s with
      file := (s.closeFile p f).file, proc := (s.closeFile p f).proc
      pipe := (s.closeFile p f).pipe, refs := (s.closeFile p f).refs } := by
    unfold Sys.closeFile
    split <;> rfl
  have hproc : (s.closeFile p f).proc = s.proc := by unfold Sys.closeFile; split <;> rfl
  have hpipe : (s.closeFile p f).pipe = s.pipe := by unfold Sys.closeFile; split <;> rfl
  have hfile : (s.closeFile p f).file =
      Function.update s.file f { s.file f with ref := 0, type := .none } := by
    unfold Sys.closeFile
    split <;> rfl
  have hnone : fileIp (Function.update c.file f { c.file f with ref := 0, type := .none }) =
      Function.update (fileIp c.file) f none := fileIp_update ..
  have htally : ∀ j, tally (Function.update (fileIp c.file) f none) j + (if i = j then 1 else 0) =
      tally (fileIp c.file) j := fun j => by
    have hupd := tally_update (sparse_of_finite (fileIp c.file)) f none j
    simpa [hip] using hupd
  refine h.retable hp hsys (hproc.trans h.proc) ?_ (hpipe.trans h.pipe) h.sparse (fun j => ?_)
    fun j hj => .inl ?_
  · rw [hfile, h.file]
  · have hj := htally j
    rw [hnone, List.count_cons]
    simp only [beq_iff_eq]
    omega
  · have hj' := htally j
    rw [hnone] at hj
    show 0 < tally (fileIp c.file) j + tally c.dirs j
    omega

theorem wp_pipeclose {e : PipeEnds} {pa : Nat} {w : Bool} (h : Inv M c s) (hp : c.Plain)
    (he : c.pipe pa = some e) :
    M.spec.Wp (fun _ t => Inv M { c with pipe := Function.update c.pipe pa (e.close w).page } t)
      (pipeclose pa w) s := by
  have hes : s.pipe pa = some e := by
    rw [h.pipe]
    exact he
  refine .atomic fun _ => ⟨h.must rfl, fun r hr => ?_, fun msg hmsg => ?_⟩
  · simp only [hes]
    refine h.retable_same hp ?_ ?_ ?_ ?_ rfl
    · split <;> rfl
    · split <;> exact h.proc
    · split <;> exact h.file
    · rw [← h.pipe, PipeEnds.page]
      split <;> rfl
  · simp only [hes] at hmsg
    split at hmsg <;> cases hmsg

end Inv

-- Inside a call, where the open files are counted as well.
structure Ready (M : Mode) (fd : Nat × Fd → Option FileIdx) (loose : List FileIdx) (c : Ctx)
    (s : Sys) : Prop where
  inv : Inv M c s
  plain : c.Plain
  files : Files fd loose c.file c.pipe

namespace Ready

theorem install (h : Ready M fd (f :: loose) c s) {x : Nat × Fd} (hx : fd x = none) :
    Ready M (Function.update fd x (some f)) loose c s :=
  ⟨h.inv, h.plain, h.files.install hx⟩

theorem remove (h : Ready M fd loose c s) {x : Nat × Fd} (hx : fd x = some f) :
    Ready M (Function.update fd x none) (f :: loose) c s :=
  ⟨h.inv, h.plain, h.files.remove hx⟩

theorem setFile (h : Ready M fd loose c s) {g : File → File} {loose' : List FileIdx}
    (hip : (if (g (c.file f)).type = .inode ∨ (g (c.file f)).type = .device then
      some (g (c.file f)).ip else none) = fileIp c.file f)
    (hfiles : Files fd loose' (Function.update c.file f (g (c.file f))) c.pipe) :
    Ready M fd loose' { c with file := Function.update c.file f (g (c.file f)) }
      (s.setFile f g) := by
  refine ⟨h.inv.retable_same h.plain rfl h.inv.proc ?_ h.inv.pipe (fileIp_same hip),
    h.plain.tables, hfiles⟩
  show Function.update s.file f (g (s.file f)) = _
  rw [h.inv.file]

theorem wp_filealloc (h : Ready M fd loose c s) :
    M.spec.Wp (fun r t => r.elim (Ready M fd loose c t) fun f => (c.file f).ref = 0 ∧
      Ready M fd (f :: loose)
        { c with file := Function.update c.file f { c.file f with ref := 1 } } t) filealloc s := by
  refine .atomic fun _ => ⟨h.inv.must rfl, fun r hr => ?_, fun msg hmsg => ?_⟩
  · dsimp only at hr ⊢
    split at hr
    · rename_i f hfind
      cases hr
      have href : (c.file f).ref = 0 := by
        rw [← h.inv.file]
        simpa using List.find?_some hfind
      exact ⟨href, h.setFile (g := fun fl => { fl with ref := 1 }) rfl (h.files.alloc href)⟩
    · cases hr
      exact h
  · split at hmsg <;> cases hmsg

theorem wp_filedup (h : Ready M fd loose c s) (hpos : 0 < (c.file f).ref) :
    M.spec.Wp (fun _ t => Ready M fd (f :: loose) { c with
      file := Function.update c.file f { c.file f with ref := (c.file f).ref + 1 } } t)
      (filedup f) s := by
  have hnot : ¬ (s.file f).ref < 1 := by
    rw [h.inv.file]
    omega
  refine .atomic fun _ => ⟨h.inv.must rfl, fun r hr => ?_, fun msg hmsg => ?_⟩
  · rw [if_neg hnot]
    exact h.setFile (g := fun fl => { fl with ref := fl.ref + 1 }) rfl (h.files.dup hpos)
  · rw [if_neg hnot] at hmsg
    cases hmsg

theorem setOfile (h : Ready M fd loose c s) (p : Nat) (x : Fd) (g : Option FileIdx) :
    Ready M fd loose { c with proc := withFd c.proc p x g } (setOfile p x g s) := by
  refine ⟨h.inv.retable_same h.plain rfl ?_ h.inv.file h.inv.pipe rfl, h.plain.tables, h.files⟩
  show withFd s.proc p x g = _
  rw [h.inv.proc]

theorem wp_fdalloc (h : Ready M fd loose c s) :
    M.spec.Wp (fun r t => r.elim (Ready M fd loose c t) fun x => (c.proc p).ofile x = none ∧
      Ready M fd loose { c with proc := withFd c.proc p x (some f) } t) (fdalloc p f) s := by
  refine .atomic fun _ => ⟨h.inv.must rfl, fun r hr => ?_, fun msg hmsg => ?_⟩
  · split at hr
    · rename_i x hfind
      cases hr
      have hnone : (c.proc p).ofile x = none := by
        rw [← h.inv.proc]
        simpa using List.find?_some hfind
      exact ⟨hnone, h.setOfile p x (some f)⟩
    · cases hr
      exact h
  · split at hmsg <;> cases hmsg

theorem closeFile (h : Ready M fd loose c s) (hnone : fileIp c.file f = none) :
    Inv M { c with file := Function.update c.file f { c.file f with ref := 0, type := .none } }
      (s.closeFile p f) := by
  have htype : ¬ ((c.file f).type = .inode ∨ (c.file f).type = .device) := by
    intro hino
    rw [fileIp, if_pos hino] at hnone
    cases hnone
  have hclose : s.closeFile p f = s.setFile f fun fl => { fl with ref := 0, type := .none } := by
    unfold Sys.closeFile
    rw [h.inv.file, if_neg htype]
  rw [hclose]
  refine h.inv.retable_same h.plain rfl h.inv.proc ?_ h.inv.pipe (fileIp_same hnone.symm)
  show Function.update s.file f _ = _
  rw [h.inv.file]

-- fileclose(). An inode is let go of in a transaction, where the call refers to no
-- other one.
theorem wp_fileclose (h : Ready M fd (f :: loose) c s)
    (hclear : fileIp c.file f ≠ none → c.held = [] ∧ c.locked = []) :
    M.spec.Wp (fun _ t => ∃ file pipe, Ready M fd loose { c with file := file, pipe := pipe } t)
      (fileclose M.p f) s := by
  have hpos := h.files.pos_of_loose
  have hnot : ¬ (s.file f).ref < 1 := by
    rw [h.inv.file]
    omega
  refine .atomic_bind fun _ => ⟨h.inv.must rfl, fun r hr => ?_, fun msg hmsg => ?_⟩
  · simp only [if_neg hnot] at hr ⊢
    by_cases hmore : 0 < (s.file f).ref - 1
    · simp only [if_pos hmore] at hr ⊢
      cases hr
      have hless := h.files.less (by rw [← h.inv.file]; omega)
      exact ⟨_, c.pipe, h.setFile (g := fun fl => { fl with ref := fl.ref - 1 }) rfl hless⟩
    · simp only [if_neg hmore] at hr ⊢
      cases hr
      have hone : (c.file f).ref = 1 := by
        rw [← h.inv.file]
        omega
      dsimp only
      rw [h.inv.file]
      by_cases hpipe : (c.file f).type = .pipe
      · rw [if_pos hpipe]
        obtain ⟨e, he, hlast⟩ := h.files.last_pipe hone hpipe
        have hnone : fileIp c.file f = none := if_neg (by rw [hpipe]; simp)
        exact ((h.closeFile hnone).wp_pipeclose h.plain.tables he).mono fun _ t ht =>
          ⟨_, _, ht, h.plain.tables, hlast⟩
      · rw [if_neg hpipe]
        have hlast := h.files.last_plain hone hpipe
        by_cases hino : (c.file f).type = .inode ∨ (c.file f).type = .device
        · rw [if_pos hino]
          have hip : fileIp c.file f = some (c.file f).ip := if_pos hino
          obtain ⟨hheld, hlocked⟩ := hclear (by rw [hip]; exact fun heq => by cases heq)
          have hinv := h.inv.closeFile (p := M.p) h.plain hip
          refine .bind hinv.wp_beginOp fun _ t ht => ?_
          refine .bind (ht.wp_iput List.mem_cons_self fun hl => ?_) fun _ u hu => ?_
          · have hl : (c.file f).ip ∈ c.locked := hl
            rw [hlocked] at hl
            cases hl
          · have hu : Inv M (({ c with
                file := Function.update c.file f { c.file f with ref := 0, type := .none } }.hold
                  (c.file f).ip).drop (c.file f).ip) u := hu
            rw [Ctx.drop_hold] at hu
            exact (hu.wp_endOp hheld h.plain.pinned h.plain.fresh).mono fun _ v hv =>
              ⟨_, c.pipe, hv, h.plain.tables, hlast⟩
        · rw [if_neg hino]
          exact ⟨_, c.pipe, h.closeFile (if_neg hino), h.plain.tables, hlast⟩
  · rw [if_neg hnot] at hmsg
    split at hmsg <;> cases hmsg

end Ready

end Xv6.Fs
