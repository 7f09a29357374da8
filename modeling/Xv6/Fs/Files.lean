import Xv6.Fs.Table

namespace Xv6.Fs

open Lib

-- The end of a pipe that an open file is.
def pipeEnd (fl : File) : Option (Nat × Bool) :=
  if fl.type = .pipe then some (fl.pipe, fl.writable) else none

def PipeEnds.isOpen (e : PipeEnds) (writable : Bool) : Bool :=
  if writable then e.writeopen else e.readopen

theorem PipeEnds.isOpen_close_self (e : PipeEnds) (w : Bool) : (e.close w).isOpen w = false := by
  cases w <;> rfl

theorem PipeEnds.isOpen_close_other (e : PipeEnds) {w v : Bool} (h : v ≠ w) :
    (e.close w).isOpen v = e.isOpen v := by
  cases w <;> cases v <;> first | rfl | exact absurd rfl h

-- Each open end of a pipe is one open file, and a page that is allocated to a pipe
-- has an open end.
structure Ends (ends : FileIdx → Option (Nat × Bool)) (pipe : Nat → Option PipeEnds) : Prop where
  page : ∀ f pa w, ends f = some (pa, w) → ∃ e, pipe pa = some e ∧ e.isOpen w = true
  sole : ∀ f g x, ends f = some x → ends g = some x → f = g
  opened : ∀ pa e w, pipe pa = some e → e.isOpen w = true → ∃ f, ends f = some (pa, w)
  kept : ∀ pa e, pipe pa = some e → ∃ w, e.isOpen w = true

-- The page of a pipe after one of its ends is closed.
def PipeEnds.page (e : PipeEnds) : Option PipeEnds :=
  if e.readopen = false ∧ e.writeopen = false then none else some e

theorem PipeEnds.page_eq_some {e e' : PipeEnds} (h : e.page = some e') :
    e' = e ∧ ∃ w, e.isOpen w = true := by
  unfold page at h
  split at h
  · cases h
  · rename_i hopen
    cases h
    refine ⟨rfl, ?_⟩
    by_cases hr : e.readopen = true
    · exact ⟨false, hr⟩
    · refine ⟨true, ?_⟩
      by_contra hw
      exact hopen ⟨by simpa using hr, by simpa [isOpen] using hw⟩

theorem PipeEnds.page_of_open {e : PipeEnds} {w : Bool} (h : e.isOpen w = true) :
    e.page = some e := by
  refine if_neg fun hclosed => ?_
  cases w
  · exact absurd h (by simp [isOpen, hclosed.1])
  · exact absurd h (by simp [isOpen, hclosed.2])

namespace Ends

variable {ends : FileIdx → Option (Nat × Bool)} {pipe : Nat → Option PipeEnds} {f rf wf : FileIdx}
  {pa : Nat} {w : Bool} {e : PipeEnds}

-- pipeclose() of the end that f was.
theorem close (h : Ends ends pipe) (hf : ends f = some (pa, w)) (he : pipe pa = some e) :
    Ends (Function.update ends f none) (Function.update pipe pa (e.close w).page) := by
  have hne : ∀ g x, Function.update ends f none g = some x → g ≠ f ∧ ends g = some x := by
    intro g x hg
    by_cases hgf : g = f
    · rw [hgf, Function.update_self] at hg
      cases hg
    · rw [Function.update_of_ne hgf] at hg
      exact ⟨hgf, hg⟩
  refine ⟨fun g pb v hg => ?_, fun g k x hg hk => ?_, fun pb e' v hpb hv => ?_, fun pb e' hpb => ?_⟩
  · obtain ⟨hgf, hg⟩ := hne g _ hg
    obtain ⟨e', he', hopen⟩ := h.page g pb v hg
    by_cases hpb : pb = pa
    · -- The other end of the pipe keeps the page.
      subst hpb
      have hvw : v ≠ w := fun hvw => hgf (h.sole g f (pb, w) (hvw ▸ hg) hf)
      rw [he] at he'
      cases he'
      have hopen' : (e.close w).isOpen v = true := by
        rw [e.isOpen_close_other hvw]
        exact hopen
      exact ⟨e.close w, by rw [Function.update_self, PipeEnds.page_of_open hopen'], hopen'⟩
    · exact ⟨e', by rw [Function.update_of_ne hpb, he'], hopen⟩
  · exact h.sole g k x (hne g x hg).2 (hne k x hk).2
  · have hfound : ∃ g, ends g = some (pb, v) ∧ (pb, v) ≠ (pa, w) := by
      by_cases hpa : pb = pa
      · subst hpa
        rw [Function.update_self] at hpb
        obtain ⟨rfl, -⟩ := PipeEnds.page_eq_some hpb
        have hvw : v ≠ w := fun hvw => by
          rw [hvw, e.isOpen_close_self] at hv
          cases hv
        rw [e.isOpen_close_other hvw] at hv
        obtain ⟨g, hg⟩ := h.opened pb e v he hv
        exact ⟨g, hg, fun heq => hvw (Prod.mk.inj heq).2⟩
      · rw [Function.update_of_ne hpa] at hpb
        obtain ⟨g, hg⟩ := h.opened pb e' v hpb hv
        exact ⟨g, hg, fun heq => hpa (Prod.mk.inj heq).1⟩
    obtain ⟨g, hg, hx⟩ := hfound
    have hgf : g ≠ f := fun hgf => by
      rw [hgf, hf] at hg
      exact hx (Option.some.inj hg).symm
    exact ⟨g, by rw [Function.update_of_ne hgf, hg]⟩
  · by_cases hpa : pb = pa
    · rw [hpa, Function.update_self] at hpb
      obtain ⟨rfl, hopen⟩ := PipeEnds.page_eq_some hpb
      exact hopen
    · rw [Function.update_of_ne hpa] at hpb
      exact h.kept pb e' hpb

-- pipealloc() of a page that is allocated to no pipe.
theorem create (h : Ends ends pipe) (hrf : ends rf = none) (hwf : ends wf = none)
    (hne : rf ≠ wf) (hpa : pipe pa = none) :
    Ends (Function.update (Function.update ends rf (some (pa, false))) wf (some (pa, true)))
      (Function.update pipe pa (some ⟨true, true⟩)) := by
  have hout : ∀ g v, ends g ≠ some (pa, v) := by
    intro g v hg
    obtain ⟨e, he, -⟩ := h.page g pa v hg
    rw [hpa] at he
    cases he
  -- A file is one of the two new ends, or what it was.
  have hcases : ∀ g pb v, Function.update (Function.update ends rf (some (pa, false))) wf
      (some (pa, true)) g = some (pb, v) →
      pb = pa ∧ g = (if v then wf else rf) ∨ pb ≠ pa ∧ ends g = some (pb, v) := by
    intro g pb v hg
    by_cases hgw : g = wf
    · rw [hgw, Function.update_self] at hg
      cases hg
      exact .inl ⟨rfl, hgw⟩
    · rw [Function.update_of_ne hgw] at hg
      by_cases hgr : g = rf
      · rw [hgr, Function.update_self] at hg
        cases hg
        exact .inl ⟨rfl, hgr⟩
      · rw [Function.update_of_ne hgr] at hg
        refine .inr ⟨fun hpb => ?_, hg⟩
        rw [hpb] at hg
        exact hout g v hg
  have hself : ∀ v, Function.update (Function.update ends rf (some (pa, false))) wf
      (some (pa, true)) (if v then wf else rf) = some (pa, v) := by
    intro v
    cases v
    · simp [hne]
    · simp
  refine ⟨fun g pb v hg => ?_, fun g k x hg hk => ?_, fun pb e v hpb hv => ?_, fun pb e hpb => ?_⟩
  · rcases hcases g pb v hg with ⟨rfl, -⟩ | ⟨hpb, hg⟩
    · exact ⟨⟨true, true⟩, Function.update_self .., by cases v <;> rfl⟩
    · obtain ⟨e, he, hopen⟩ := h.page g pb v hg
      exact ⟨e, by rw [Function.update_of_ne hpb, he], hopen⟩
  · obtain ⟨pb, v⟩ := x
    rcases hcases g pb v hg with ⟨hpb, hgv⟩ | ⟨hpb, hg⟩
    · rcases hcases k pb v hk with ⟨-, hkv⟩ | ⟨hpb', -⟩
      · rw [hgv, hkv]
      · exact absurd hpb hpb'
    · rcases hcases k pb v hk with ⟨hpb', -⟩ | ⟨-, hk⟩
      · exact absurd hpb' hpb
      · exact h.sole g k _ hg hk
  · by_cases hpb' : pb = pa
    · rw [hpb']
      exact ⟨_, hself v⟩
    · rw [Function.update_of_ne hpb'] at hpb
      obtain ⟨g, hg⟩ := h.opened pb e v hpb hv
      have hgr : g ≠ rf := fun hgr => by
        rw [hgr, hrf] at hg
        cases hg
      have hgw : g ≠ wf := fun hgw => by
        rw [hgw, hwf] at hg
        cases hg
      exact ⟨g, by rw [Function.update_of_ne hgw, Function.update_of_ne hgr, hg]⟩
  · by_cases hpb' : pb = pa
    · rw [hpb', Function.update_self] at hpb
      cases hpb
      exact ⟨true, rfl⟩
    · rw [Function.update_of_ne hpb'] at hpb
      exact h.kept pb e hpb

end Ends

theorem pipeEnd_update (file : FileIdx → File) (f : FileIdx) (fl : File) :
    (fun g => pipeEnd (Function.update file f fl g)) =
      Function.update (fun g => pipeEnd (file g)) f (pipeEnd fl) := by
  funext g
  by_cases hg : g = f
  · rw [hg, Function.update_self, Function.update_self]
  · rw [Function.update_of_ne hg, Function.update_of_ne hg]

-- The table of open files: the descriptors that refer to a file, and the references
-- that a call holds to a file for now.
structure Files (fds : Nat × Fd → Option FileIdx) (loose : List FileIdx) (file : FileIdx → File)
    (pipe : Nat → Option PipeEnds) : Prop where
  sparse : Sparse fds
  ref : ∀ f, (file f).ref = tally fds f + loose.count f
  closed : ∀ f, (file f).ref = 0 → (file f).type = .none
  readable : ∀ f, (file f).type = .pipe → (file f).readable = !(file f).writable
  ends : Ends (fun f => pipeEnd (file f)) pipe

namespace Files

variable {fds : Nat × Fd → Option FileIdx} {loose loose' : List FileIdx} {file : FileIdx → File}
  {pipe pipe' : Nat → Option PipeEnds} {f rf wf : FileIdx} {x : Nat × Fd} {pa : Nat}

theorem set (h : Files fds loose file pipe) {fl : File} (href : fl.ref = tally fds f + loose'.count f)
    (hother : ∀ g, g ≠ f → loose'.count g = loose.count g) (hclosed : fl.ref = 0 → fl.type = .none)
    (hreadable : fl.type = .pipe → fl.readable = !fl.writable)
    (hends : Ends (Function.update (fun g => pipeEnd (file g)) f (pipeEnd fl)) pipe') :
    Files fds loose' (Function.update file f fl) pipe' := by
  refine ⟨h.sparse, fun g => ?_, fun g => ?_, fun g => ?_, by rw [pipeEnd_update]; exact hends⟩
  · by_cases hg : g = f
    · rw [hg, Function.update_self]
      exact href
    · rw [Function.update_of_ne hg, hother g hg]
      exact h.ref g
  · by_cases hg : g = f
    · rw [hg, Function.update_self]
      exact hclosed
    · rw [Function.update_of_ne hg]
      exact h.closed g
  · by_cases hg : g = f
    · rw [hg, Function.update_self]
      exact hreadable
    · rw [Function.update_of_ne hg]
      exact h.readable g

theorem recount (h : Files fds loose file pipe) {fl : File}
    (href : fl.ref = tally fds f + loose'.count f)
    (hother : ∀ g, g ≠ f → loose'.count g = loose.count g) (hclosed : fl.ref = 0 → fl.type = .none)
    (hself : fl = { file f with ref := fl.ref, off := fl.off }) :
    Files fds loose' (Function.update file f fl) pipe := by
  have hend : pipeEnd fl = pipeEnd (file f) := by rw [hself]; rfl
  refine h.set href hother hclosed ?_ ?_
  · rw [hself]
    exact h.readable f
  · rw [hend, Function.update_eq_self]
    exact h.ends

theorem pos_of_fd (h : Files fds loose file pipe) (hx : fds x = some f) : 0 < (file f).ref := by
  have hpos := tally_pos h.sparse hx
  rw [h.ref]
  omega

theorem pos_of_loose (h : Files fds (f :: loose) file pipe) : 0 < (file f).ref := by
  rw [h.ref, List.count_cons_self]
  omega

theorem alloc (h : Files fds loose file pipe) (hf : (file f).ref = 0) :
    Files fds (f :: loose) (Function.update file f { file f with ref := 1 }) pipe := by
  have href := h.ref f
  refine h.recount ?_ (fun g hg => List.count_cons_of_ne hg.symm) (fun hzero => ?_) rfl
  · rw [List.count_cons_self]
    show (1 : Int) = _
    omega
  · cases hzero

theorem dup (h : Files fds loose file pipe) (hf : 0 < (file f).ref) :
    Files fds (f :: loose) (Function.update file f { file f with ref := (file f).ref + 1 }) pipe := by
  have href := h.ref f
  refine h.recount ?_ (fun g hg => List.count_cons_of_ne hg.symm) (fun hzero => ?_) rfl
  · rw [List.count_cons_self]
    show (file f).ref + 1 = _
    omega
  · have hzero : (file f).ref + 1 = 0 := hzero
    omega

theorem less (h : Files fds (f :: loose) file pipe) (hf : 1 < (file f).ref) :
    Files fds loose (Function.update file f { file f with ref := (file f).ref - 1 }) pipe := by
  have href := h.ref f
  rw [List.count_cons_self] at href
  refine h.recount ?_ (fun g hg => (List.count_cons_of_ne hg.symm).symm) (fun hzero => ?_) rfl
  · show (file f).ref - 1 = _
    omega
  · have hzero : (file f).ref - 1 = 0 := hzero
    omega

theorem last (h : Files fds (f :: loose) file pipe) (hf : (file f).ref = 1)
    (hends : Ends (Function.update (fun g => pipeEnd (file g)) f none) pipe') :
    Files fds loose (Function.update file f { file f with ref := 0, type := .none }) pipe' := by
  have href := h.ref f
  rw [List.count_cons_self] at href
  refine h.set ?_ (fun g hg => (List.count_cons_of_ne hg.symm).symm) (fun _ => rfl)
    (fun htype => by cases htype) hends
  show (0 : Int) = _
  omega

theorem last_plain (h : Files fds (f :: loose) file pipe) (hf : (file f).ref = 1)
    (htype : (file f).type ≠ .pipe) :
    Files fds loose (Function.update file f { file f with ref := 0, type := .none }) pipe := by
  refine h.last hf ?_
  have hend : pipeEnd (file f) = none := if_neg htype
  rw [← hend, Function.update_eq_self]
  exact h.ends

theorem last_pipe (h : Files fds (f :: loose) file pipe) (hf : (file f).ref = 1)
    (htype : (file f).type = .pipe) : ∃ e, pipe (file f).pipe = some e ∧
      Files fds loose (Function.update file f { file f with ref := 0, type := .none })
        (Function.update pipe (file f).pipe (e.close (file f).writable).page) := by
  have hend : pipeEnd (file f) = some ((file f).pipe, (file f).writable) := if_pos htype
  obtain ⟨e, he, -⟩ := h.ends.page f _ _ hend
  exact ⟨e, he, h.last hf (h.ends.close hend he)⟩

theorem install (h : Files fds (f :: loose) file pipe) (hx : fds x = none) :
    Files (Function.update fds x (some f)) loose file pipe := by
  refine ⟨h.sparse.update _ _, fun g => ?_, h.closed, h.readable, h.ends⟩
  have href := h.ref g
  have htally := tally_update h.sparse x (some f) g
  rw [hx, if_neg (fun heq => by cases heq)] at htally
  by_cases hg : g = f
  · rw [hg, List.count_cons_self] at href
    rw [hg, if_pos rfl] at htally
    rw [hg]
    omega
  · rw [List.count_cons_of_ne (Ne.symm hg)] at href
    rw [if_neg fun heq => hg (Option.some.inj heq).symm] at htally
    omega

theorem remove (h : Files fds loose file pipe) (hx : fds x = some f) :
    Files (Function.update fds x none) (f :: loose) file pipe := by
  refine ⟨h.sparse.update _ _, fun g => ?_, h.closed, h.readable, h.ends⟩
  have href := h.ref g
  have htally := tally_update h.sparse x none g
  have hnone : (none : Option FileIdx) ≠ some g := fun heq => by cases heq
  rw [if_neg hnone, hx] at htally
  by_cases hg : g = f
  · rw [hg, if_pos rfl] at htally
    rw [hg] at href
    rw [hg, List.count_cons_self]
    omega
  · rw [if_neg fun heq => hg (Option.some.inj heq).symm] at htally
    rw [List.count_cons_of_ne (Ne.symm hg)]
    omega

theorem become (h : Files fds loose file pipe) {fl : File} (hf : (file f).type = .none)
    (hpos : 0 < (file f).ref) (href : fl.ref = (file f).ref) (htype : fl.type ≠ .pipe) :
    Files fds loose (Function.update file f fl) pipe := by
  have hend : pipeEnd (file f) = none := if_neg (by rw [hf]; exact fun heq => by cases heq)
  have hend' : pipeEnd fl = none := if_neg htype
  refine h.set (by rw [href]; exact h.ref f) (fun _ _ => rfl) (fun hzero => ?_)
    (fun hpipe => absurd hpipe htype) ?_
  · omega
  · rw [hend', ← hend, Function.update_eq_self]
    exact h.ends

-- The two ends of a new pipe.
theorem pipes (h : Files fds loose file pipe) (hrf : (file rf).type = .none)
    (hwf : (file wf).type = .none) (hrpos : 0 < (file rf).ref) (hwpos : 0 < (file wf).ref)
    (hne : rf ≠ wf) (hpa : pipe pa = none) :
    Files fds loose
      (Function.update (Function.update file rf
        { file rf with type := .pipe, readable := true, writable := false, pipe := pa }) wf
        { file wf with type := .pipe, readable := false, writable := true, pipe := pa })
      (Function.update pipe pa (some ⟨true, true⟩)) := by
  have hnone : ∀ g, (file g).type = .none → pipeEnd (file g) = none := fun g hg =>
    if_neg (by rw [hg]; exact fun heq => by cases heq)
  refine ⟨h.sparse, fun g => ?_, fun g => ?_, fun g => ?_, ?_⟩
  · have href := h.ref g
    by_cases hgw : g = wf
    · rw [hgw, Function.update_self]
      exact hgw ▸ href
    · rw [Function.update_of_ne hgw]
      by_cases hgr : g = rf
      · rw [hgr, Function.update_self]
        exact hgr ▸ href
      · rw [Function.update_of_ne hgr]
        exact href
  · by_cases hgw : g = wf
    · rw [hgw, Function.update_self]
      exact fun hzero => absurd hzero hwpos.ne'
    · rw [Function.update_of_ne hgw]
      by_cases hgr : g = rf
      · rw [hgr, Function.update_self]
        exact fun hzero => absurd hzero hrpos.ne'
      · rw [Function.update_of_ne hgr]
        exact h.closed g
  · by_cases hgw : g = wf
    · rw [hgw, Function.update_self]
      exact fun _ => rfl
    · rw [Function.update_of_ne hgw]
      by_cases hgr : g = rf
      · rw [hgr, Function.update_self]
        exact fun _ => rfl
      · rw [Function.update_of_ne hgr]
        exact h.readable g
  · rw [pipeEnd_update, pipeEnd_update]
    exact h.ends.create (hnone rf hrf) (hnone wf hwf) hne hpa

end Files

end Xv6.Fs
