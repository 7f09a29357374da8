import Xv6.Bio.Ops

namespace Xv6.Bio

open Lib

variable {dev : Log.Dev} {p : Nat} {keep : Idx → Prop} {P : Sys → Prop} {s t : Sys}

theorem Sys.change_own {i : Idx} (hi : (s.buf i).holder = some p) (hv : (s.buf i).valid = true)
    (x : Block) : Own p i s ((s.setData i x).setDirty i true) := by
  refine ⟨hi, ?_, ?_, fun j hj => ?_, rfl, .inl rfl, rfl, rfl, rfl⟩
  · simpa [Sys.setData] using hv
  · simp [Sys.setData]
  · simp [Sys.setData, Sys.setBuf_other, Sys.setDirty, hj]
    rfl

theorem Inv.change (h : Inv dev s) {i : Idx} (hi : (s.buf i).holder = some p)
    (hv : (s.buf i).valid = true) (x : Block) : Inv dev ((s.setData i x).setDirty i true) := by
  have hown := Sys.change_own hi hv x
  refine ⟨hown.refs h.refs, ?_, hown.logOk h.logOk⟩
  have hdirty : ∀ j, ((s.setData i x).setDirty i true).dirty j = false →
      j ≠ i ∧ s.dirty j = false := by
    intro j hj
    have hji : j ≠ i := by
      rintro rfl
      simp [Sys.setDirty] at hj
    exact ⟨hji, (hown.other j hji).2 ▸ hj⟩
  have hdev : ∀ j, (((s.setData i x).setDirty i true).buf j).dev = (s.buf j).dev ∧
      (((s.setData i x).setDirty i true).buf j).blockno = (s.buf j).blockno ∧
      (((s.setData i x).setDirty i true).buf j).valid = (s.buf j).valid := by
    intro j
    by_cases hj : j = i
    · subst hj
      exact ⟨hown.self.1, hown.self.2.1, hown.valid.trans hv.symm⟩
    · rw [(hown.other j hj).1]
      exact ⟨rfl, rfl, rfl⟩
  refine ⟨fun j k hj hk hb => ?_, fun b hb => ?_, fun j hj hvj ha hd => ?_,
    fun j hj hvj ha hd => ?_, h.coherent.disk, fun j hd => ?_⟩
  · rw [(hdev j).1] at hj
    rw [(hdev k).1] at hk
    rw [(hdev j).2.1, (hdev k).2.1] at hb
    exact h.coherent.unique j k hj hk hb
  · obtain ⟨j, hj, hjb, hvj⟩ := h.coherent.cached b hb
    exact ⟨j, (hdev j).1.trans hj, (hdev j).2.1.trans hjb, (hdev j).2.2.trans hvj⟩
  · obtain ⟨hji, hd⟩ := hdirty j hd
    rw [(hown.other j hji).1] at hj hvj ha ⊢
    exact h.coherent.home j hj hvj ha hd
  · obtain ⟨hji, hd⟩ := hdirty j hd
    rw [(hown.other j hji).1] at hj hvj ha ⊢
    exact h.coherent.log j hj hvj ha hd
  · by_cases hji : j = i
    · rw [hji, hown.self.2.2.2, hi]
      simp
    · rw [(hown.other j hji).1]
      exact h.coherent.dirty j ((hown.other j hji).2 ▸ hd)

theorem Sys.flush_own {i : Idx} (hi : (s.buf i).holder = some p) (hv : (s.buf i).valid = true) :
    Own p i s (s.flush i) := by
  refine ⟨hi, hv, ⟨rfl, rfl, rfl, rfl⟩, fun j hj => ⟨rfl, ?_⟩, rfl, .inl rfl, rfl, rfl, rfl⟩
  simp [Sys.flush, Sys.setDirty, hj]

-- bwrite() of a block of the log, or of a block as its users see it.
theorem Inv.flush (h : Inv dev s) {i : Idx} (hi : (s.buf i).holder = some p)
    (hv : (s.buf i).valid = true)
    (hb : ¬ dev.area (s.buf i).blockno → (s.buf i).data = s.flat (s.buf i).blockno) :
    Inv dev (s.flush i) := by
  have hown := Sys.flush_own hi hv
  have hroot : (s.buf i).dev = ROOTDEV := h.refs.held i (by simp [hi])
  have hdisk : (s.flush i).disk = Function.update s.disk (s.buf i).blockno (s.buf i).data := rfl
  have hdirty : ∀ j, j ≠ i → (s.flush i).dirty j = s.dirty j := fun j hj => (hown.other j hj).2
  refine ⟨hown.refs h.refs, ⟨h.coherent.unique, h.coherent.cached, fun j hj hvj ha hd => ?_,
    fun j hj hvj ha hd => ?_, fun b hbb hp => ?_, fun j hd => ?_⟩, hown.logOk h.logOk⟩
  · by_cases hji : j = i
    · subst hji
      exact hb ha
    · exact h.coherent.home j hj hvj ha (hdirty j hji ▸ hd)
  · rw [hdisk]
    by_cases hji : j = i
    · subst hji
      exact (Function.update_self (f := s.disk) _ _).symm
    · have hne : (s.buf j).blockno ≠ (s.buf i).blockno := by
        intro he
        exact hji (h.coherent.unique j i hj hroot he)
      have hlog := h.coherent.log j hj hvj ha (hdirty j hji ▸ hd)
      exact hlog.trans (Function.update_of_ne hne _ _).symm
  · rw [hdisk]
    by_cases hbi : b = (s.buf i).blockno
    · subst hbi
      rw [Function.update_self]
      exact hb hbb
    · rw [Function.update_of_ne hbi]
      exact h.coherent.disk b hbb hp
  · by_cases hji : j = i
    · subst hji
      simp [Sys.flush, Sys.setDirty] at hd
    · exact h.coherent.dirty j (hdirty j hji ▸ hd)

theorem Sys.unpin_buf (s : Sys) (i j : Idx) : (s.unpin i).buf j =
    if j = i then { s.buf i with refcnt := (s.buf i).refcnt - 1 } else s.buf j := by
  simp [Sys.unpin, Sys.decref, Sys.setBuf_buf]

theorem Sys.unpin_pinned (s : Sys) (i : Idx) :
    (s.unpin i).pinned = Function.update s.pinned (s.buf i).blockno false := rfl

-- bunpin() of a block that install_trans() has written home.
theorem Inv.unpin (h : Inv dev s) {i : Idx} {b : Nat} (hi : Has p i b s)
    (hcom : s.log.committing = true) (hpin : s.pinned b = true) (hdisk : s.disk b = s.flat b) :
    Inv dev (s.unpin i) := by
  have hdata : ∀ j, ((s.unpin i).buf j).valid = (s.buf j).valid ∧
      ((s.unpin i).buf j).dev = (s.buf j).dev ∧
      ((s.unpin i).buf j).blockno = (s.buf j).blockno ∧
      ((s.unpin i).buf j).data = (s.buf j).data ∧
      ((s.unpin i).buf j).holder = (s.buf j).holder := by
    intro j
    rw [Sys.unpin_buf]
    split
    · rename_i he
      rw [he]
      exact ⟨rfl, rfl, rfl, rfl, rfl⟩
    · exact ⟨rfl, rfl, rfl, rfl, rfl⟩
  have hpinned : ∀ c, (s.unpin i).pinned c = true → s.pinned c = true := by
    intro c hc
    rw [Sys.unpin_pinned, Function.update_apply] at hc
    split at hc
    · cases hc
    · exact hc
  refine ⟨?_, ⟨fun j k hj hk hb => ?_, fun c hc => ?_, fun j hj hv ha hd => ?_,
    fun j hj hv ha hd => ?_, fun c hc hp => ?_, fun j hd => ?_⟩, ?_⟩
  · refine h.refs.one (t := s.unpin i) (i := i) (fun j hj => by rw [Sys.unpin_buf, if_neg hj])
      h.refs.listed (fun _ _ _ => ⟨Iff.rfl, id⟩) (fun j hj hroot => ?_) ?_ (fun _ => ?_)
      fun q hq => ?_
    · rw [Sys.unpin_pinned, Function.update_of_ne]
      intro he
      exact hj (h.coherent.unique j i hroot hi.root he)
    · obtain ⟨n, hn, hcount⟩ := h.refs.count i
      have hone : (if (s.buf i).dev = ROOTDEV ∧ s.pinned (s.buf i).blockno = true
          then (1 : Int) else 0) = 1 := if_pos ⟨hi.root, by rw [hi.block]; exact hpin⟩
      refine ⟨n, hn, ?_⟩
      rw [hone] at hcount
      rw [Sys.unpin_pinned, Sys.unpin_buf, if_pos rfl]
      simp only [hcount, Function.update_self, Bool.false_eq_true, and_false, if_false]
      omega
    · rw [(hdata i).2.1]
      exact hi.root
    · rw [(hdata i).2.2.2.2] at hq
      rw [(hdata i).1]
      exact h.refs.loaded q i hq
  · rw [(hdata j).2.1] at hj
    rw [(hdata k).2.1] at hk
    rw [(hdata j).2.2.1, (hdata k).2.2.1] at hb
    exact h.coherent.unique j k hj hk hb
  · obtain ⟨j, hj, hjb, hv⟩ := h.coherent.cached c (hpinned c hc)
    exact ⟨j, (hdata j).2.1.trans hj, (hdata j).2.2.1.trans hjb, (hdata j).1.trans hv⟩
  · obtain ⟨hv', hd', hb', hx, -⟩ := hdata j
    rw [hx, hb']
    exact h.coherent.home j (hd' ▸ hj) (hv' ▸ hv) (hb' ▸ ha) hd
  · obtain ⟨hv', hd', hb', hx, -⟩ := hdata j
    rw [hx, hb']
    exact h.coherent.log j (hd' ▸ hj) (hv' ▸ hv) (hb' ▸ ha) hd
  · by_cases hcb : c = b
    · exact hcb ▸ hdisk
    · rw [Sys.unpin_pinned, Function.update_of_ne (hi.block ▸ hcb)] at hp
      exact h.coherent.disk c hc hp
  · rw [(hdata j).2.2.2.2]
    exact h.coherent.dirty j hd
  · refine ⟨fun hc => ?_, fun c hc => h.logOk.listed c (hpinned c hc), h.logOk.nodup,
      h.logOk.home, h.logOk.short, h.logOk.quiet, h.logOk.committer⟩
    exact absurd (hcom.symm.trans hc) (by simp)

-- What the process in commit() knows of the log, the disk and the blocks as
-- their users see them.
def Com (p : Nat) (Q : Log.State → (Nat → Block) → (Nat → Block) → (Nat → Bool) → Prop)
    (s : Sys) : Prop :=
  s.committer = some p ∧ Q s.log s.disk s.flat s.pinned

theorem local_com (Q : Log.State → (Nat → Block) → (Nat → Block) → (Nat → Bool) → Prop) :
    Local p (fun _ => False) (Com p Q) := by
  rintro s t hf ⟨hc, hQ⟩
  obtain ⟨hcom, hlog, hdisk, hflat, hpinned⟩ := hf.commit hc
  exact ⟨hcom.trans hc, by rw [hlog, hdisk, hflat, hpinned]; exact hQ⟩

-- A buffer that p has given new data, of which D holds.
structure Filled (p : Nat) (i : Idx) (c : Nat) (D : (Nat → Block) → Block → Prop) (s : Sys) :
    Prop where
  holder : (s.buf i).holder = some p
  root : (s.buf i).dev = ROOTDEV
  block : (s.buf i).blockno = c
  valid : (s.buf i).valid = true
  data : D s.flat (s.buf i).data

theorem local_filled (Q : Log.State → (Nat → Block) → (Nat → Block) → (Nat → Bool) → Prop)
    (i : Idx) (c : Nat) (D : (Nat → Block) → Block → Prop) :
    Local p (· = i) fun s => Com p Q s ∧ Filled p i c D s := by
  rintro s t hf ⟨hcom, hi⟩
  refine ⟨local_com Q s t (hf.mono fun _ h => h.elim) hcom, ?_⟩
  obtain ⟨⟨hv, hd, hb, hx, hh⟩, -⟩ := hf.held i rfl hi.holder
  obtain ⟨-, -, -, hflat, -⟩ := hf.commit hcom.1
  exact ⟨hh.trans hi.holder, hd.trans hi.root, hb.trans hi.block, hv.trans hi.valid, by
    rw [hx, hflat]
    exact hi.data⟩

theorem Own.has {i j : Idx} {b : Nat} (h : Own p i s t) (hji : j ≠ i) (hj : Has p j b s) :
    Has p j b t := by
  obtain ⟨hbuf, hdirty⟩ := h.other j hji
  refine ⟨⟨?_, ?_, ?_, hdirty.trans hj.clean⟩, ?_⟩
  all_goals rw [hbuf]
  · exact hj.holder
  · exact hj.root
  · exact hj.block
  · exact hj.valid

variable {Q S : Log.State → (Nat → Block) → (Nat → Block) → (Nat → Bool) → Prop}
  {D : (Nat → Block) → Block → Prop}

theorem change_triple (hP : Local p keep P) {i : Idx} {c : Nat} {f : Sys → Block}
    (hf : ∀ s, Inv dev s → P s → Has p i c s → D s.flat (f s))
    (hkeep : ∀ s t, Own p i s t → P s → P t) :
    (rely dev).Triple p (fun s => (P s ∧ Com p Q s ∧ Has p i c s) ∧ s.pending p = .none)
      (change i f)
      (fun _ s => (P s ∧ Com p Q s ∧ Filled p i c D s) ∧ s.pending p = .none) := by
  refine Rely.Triple.modify
    ((hP.and ((local_com Q).and (local_has i c))).stable.and (stable_pending .none))
    ((hP.and (local_filled Q i c D)).stable.and (stable_pending .none)) ?_
  rintro s hs ⟨⟨hPs, hcom, hi⟩, hnone⟩ -
  have hown := Sys.change_own hi.holder hi.valid (f s)
  obtain ⟨hd, hbl, -, hh⟩ := hown.self
  refine ⟨hs.change hi.holder hi.valid _, hown.guar rfl rfl fun _ _ _ => rfl,
    ⟨hkeep _ _ hown hPs, hcom, ?_⟩, hnone⟩
  refine ⟨hh.trans hi.holder, hd.trans hi.root, hbl.trans hi.block, hown.valid, ?_⟩
  simp only [Sys.setDirty_buf, Sys.setData, Sys.setBuf_self]
  exact hf s hs hPs hi

theorem Sys.flush_has {i : Idx} {c : Nat} (h : Filled p i c D s) : Has p i c (s.flush i) :=
  ⟨⟨h.holder, h.root, h.block, by simp [Sys.flush, Sys.setDirty]⟩, h.valid⟩

-- bwrite() of a block of the log, or of a block as its users see it.
theorem bwrite_triple (hP : Local p keep P) {i : Idx} {c : Nat}
    (hc : dev.area c ∨ ∀ flat x, D flat x → x = flat c)
    (hQ : ∀ log disk flat pinned x, D flat x → Q log disk flat pinned →
      S log (Function.update disk c x) flat pinned)
    (hkeep : ∀ s t, Own p i s t → P s → P t) :
    (rely dev).Triple p (fun s => (P s ∧ Com p Q s ∧ Filled p i c D s) ∧ s.pending p = .none)
      (bwrite p i)
      (fun _ s => (P s ∧ Com p S s ∧ Has p i c s) ∧ s.pending p = .none) := by
  refine Rely.Triple.atomic
    ((hP.and (local_filled Q i c D)).stable.and (stable_pending .none))
    (fun _ => (hP.and ((local_com S).and (local_has i c))).stable.and (stable_pending .none)) ?_
  rintro s hs ⟨⟨hPs, ⟨hcom, hQs⟩, hi⟩, hnone⟩ -
  have hown := Sys.flush_own hi.holder hi.valid
  simp only [hi.holder, if_true]
  refine ⟨hs.flush hi.holder hi.valid fun ha => ?_, hown.guar rfl rfl fun q hq hq' => ?_,
    fun _ _ => ⟨⟨hkeep _ _ hown hPs, ⟨hcom, ?_⟩, Sys.flush_has hi⟩, hnone⟩⟩
  · rw [hi.block] at ha ⊢
    rcases hc with hc | hc
    · exact absurd hc ha
    · exact hc _ _ hi.data
  · exact absurd (Option.some.inj (hq'.symm.trans hcom)) hq
  · have hdisk : (s.flush i).disk = Function.update s.disk c (s.buf i).data := by
      rw [← hi.block]
      rfl
    rw [hdisk]
    exact hQ _ _ _ _ _ hi.data hQs

-- write_log() has written the first k blocks.
def Logging (dev : Log.Dev) (lh : List Nat) (k : Nat) (log : Log.State) (disk flat : Nat → Block)
    (pinned : Nat → Bool) : Prop :=
  log.lh = lh ∧ (∀ b, b ∈ lh → pinned b = true) ∧
    ∀ j b : Nat, j < k → lh[j]? = some b → disk (dev.start + j + 1) = flat b

theorem Logging.step {lh : List Nat} {k b : Nat} (hb : lh[k]? = some b) {log : Log.State}
    {disk flat : Nat → Block} {pinned : Nat → Bool} (h : Logging dev lh k log disk flat pinned) :
    Logging dev lh (k + 1) log (Function.update disk (dev.start + k + 1) (flat b)) flat pinned := by
  refine ⟨h.1, h.2.1, fun j c hj hc => ?_⟩
  by_cases hjk : j = k
  · subst hjk
    rw [hb] at hc
    cases hc
    rw [Function.update_self]
  · rw [Function.update_of_ne (by omega)]
    exact h.2.2 j c (by omega) hc

theorem bread_two_triple {c b : Nat} {f : Idx → Idx → Prog Sys Label Unit}
    {post : Unit → Sys → Prop}
    (h : ∀ i j, j ≠ i → (rely dev).Triple p
      (fun s => ((Com p Q s ∧ Has p i c s) ∧ Has p j b s) ∧ s.pending p = .none) (f i j) post) :
    (rely dev).Triple p (fun s => Com p Q s ∧ s.pending p = .none)
      (do let i ← bread p ROOTDEV c; let j ← bread p ROOTDEV b; f i j) post := by
  refine Rely.Triple.bind (bread_triple (local_com Q) (fun _ _ _ hk => hk.elim) c) fun i => ?_
  have hkeep : ∀ s k, (Com p Q s ∧ Has p i c s) → (False ∨ k = i) →
      (s.buf k).holder = some p := by
    rintro s k ⟨-, hi⟩ (hk | rfl)
    · exact hk.elim
    · exact hi.holder
  refine Rely.Triple.bind (Rely.Triple.weaken
    (bread_triple ((local_com Q).and (local_has i c)) hkeep b)
    (fun s _ hpre => ⟨hpre.1, hpre.2.1⟩) fun _ _ _ hpost => hpost) fun j => ?_
  refine Rely.Triple.weaken (Rely.Triple.of_and (h i j))
    (fun s _ hpre => ⟨⟨hpre.1, hpre.2.1⟩, fun he => hpre.2.2 (.inr he)⟩) fun _ _ _ hpost => hpost

theorem brelse_two_triple {i j : Idx} {c b : Nat} (hij : i ≠ j) :
    (rely dev).Triple p
      (fun s => ((Com p Q s ∧ Has p i c s) ∧ Has p j b s) ∧ s.pending p = .none)
      (do brelse p i; brelse p j) (fun _ s => Com p Q s ∧ s.pending p = .none) := by
  refine Rely.Triple.bind (Rely.Triple.weaken
    (brelse_triple ((local_com Q).and (local_has j b)) (i := i) ?_ c)
    (fun s _ hpre => ⟨⟨⟨hpre.1.1.1, hpre.1.2⟩, hpre.1.1.2.toHolds⟩, hpre.2⟩)
    fun _ _ _ hpost => hpost) fun _ => ?_
  · rintro (hk | hk)
    · exact hk
    · exact hij hk
  · exact Rely.Triple.weaken (brelse_triple (local_com Q) (i := j) (fun hk => hk) b)
      (fun s _ hpre => ⟨⟨hpre.1.1, hpre.1.2.toHolds⟩, hpre.2⟩) fun _ _ _ hpost => hpost

theorem slot_area {lh : List Nat} (hlen : lh.length < dev.size) {k b : Nat}
    (hb : lh[k]? = some b) : dev.area (dev.start + k + 1) := by
  obtain ⟨hk, -⟩ := List.getElem?_eq_some_iff.mp hb
  exact ⟨by omega, by omega⟩

theorem writeLog_triple {lh : List Nat} (hlen : lh.length < dev.size)
    (hhome : ∀ b, b ∈ lh → ¬ dev.area b) (rest : List Nat) :
    ∀ done, lh = done ++ rest → (rely dev).Triple p
      (fun s => Com p (Logging dev lh done.length) s ∧ s.pending p = .none)
      (writeLog p dev done.length rest)
      (fun _ s => Com p (Logging dev lh lh.length) s ∧ s.pending p = .none) := by
  induction rest with
  | nil =>
    intro done hd
    rw [List.append_nil] at hd
    subst hd
    exact Rely.Triple.ret (Q := fun _ s => Com p (Logging dev lh lh.length) s ∧
      s.pending p = .none) ((local_com _).stable.and (stable_pending .none))
  | cons b rest ih =>
    intro done hd
    have hb : lh[done.length]? = some b := by simp [hd]
    refine bread_two_triple fun dst src hne => ?_
    have hkeep : ∀ s t, Own p dst s t → Has p src b s → Has p src b t :=
      fun _ _ hown hsrc => hown.has hne hsrc
    refine Rely.Triple.bind (Rely.Triple.weaken
      (change_triple (D := fun flat x => x = flat b) (local_has src b) ?_ hkeep)
      (fun s _ hpre => ⟨⟨hpre.1.2, hpre.1.1⟩, hpre.2⟩) fun _ _ _ hpost => hpost) fun _ => ?_
    · exact fun s hs hsrc _ => hs.data_of_has hsrc (hhome b (by simp [hd]))
    refine Rely.Triple.bind (bwrite_triple (local_has src b) (.inl (slot_area hlen hb))
      (fun _ _ _ _ _ hx hQ => hx ▸ Logging.step hb hQ) hkeep) fun _ => ?_
    have hnext := ih (done ++ [b]) (by simp [hd])
    rw [List.length_append, List.length_singleton] at hnext
    have hrel := Rely.Triple.bind (brelse_two_triple (Q := Logging dev lh (done.length + 1))
      (c := b) (b := dev.start + done.length + 1) hne) fun _ => hnext
    rw [Prog.bind_assoc] at hrel
    exact Rely.Triple.weaken hrel
      (fun s _ hpre => ⟨⟨⟨hpre.1.2.1, hpre.1.1⟩, hpre.1.2.2⟩, hpre.2⟩) fun _ _ _ hpost => hpost

theorem local_true : Local p (fun _ => False) fun _ => True := fun _ _ _ _ => trivial

theorem writeHead_triple (hsize : 0 < dev.size)
    (hQ : ∀ log disk flat pinned x, Q log disk flat pinned →
      Q log (Function.update disk dev.start x) flat pinned) :
    (rely dev).Triple p (fun s => Com p Q s ∧ s.pending p = .none) (writeHead p dev)
      (fun _ s => Com p Q s ∧ s.pending p = .none) := by
  have harea : dev.area dev.start := ⟨le_refl _, by omega⟩
  refine Rely.Triple.bind (bread_triple (local_com Q) (fun _ _ _ hk => hk.elim) dev.start)
    fun i => ?_
  refine Rely.Triple.bind (Rely.Triple.weaken
    (change_triple (D := fun _ _ => True) (i := i) (c := dev.start) local_true
      (fun _ _ _ _ => trivial) fun _ _ _ h => h)
    (fun s _ hpre => ⟨⟨trivial, hpre.1⟩, hpre.2.1⟩) fun _ _ _ hpost => hpost) fun _ => ?_
  refine Rely.Triple.bind (bwrite_triple local_true (.inl harea)
    (fun _ _ _ _ x _ h => hQ _ _ _ _ x h) fun _ _ _ h => h) fun _ => ?_
  exact Rely.Triple.weaken (brelse_triple (local_com Q) (i := i) (fun hk => hk) dev.start)
    (fun s _ hpre => ⟨⟨hpre.1.2.1, hpre.1.2.2.toHolds⟩, hpre.2⟩) fun _ _ _ hpost => hpost

-- install_trans() has the blocks from the k-th on still to install.
def Installing (dev : Log.Dev) (lh : List Nat) (k : Nat) (log : Log.State)
    (disk flat : Nat → Block) (pinned : Nat → Bool) : Prop :=
  log.lh = lh ∧ (∀ b, pinned b = true ↔ b ∈ lh.drop k) ∧
    ∀ j b : Nat, lh[j]? = some b → disk (dev.start + j + 1) = flat b

theorem Installing.write {lh : List Nat} (hlen : lh.length < dev.size) {k b : Nat}
    (hb : ¬ dev.area b) {log : Log.State} {disk flat : Nat → Block} {pinned : Nat → Bool}
    (h : Installing dev lh k log disk flat pinned) :
    Installing dev lh k log (Function.update disk b (flat b)) flat pinned := by
  refine ⟨h.1, h.2.1, fun j c hc => ?_⟩
  have hne : dev.start + j + 1 ≠ b := by
    rintro rfl
    exact hb (slot_area hlen hc)
  rw [Function.update_of_ne hne]
  exact h.2.2 j c hc

theorem Installing.unpin {lh : List Nat} (hnodup : lh.Nodup) {k b : Nat} (hb : lh[k]? = some b)
    {log : Log.State} {disk flat : Nat → Block} {pinned : Nat → Bool}
    (h : Installing dev lh k log disk flat pinned) :
    Installing dev lh (k + 1) log disk flat (Function.update pinned b false) := by
  have hdrop : lh.drop k = b :: lh.drop (k + 1) := by
    obtain ⟨hk, rfl⟩ := List.getElem?_eq_some_iff.mp hb
    exact List.drop_eq_getElem_cons hk
  have hnot : b ∉ lh.drop (k + 1) := by
    have hn := hnodup.sublist (List.drop_sublist k lh)
    rw [hdrop] at hn
    exact (List.nodup_cons.mp hn).1
  refine ⟨h.1, fun c => ?_, h.2.2⟩
  by_cases hc : c = b
  · subst hc
    simp [hnot]
  · rw [Function.update_of_ne hc, h.2.1 c, hdrop]
    simp [hc]

theorem restore_triple {lh : List Nat} (hlen : lh.length < dev.size) {k b : Nat}
    (hk : lh[k]? = some b) (hb : ¬ dev.area b) {lbuf dbuf : Idx} :
    (rely dev).Triple p (fun s => ((Com p (Installing dev lh k) s ∧
        Has p lbuf (dev.start + k + 1) s) ∧ Has p dbuf b s) ∧ s.pending p = .none)
      (restore dbuf lbuf)
      (fun _ s => (Has p lbuf (dev.start + k + 1) s ∧ Com p (Installing dev lh k) s ∧
        Filled p dbuf b (fun flat x => x = flat b) s) ∧ s.pending p = .none) := by
  refine Rely.Triple.modify
    ((((local_com _).and (local_has lbuf _)).and (local_has dbuf b)).stable.and
      (stable_pending .none))
    (((local_has lbuf _).and (local_filled _ dbuf b _)).stable.and (stable_pending .none)) ?_
  rintro s hs ⟨⟨⟨hcom, hl⟩, hd⟩, hnone⟩ -
  have hdata := hs.data_of_has hd hb
  have hlog : (s.buf lbuf).data = s.flat b := by
    have harea := hl.block.symm ▸ slot_area hlen hk
    rw [hs.coherent.log lbuf hl.root hl.valid harea hl.clean, hl.block]
    exact hcom.2.2.2 k b hk
  have hsame : s.setData dbuf (s.buf lbuf).data = s := by
    rw [hlog, ← hdata, Sys.setData, Sys.setBuf, Function.update_eq_self]
  simp only [hsame]
  exact ⟨hs, .refl rfl,
    ⟨hl, hcom, ⟨hd.holder, hd.root, hd.block, hd.valid, hdata⟩⟩, hnone⟩

theorem Sys.unpin_has {i j : Idx} {b : Nat} (h : Has p j b s) : Has p j b (s.unpin i) := by
  have hbuf : ((s.unpin i).buf j).Same (s.buf j) := by
    rw [Sys.unpin_buf]
    split
    · rename_i he
      rw [he]
      exact ⟨rfl, rfl, rfl, rfl, rfl⟩
    · exact .refl _
  obtain ⟨hv, hd, hb, -, hh⟩ := hbuf
  exact ⟨⟨hh.trans h.holder, hd.trans h.root, hb.trans h.block, h.clean⟩, hv.trans h.valid⟩

theorem bunpin_triple {lh : List Nat} (hnodup : lh.Nodup) {k b c : Nat} (hk : lh[k]? = some b)
    {lbuf dbuf : Idx} :
    (rely dev).Triple p (fun s => (Has p lbuf c s ∧ Com p (fun log disk flat pinned =>
        Installing dev lh k log disk flat pinned ∧ disk b = flat b) s ∧ Has p dbuf b s) ∧
        s.pending p = .none)
      (bunpin dbuf)
      (fun _ s => ((Com p (Installing dev lh (k + 1)) s ∧ Has p lbuf c s) ∧ Has p dbuf b s) ∧
        s.pending p = .none) := by
  refine Rely.Triple.modify
    (((local_has lbuf c).and ((local_com _).and (local_has dbuf b))).stable.and
      (stable_pending .none))
    ((((local_com _).and (local_has lbuf c)).and (local_has dbuf b)).stable.and
      (stable_pending .none)) ?_
  rintro s hs ⟨⟨hl, ⟨hcom, hQ, hdisk⟩, hd⟩, hnone⟩ -
  have hpin : s.pinned b = true := by
    obtain ⟨hlt, rfl⟩ := List.getElem?_eq_some_iff.mp hk
    refine (hQ.2.1 _).mpr ?_
    rw [List.drop_eq_getElem_cons hlt]
    exact List.mem_cons_self
  have hcommitting := hs.logOk.committer.mpr (by simp [hcom])
  have hsame : ∀ j, ((s.unpin dbuf).buf j).Same (s.buf j) := by
    intro j
    rw [Sys.unpin_buf]
    split
    · rename_i he
      rw [he]
      exact ⟨rfl, rfl, rfl, rfl, rfl⟩
    · exact .refl _
  refine ⟨hs.unpin hd hcommitting hpin hdisk, ?_, ⟨⟨⟨hcom, ?_⟩, Sys.unpin_has hl⟩,
    Sys.unpin_has hd⟩, hnone⟩
  · refine ⟨fun q hq => ⟨fun j _ _ => ⟨hsame j, rfl⟩, fun hq' => ?_⟩, fun _ _ => rfl,
      fun q j _ _ => ⟨(hsame j).2.1, (hsame j).2.2.1⟩, fun _ _ he => (by cases he), rfl, rfl⟩
    exact absurd (Option.some.inj (hq'.symm.trans hcom)) hq
  · rw [Sys.unpin_pinned, hd.block]
    exact hQ.unpin hnodup hk

theorem installTrans_triple {lh : List Nat} (hlen : lh.length < dev.size) (hnodup : lh.Nodup)
    (hhome : ∀ b, b ∈ lh → ¬ dev.area b) (rest : List Nat) :
    ∀ done, lh = done ++ rest → (rely dev).Triple p
      (fun s => Com p (Installing dev lh done.length) s ∧ s.pending p = .none)
      (installTrans p dev done.length rest)
      (fun _ s => Com p (Installing dev lh lh.length) s ∧ s.pending p = .none) := by
  induction rest with
  | nil =>
    intro done hd
    rw [List.append_nil] at hd
    subst hd
    exact Rely.Triple.ret (Q := fun _ s => Com p (Installing dev lh lh.length) s ∧
      s.pending p = .none) ((local_com _).stable.and (stable_pending .none))
  | cons b rest ih =>
    intro done hd
    have hb : lh[done.length]? = some b := by simp [hd]
    have harea := hhome b (by simp [hd])
    refine bread_two_triple fun lbuf dbuf hne => ?_
    refine Rely.Triple.bind (restore_triple hlen hb harea) fun _ => ?_
    refine Rely.Triple.bind (bwrite_triple (local_has lbuf _) (.inr fun _ _ hx => hx)
      (S := fun log disk flat pinned =>
        Installing dev lh done.length log disk flat pinned ∧ disk b = flat b)
      (fun _ _ _ _ x hx hQ => ?_) fun _ _ hown hl => hown.has (Ne.symm hne) hl) fun _ => ?_
    · subst hx
      exact ⟨hQ.write hlen harea, Function.update_self _ _ _⟩
    refine Rely.Triple.bind (bunpin_triple hnodup hb) fun _ => ?_
    have hnext := ih (done ++ [b]) (by simp [hd])
    rw [List.length_append, List.length_singleton] at hnext
    have hrel := Rely.Triple.bind (brelse_two_triple (Q := Installing dev lh (done.length + 1))
      (c := dev.start + done.length + 1) (b := b) (Ne.symm hne)) fun _ => hnext
    rw [Prog.bind_assoc] at hrel
    exact hrel

theorem Inv.setLog (h : Inv dev s) {log : Log.State} (com : Option Nat)
    (hl : LogOk dev { s with log := log, committer := com }) :
    Inv dev { s with log := log, committer := com } :=
  ⟨⟨h.refs.listed, h.refs.count, h.refs.held, h.refs.waits, h.refs.loaded⟩,
    ⟨h.coherent.unique, h.coherent.cached, h.coherent.home, h.coherent.log, h.coherent.disk,
      h.coherent.dirty⟩, hl⟩

theorem Guar.setLog {lbl : Label} (hlbl : lbl.hidden = true) {log : Log.State}
    {com : Option Nat} (hcom : ∀ q, q ≠ p → s.committer ≠ some q) :
    Guar dev p lbl s { s with log := log, committer := com } where
  frame q hq := ⟨fun _ _ _ => ⟨.refl _, rfl⟩, fun hq' => absurd hq' (hcom q hq)⟩
  pending _ _ := rfl
  waits _ _ _ _ := ⟨rfl, rfl⟩
  bread b i he := by
    subst he
    cases hlbl
  flat := (flatAfter_hidden hlbl).symm
  pinned := (pinnedAfter_hidden hlbl).symm

theorem not_other {q : Nat} (hcom : s.committer = some p) (hq : q ≠ p) : s.committer ≠ some q :=
  fun hq' => hq (Option.some.inj (hq'.symm.trans hcom))

theorem clearHead_triple {lh : List Nat} :
    (rely dev).Triple p (fun s => Com p (Installing dev lh lh.length) s ∧ s.pending p = .none)
      clearHead (fun _ s => Com p (fun log _ _ _ => log.lh = []) s ∧ s.pending p = .none) := by
  refine Rely.Triple.modify ((local_com _).stable.and (stable_pending .none))
    ((local_com _).stable.and (stable_pending .none)) ?_
  rintro s hs ⟨⟨hcom, hQ⟩, hnone⟩ -
  have hfree : ∀ b, s.pinned b ≠ true := by
    intro b hb
    simpa using (hQ.2.1 b).mp hb
  refine ⟨hs.setLog s.committer ?_, .setLog rfl fun q hq => not_other hcom hq,
    ⟨hcom, rfl⟩, hnone⟩
  refine ⟨fun _ b hb => ?_, fun b hb => absurd hb (hfree b), List.nodup_nil, fun b hb => ?_,
    fun h => absurd rfl h, hs.logOk.quiet, hs.logOk.committer⟩
  · cases hb
  · cases hb

theorem writeHead_clear_triple (hsize : 0 < dev.size) :
    (rely dev).Triple p
      (fun s => Com p (fun log _ _ _ => log.lh = []) s ∧ s.pending p = .none) (writeHead p dev)
      (fun _ s => Com p (fun log _ _ _ => log.lh = []) s ∧ s.pending p = .none) :=
  writeHead_triple hsize fun _ _ _ _ _ h => h

theorem writeHead_log_triple {lh : List Nat} (hsize : 0 < dev.size) :
    (rely dev).Triple p
      (fun s => Com p (Logging dev lh lh.length) s ∧ s.pending p = .none) (writeHead p dev)
      (fun _ s => Com p (Logging dev lh lh.length) s ∧ s.pending p = .none) := by
  refine writeHead_triple hsize fun log disk flat pinned x h => ⟨h.1, h.2.1, fun j b hj hb => ?_⟩
  rw [Function.update_of_ne (by omega)]
  exact h.2.2 j b hj hb

-- commit() from the moment end_op() has set log.committing.
theorem commit_triple :
    (rely dev).Triple p (fun s => Com p (fun log _ _ pinned =>
        ∀ b, b ∈ log.lh → pinned b = true) s ∧ s.pending p = .none)
      (commit p dev) (fun _ s => Com p (fun log _ _ _ => log.lh = []) s ∧ s.pending p = .none) := by
  refine Rely.Triple.bind (M := fun lh s => (Com p (Logging dev lh 0) s ∧ s.pending p = .none) ∧
    (lh ≠ [] → lh.length < dev.size) ∧ lh.Nodup ∧ ∀ b, b ∈ lh → ¬ dev.area b) ?_ fun lh => ?_
  · refine Rely.Triple.act ((local_com _).stable.and (stable_pending .none)) ?_
    rintro s t hs ⟨⟨hcom, hpin⟩, hnone⟩ - ht
    cases ht
    refine ⟨hs, .refl rfl, fun hi => ?_⟩
    refine Rely.Triple.ret (Q := fun lh s => (Com p (Logging dev lh 0) s ∧ s.pending p = .none) ∧
      (lh ≠ [] → lh.length < dev.size) ∧ lh.Nodup ∧ ∀ b, b ∈ lh → ¬ dev.area b) ?_ s hi ?_
    · exact ((local_com _).stable.and (stable_pending .none)).and fun _ _ _ _ _ h => h
    · exact ⟨⟨⟨hcom, rfl, hpin, fun j b hj => absurd hj (by omega)⟩, hnone⟩, hs.logOk.short,
        hs.logOk.nodup, hs.logOk.home⟩
  refine Rely.Triple.of_and fun hlh => ?_
  obtain ⟨hshort, hnodup, hhome⟩ := hlh
  by_cases hempty : lh = []
  · subst hempty
    refine Rely.Triple.weaken (Rely.Triple.ret (Q := fun _ s =>
      Com p (fun log _ _ _ => log.lh = []) s ∧ s.pending p = .none)
      ((local_com _).stable.and (stable_pending .none)))
      (fun s _ hpre => ⟨⟨hpre.1.1, hpre.1.2.1⟩, hpre.2⟩) fun _ _ _ hpost => hpost
  · have hpos : 0 < lh.length := List.length_pos_iff.mpr hempty
    have hlen := hshort hempty
    rw [if_pos hpos]
    refine Rely.Triple.bind (writeLog_triple hlen hhome lh [] rfl) fun _ => ?_
    refine Rely.Triple.bind (writeHead_log_triple (by omega)) fun _ => ?_
    refine Rely.Triple.bind (Rely.Triple.weaken
      (installTrans_triple hlen hnodup hhome lh [] rfl) (fun s hs hpre => ?_)
      fun _ _ _ hpost => hpost) fun _ => ?_
    · obtain ⟨⟨hcom, hlog, hpin, hw⟩, hnone⟩ := hpre
      refine ⟨⟨hcom, hlog, fun b => ⟨fun hb => ?_, fun hb => hpin b hb⟩, fun j b hb => ?_⟩, hnone⟩
      · exact hlog ▸ hs.logOk.listed b hb
      · exact hw j b (List.getElem?_eq_some_iff.mp hb).1 hb
    refine Rely.Triple.bind clearHead_triple fun _ => ?_
    exact writeHead_clear_triple (by omega)

end Xv6.Bio
