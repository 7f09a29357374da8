import Xv6.Bio.Commit
import Xv6.Log.GroupCommit

namespace Xv6.Bio

open Lib

variable {dev : Log.Dev} {p : Nat} {s t : Sys}

-- A process between two calls.
def Idle (p : Nat) (s : Sys) : Prop := s.pending p = .none

theorem stable_idle : (rely dev).Stable p (Idle p) := stable_pending .none

theorem LogOk.not_committing (h : LogOk dev s) (hc : s.log.committing = false) :
    s.committer = none := by
  grind [committer]

theorem beginOp_triple : (rely dev).Triple p (Idle p) beginOp fun _ => Idle p := by
  refine Rely.Triple.act stable_idle ?_
  rintro s t hs hidle - ht
  split at ht
  · rename_i hadmits
    cases ht
    have hcom : s.log.committing = false := by
      grind [Log.State.admits]
    have hnone := hs.logOk.not_committing hcom
    refine ⟨hs.setLog s.committer ?_, .setLog rfl fun q _ => by simp [hnone], fun hi => ?_⟩
    · exact ⟨hs.logOk.pinned, hs.logOk.listed, hs.logOk.nodup, hs.logOk.home, hs.logOk.short,
        fun h => absurd (hcom.symm.trans h) (by simp), hs.logOk.committer⟩
    · exact Rely.Triple.ret stable_idle _ hi hidle
  · cases ht

theorem finish_triple :
    (rely dev).Triple p (fun s => Com p (fun log _ _ _ => log.lh = []) s ∧ s.pending p = .none)
      (.modify .commit fun s =>
        { s with log := { s.log with committing := false }, committer := none })
      fun _ => Idle p := by
  refine Rely.Triple.modify ((local_com _).stable.and (stable_pending .none)) stable_idle ?_
  rintro s hs ⟨⟨hcom, hlh⟩, hnone⟩ -
  refine ⟨hs.setLog none ?_, .setLog rfl fun q hq => not_other hcom hq, hnone⟩
  refine ⟨fun _ b hb => ?_, hs.logOk.listed, hs.logOk.nodup, hs.logOk.home, hs.logOk.short,
    fun h => (by cases h), by simp⟩
  rw [hlh] at hb
  cases hb

theorem endOp_triple : (rely dev).Triple p (Idle p) (endOp p dev) fun _ => Idle p := by
  refine Rely.Triple.bind (M := fun doCommit s => (doCommit = true → Com p (fun log _ _ pinned =>
    ∀ b, b ∈ log.lh → pinned b = true) s) ∧ s.pending p = .none) ?_ fun doCommit => ?_
  · have hst : ∀ doCommit : Bool, (rely dev).Stable p fun s => (doCommit = true →
        Com p (fun log _ _ pinned => ∀ b, b ∈ log.lh → pinned b = true) s) ∧
        s.pending p = .none := by
      intro doCommit
      refine Rely.Stable.and (fun s t hs ht hg h hd => ?_) (stable_pending .none)
      exact (local_com _).stable s t hs ht hg (h hd)
    refine Rely.Triple.atomic stable_idle hst ?_
    rintro s hs hidle -
    cases hend : s.log.endOp with
    | error msg => exact ⟨hs, .refl rfl, fun a ha => by cases ha⟩
    | ok r =>
      obtain ⟨st, doCommit⟩ := r
      obtain ⟨hcom, rfl, rfl⟩ := Log.State.endOp_ok hend
      have hnone := hs.logOk.not_committing hcom
      refine ⟨hs.setLog _ ?_, .setLog rfl fun q _ => by simp [hnone], fun a ha => ?_⟩
      · refine ⟨fun _ => hs.logOk.pinned hcom, hs.logOk.listed, hs.logOk.nodup, hs.logOk.home,
          hs.logOk.short, fun h => of_decide_eq_true h, ?_⟩
        grind
      · cases ha
        refine ⟨fun hd => ?_, hidle⟩
        exact ⟨if_pos hd, hs.logOk.pinned hcom⟩
  · cases doCommit with
    | false =>
      exact Rely.Triple.weaken (Rely.Triple.ret (Q := fun _ => Idle p) stable_idle)
        (fun s _ hpre => hpre.2) fun _ _ _ hpost => hpost
    | true =>
      exact Rely.Triple.bind (Rely.Triple.weaken commit_triple
        (fun s _ hpre => ⟨hpre.1 rfl, hpre.2⟩) fun _ _ _ hpost => hpost) fun _ => finish_triple

theorem logWrite_eq {st st' : Log.State} {b : Nat} (h : st.logWrite dev b = .ok st') :
    (st.lh.length : Int) < dev.size - 1 ∧ 1 ≤ st.outstanding ∧
      st' = if b ∈ st.lh then st else { st with lh := st.lh ++ [b] } := by
  grind [Log.State.logWrite]

-- log_write() of a block that the log has: users now see the data of i.
theorem Inv.logged (h : Inv dev s) {i : Idx} (hi : (s.buf i).holder = some p)
    (hb : ¬ dev.area (s.buf i).blockno) (hpin : s.pinned (s.buf i).blockno = true) :
    Inv dev (s.logged i) := by
  have hroot : (s.buf i).dev = ROOTDEV := h.refs.held i (by simp [hi])
  have hflat : (s.logged i).flat = Function.update s.flat (s.buf i).blockno (s.buf i).data := rfl
  have hdirty : ∀ j, j ≠ i → (s.logged i).dirty j = s.dirty j :=
    fun j hj => Function.update_of_ne hj _ _
  refine ⟨⟨h.refs.listed, h.refs.count, h.refs.held, h.refs.waits, h.refs.loaded⟩,
    ⟨h.coherent.unique, h.coherent.cached, fun j hj hv ha hd => ?_, fun j hj hv ha hd => ?_,
      fun b hbb hp => ?_, fun j hd => ?_⟩,
    ⟨h.logOk.pinned, h.logOk.listed, h.logOk.nodup, h.logOk.home, h.logOk.short, h.logOk.quiet,
      h.logOk.committer⟩⟩
  · rw [hflat]
    by_cases hji : j = i
    · subst hji
      exact (Function.update_self (f := s.flat) _ _).symm
    · have hne : (s.buf j).blockno ≠ (s.buf i).blockno := by
        intro he
        exact hji (h.coherent.unique j i hj hroot he)
      have hhome := h.coherent.home j hj hv ha (hdirty j hji ▸ hd)
      exact hhome.trans (Function.update_of_ne hne _ _).symm
  · by_cases hji : j = i
    · subst hji
      exact absurd ha hb
    · exact h.coherent.log j hj hv ha (hdirty j hji ▸ hd)
  · have hne : b ≠ (s.buf i).blockno := by
      rintro rfl
      exact absurd (hpin.symm.trans hp) (by simp)
    rw [hflat, Function.update_of_ne hne]
    exact h.coherent.disk b hbb hp
  · have hji : j ≠ i := by
      rintro rfl
      simp [Sys.logged, Sys.setDirty] at hd
    exact h.coherent.dirty j (hdirty j hji ▸ hd)

theorem Sys.pin_buf (s : Sys) (i j : Idx) : (s.pin i).buf j =
    if j = i then { s.buf i with refcnt := (s.buf i).refcnt + 1 } else s.buf j := by
  simp [Sys.pin, Sys.setBuf_buf]

theorem Sys.pin_same (s : Sys) (i j : Idx) : ((s.pin i).buf j).Same (s.buf j) := by
  rw [Sys.pin_buf]
  split
  · rename_i he
    rw [he]
    exact ⟨rfl, rfl, rfl, rfl, rfl⟩
  · exact .refl _

theorem Sys.pin_pinned (s : Sys) (i : Idx) :
    (s.pin i).pinned = Function.update s.pinned (s.buf i).blockno true := rfl

-- log_write() of a block that is new to the log.
theorem Inv.pin (h : Inv dev s) {i : Idx} (hi : (s.buf i).holder = some p)
    (hv : (s.buf i).valid = true) (hb : ¬ dev.area (s.buf i).blockno)
    (hnew : (s.buf i).blockno ∉ s.log.lh) (hcom : s.log.committing = false)
    (hroom : s.log.lh.length + 1 < dev.size) :
    Inv dev { s.pin i with log := { s.log with lh := s.log.lh ++ [(s.buf i).blockno] } } := by
  have hroot : (s.buf i).dev = ROOTDEV := h.refs.held i (by simp [hi])
  have hfree : s.pinned (s.buf i).blockno = false := by
    by_contra hpin
    exact hnew (h.logOk.listed _ (by simpa using hpin))
  have hold : ∀ c, s.pinned c = true → (s.pin i).pinned c = true := by
    intro c hc
    rw [Sys.pin_pinned, Function.update_apply]
    split
    · rfl
    · exact hc
  refine ⟨?_, ⟨fun j k hj hk he => ?_, fun c hc => ?_, fun j hj hvj ha hd => ?_,
    fun j hj hvj ha hd => ?_, fun c hc hp => ?_, fun j hd => ?_⟩, ?_⟩
  · have hrefs : Refs (s.pin i) := by
      refine h.refs.one (t := s.pin i) (i := i) (fun j hj => by rw [Sys.pin_buf, if_neg hj])
        h.refs.listed (fun _ _ _ => ⟨Iff.rfl, id⟩) (fun j hj hr => ?_) ?_ (fun _ => ?_)
        fun q hq => ?_
      · rw [Sys.pin_pinned, Function.update_of_ne]
        intro he
        exact hj (h.coherent.unique j i hr hroot he)
      · obtain ⟨n, hn, hcount⟩ := h.refs.count i
        refine ⟨n, hn, ?_⟩
        rw [Sys.pin_pinned, Sys.pin_buf, if_pos rfl]
        simp only [hcount, hroot, hfree, Function.update_self, Bool.false_eq_true, and_false,
          and_self, if_false, if_true]
        omega
      · rw [(s.pin_same i i).2.1]
        exact hroot
      · rw [(s.pin_same i i).1]
        exact .inl hv
    exact ⟨hrefs.listed, hrefs.count, hrefs.held, hrefs.waits, hrefs.loaded⟩
  · obtain ⟨-, hd, hbj, -, -⟩ := s.pin_same i j
    obtain ⟨-, hd', hbk, -, -⟩ := s.pin_same i k
    exact h.coherent.unique j k (hd ▸ hj) (hd' ▸ hk) (hbj ▸ hbk ▸ he)
  · have hex : ∃ j, (s.buf j).dev = ROOTDEV ∧ (s.buf j).blockno = c ∧ (s.buf j).valid = true := by
      by_cases hci : c = (s.buf i).blockno
      · exact ⟨i, hroot, hci.symm, hv⟩
      · have hc' : s.pinned c = true := by
          have hne := Function.update_of_ne hci true s.pinned
          exact hne.symm.trans hc
        exact h.coherent.cached c hc'
    obtain ⟨j, hj, hjb, hvj⟩ := hex
    obtain ⟨hv', hd', hb', -, -⟩ := s.pin_same i j
    exact ⟨j, hd'.trans hj, hb'.trans hjb, hv'.trans hvj⟩
  · obtain ⟨hv', hd', hb', hx, -⟩ := s.pin_same i j
    exact hx.trans ((h.coherent.home j (hd' ▸ hj) (hv' ▸ hvj) (hb' ▸ ha) hd).trans
      (congrArg s.flat hb'.symm))
  · obtain ⟨hv', hd', hb', hx, -⟩ := s.pin_same i j
    exact hx.trans ((h.coherent.log j (hd' ▸ hj) (hv' ▸ hvj) (hb' ▸ ha) hd).trans
      (congrArg s.disk hb'.symm))
  · refine h.coherent.disk c hc ?_
    grind
  · obtain ⟨-, -, -, -, hh⟩ := s.pin_same i j
    rw [show ({ s.pin i with log := { s.log with lh := s.log.lh ++ [(s.buf i).blockno] } } :
      Sys).buf j = (s.pin i).buf j from rfl, hh]
    exact h.coherent.dirty j hd
  · refine ⟨fun _ c hc => ?_, fun c hc => ?_, ?_, fun c hc => ?_, fun _ => ?_, h.logOk.quiet,
      h.logOk.committer⟩
    · rcases List.mem_append.mp hc with hc | hc
      · exact hold c (h.logOk.pinned hcom c hc)
      · rw [List.mem_singleton] at hc
        subst hc
        exact Function.update_self _ _ _
    · rw [List.mem_append, List.mem_singleton]
      by_cases hci : c = (s.buf i).blockno
      · exact .inr hci
      · have hne := Function.update_of_ne hci true s.pinned
        exact .inl (h.logOk.listed c (hne.symm.trans hc))
    · exact List.nodup_append.mpr ⟨h.logOk.nodup, by simp, by
        grind⟩
    · rcases List.mem_append.mp hc with hc | hc
      · exact h.logOk.home c hc
      · rw [List.mem_singleton] at hc
        exact hc ▸ hb
    · simpa using hroom

-- A buffer that p holds between two calls.
def Owned (p : Nat) (i : Idx) (c : Nat) (s : Sys) : Prop :=
  (s.buf i).holder = some p ∧ (s.buf i).blockno = c

theorem local_owned (i : Idx) (c : Nat) : Local p (· = i) (Owned p i c) := by
  rintro s t hf ⟨hi, hc⟩
  obtain ⟨⟨-, -, hb, -, hh⟩, -⟩ := hf.held i rfl hi
  exact ⟨hh.trans hi, hb.trans hc⟩

theorem Inv.valid_of_idle (h : Inv dev s) (hidle : Idle p s) {i : Idx}
    (hi : (s.buf i).holder = some p) : (s.buf i).valid = true :=
  (h.refs.loaded p i hi).resolve_right fun hl => by
    rw [hidle] at hl
    cases hl

theorem change_client_triple (i : Idx) (c : Nat) (f : Block → Block) :
    (rely dev).Triple p (fun s => Owned p i c s ∧ Idle p s)
      (change i fun s => f (s.buf i).data) fun _ => Idle p := by
  refine Rely.Triple.modify ((local_owned i c).stable.and stable_idle) stable_idle ?_
  rintro s hs ⟨⟨hi, -⟩, hidle⟩ -
  have hv := hs.valid_of_idle hidle hi
  exact ⟨hs.change hi hv _, (Sys.change_own hi hv _).guar rfl rfl fun _ _ _ => rfl, hidle⟩

-- What log_write() does when it does not panic.
theorem logWrite_step (hs : Inv dev s) (hidle : Idle p s) {i : Idx}
    (hi : (s.buf i).holder = some p) (hb : ¬ dev.area (s.buf i).blockno) {st : Log.State}
    (hst : s.log.logWrite dev (s.buf i).blockno = .ok st) {t : Sys}
    (ht : t = if (s.buf i).blockno ∈ s.log.lh then s else s.pin i) :
    Inv dev ({ t with log := st }.logged i) ∧
      Guar dev p (.logWrite i) s ({ t with log := st }.logged i) := by
  obtain ⟨hroom, hout, heq⟩ := logWrite_eq hst
  have hcom : s.log.committing = false := by
    by_contra hc
    have := hs.logOk.quiet (by simpa using hc)
    omega
  have hnone := hs.logOk.not_committing hcom
  have hv := hs.valid_of_idle hidle hi
  have hafter : flatAfter dev s.flat (.logWrite i, s) =
      Function.update s.flat (s.buf i).blockno (s.buf i).data := by
    simp [flatAfter, hst]
  have hafter' : pinnedAfter dev s.pinned (.logWrite i, s) =
      Function.update s.pinned (s.buf i).blockno true := by
    simp [pinnedAfter, hst]
  have hold : ∀ q j, q ≠ p → (s.buf j).holder = some q → j ≠ i := by
    grind
  by_cases hin : (s.buf i).blockno ∈ s.log.lh
  · rw [if_pos hin] at ht heq
    rw [ht, heq]
    have hpin := hs.logOk.pinned hcom _ hin
    refine ⟨hs.logged hi hb hpin, fun q hq => ⟨fun j _ hj => ?_, fun hc => ?_⟩, fun _ _ => rfl,
      fun _ _ _ _ => ⟨rfl, rfl⟩, fun _ _ he => (by cases he), hafter.symm, ?_⟩
    · exact ⟨.refl _, Function.update_of_ne (hold q j hq hj) _ _⟩
    · exact absurd (hnone.symm.trans hc) (by simp)
    · rw [hafter', ← hpin, Function.update_eq_self]
      rfl
  · rw [if_neg hin] at ht heq
    rw [ht, heq]
    obtain ⟨-, -, hblock, hdata, hholder⟩ := s.pin_same i i
    have hpin := hs.pin hi hv hb hin hcom (by omega)
    refine ⟨hpin.logged (p := p) (hholder.trans hi) (fun ha => hb (hblock ▸ ha)) ?_,
      fun q hq => ⟨fun j _ hj => ?_, fun hc => ?_⟩, fun _ _ => rfl, fun q j _ _ => ?_,
      fun _ _ he => (by cases he), ?_, ?_⟩
    · refine Eq.trans (congrArg (s.pin i).pinned hblock) ?_
      exact Function.update_self _ _ _
    · exact ⟨s.pin_same i j, Function.update_of_ne (hold q j hq hj) _ _⟩
    · exact absurd (hnone.symm.trans hc) (by simp)
    · obtain ⟨-, hd, hbj, -, -⟩ := s.pin_same i j
      exact ⟨hd, hbj⟩
    · rw [hafter]
      refine Eq.trans (b := Function.update s.flat ((s.pin i).buf i).blockno
        ((s.pin i).buf i).data) rfl ?_
      rw [hblock, hdata]
    · rw [hafter']
      rfl

theorem logWrite_triple (i : Idx) {c : Nat} (hc : ¬ dev.area c) :
    (rely dev).Triple p (fun s => Owned p i c s ∧ Idle p s) (logWrite dev i) fun _ => Idle p := by
  refine Rely.Triple.atomic ((local_owned i c).stable.and stable_idle) (fun _ => stable_idle) ?_
  rintro s hs ⟨⟨hi, hb⟩, hidle⟩ -
  cases hst : s.log.logWrite dev (s.buf i).blockno with
  | error msg =>
    refine ⟨hs, ⟨fun q _ => .refl q s, fun _ _ => rfl, fun _ _ _ _ => ⟨rfl, rfl⟩,
      fun _ _ he => (by cases he), ?_, ?_⟩, fun a ha => by cases ha⟩
    · simp [flatAfter, hst]
    · simp [pinnedAfter, hst]
  | ok st =>
    obtain ⟨hinv, hguar⟩ := logWrite_step hs hidle hi (hb ▸ hc) hst rfl
    refine ⟨hinv, hguar, fun _ _ => ?_⟩
    simp only [Idle, Sys.logged, Sys.setDirty]
    split <;> exact hidle

theorem calls_safe {p : Nat} {s : Sys} {q : Prog Sys Label Unit} (hs : Inv dev s)
    (hidle : Idle p s) (hq : Calls dev p s q) : (rely dev).Safe p (fun _ => Idle p) q s := by
  cases hq with
  | bread b =>
    refine Rely.Triple.bind (bread_triple local_true (fun _ _ _ hk => hk.elim) b) (fun i => ?_) s
      hs ⟨trivial, hidle⟩
    exact Rely.Triple.weaken (Rely.Triple.ret (Q := fun _ => Idle p) stable_idle)
      (fun s _ hpre => hpre.2.1) fun _ _ _ hpost => hpost
  | change i f hi hb => exact change_client_triple i _ f s hs ⟨⟨hi, rfl⟩, hidle⟩
  | logWrite i hi hb => exact logWrite_triple i hb s hs ⟨⟨hi, rfl⟩, hidle⟩
  | brelse i hi hd =>
    have hholds : Holds p i (s.buf i).blockno s :=
      ⟨hi, hs.refs.held i (by simp [hi]), rfl, hd⟩
    exact Rely.Triple.weaken (brelse_triple local_true (i := i) (fun hk => hk) _)
      (fun _ _ hpre => hpre) (fun _ _ _ hpost => hpost.2) s hs ⟨⟨trivial, hholds⟩, hidle⟩
  | beginOp => exact beginOp_triple s hs hidle
  | endOp => exact endOp_triple s hs hidle

theorem Fresh.inv (h : Fresh s) : Inv dev s where
  refs := by
    refine ⟨h.listed, fun i => ⟨0, Counted.zero fun p => by simp [h.pending], ?_⟩, fun i hi => ?_,
      fun p i hp => ?_, fun p i hp => ?_⟩
    · simp [h.free i, h.pinned]
    · exact absurd (h.free i).2 hi
    · rw [h.pending] at hp
      cases hp
    · rw [(h.free i).2] at hp
      cases hp
  coherent := by
    refine ⟨h.unique, fun b hb => ?_, fun i hi hv _ _ => ?_, fun i hi hv _ _ => h.data i hi hv,
      fun b _ _ => by rw [h.flat], fun i hi => ?_⟩
    · rw [h.pinned] at hb
      cases hb
    · rw [h.flat]
      exact h.data i hi hv
    · rw [h.dirty] at hi
      cases hi
  logOk := by
    constructor
    all_goals simp [h.log, h.pinned, h.committer]

theorem lastLogged_snoc (hist : List (Label × Sys)) (e : Label × Sys) (disk : Nat → Block) :
    (fun b => (lastLogged dev (hist ++ [e]) b).getD (disk b)) =
      flatAfter dev (fun b => (lastLogged dev hist b).getD (disk b)) e := by
  funext b
  rw [lastLogged, List.foldl_append]
  obtain ⟨lbl, s⟩ := e
  cases lbl with
  | logWrite i =>
    simp only [flatAfter, List.foldl_cons, List.foldl_nil]
    by_cases hb : (s.buf i).blockno = b
    · subst hb
      cases s.log.logWrite dev (s.buf i).blockno with
      | ok st => simp [Except.isOk, Except.toBool]
      | error msg =>
        simp [Except.isOk, Except.toBool]
        rfl
    · rw [if_neg (by simp [hb])]
      cases s.log.logWrite dev (s.buf i).blockno with
      | ok st =>
        have hne := Function.update_of_ne (Ne.symm hb) (s.buf i).data
          fun b => (lastLogged dev hist b).getD (disk b)
        exact hne.symm
      | error msg => rfl
  | _ => rfl

theorem uninstalled_snoc (hist : List (Label × Sys)) (e : Label × Sys) :
    uninstalled dev (hist ++ [e]) = pinnedAfter dev (uninstalled dev hist) e := by
  simp [uninstalled, List.foldl_append]

theorem Fresh.inv_reach {s₀ : Sys} (h₀ : Fresh s₀) {hist : List (Label × Sys)} {c : Conf Sys Label}
    (h : Conf.Reach (Calls dev) ⟨s₀, fun _ => .ret ()⟩ hist c) : Inv dev c.st :=
  (Rely.reach (R := rely dev) Idle h (fun _ _ _ hs hi hq => calls_safe hs hi hq) h₀.inv
    (fun p => Rely.Triple.ret (Q := fun _ => Idle p) stable_idle _ h₀.inv (h₀.pending p))
    fun _ _ => trivial).1

theorem Fresh.guar_reach {s₀ : Sys} (h₀ : Fresh s₀) {hist : List (Label × Sys)}
    {c : Conf Sys Label} (h : Conf.Reach (Calls dev) ⟨s₀, fun _ => .ret ()⟩ hist c) {lbl : Label}
    {upd : Sys → Option Sys} {next : Sys → Prog Sys Label Unit}
    (hp : c.prog p = .act lbl upd next) (ht : upd c.st = some t) : Guar dev p lbl c.st t :=
  Rely.reach_guar (R := rely dev) Idle h (fun _ _ _ hs hi hq => calls_safe hs hi hq) h₀.inv
    (fun p => Rely.Triple.ret (Q := fun _ => Idle p) stable_idle _ h₀.inv (h₀.pending p))
    (fun _ _ => trivial) hp trivial ht

theorem Fresh.history {s₀ : Sys} (h₀ : Fresh s₀) {hist : List (Label × Sys)} {c : Conf Sys Label}
    (h : Conf.Reach (Calls dev) ⟨s₀, fun _ => .ret ()⟩ hist c) :
    c.st.flat = (fun b => (lastLogged dev hist b).getD (s₀.disk b)) ∧
      c.st.pinned = uninstalled dev hist := by
  induction h with
  | init => exact ⟨h₀.flat, funext h₀.pinned⟩
  | act h hp ht ih =>
    have hg := h₀.guar_reach h hp ht
    rw [lastLogged_snoc, uninstalled_snoc, ← ih.1, ← ih.2]
    exact ⟨hg.flat, hg.pinned⟩
  | call h hp hq ih => exact ih

theorem snoc_eq_append {α : Type} {hist pre post : List α} {e x : α}
    (h : hist ++ [e] = pre ++ x :: post) :
    (hist = pre ∧ e = x) ∨ ∃ post', hist = pre ++ x :: post' := by
  rcases List.eq_nil_or_concat post with rfl | ⟨post', y, rfl⟩
  · simp_all
  · rw [List.concat_eq_append, ← List.cons_append, ← List.append_assoc] at h
    obtain ⟨hp, -⟩ := List.append_inj' h rfl
    exact .inr ⟨post', hp⟩

-- The buffer cache and the log together are a flat array of blocks: whatever
-- the interleaving of its users and of commit(), bread() returns what was last
-- logged for the block, or what the disk had at boot. A block that is logged
-- and not installed is never recycled, and no reference count goes below zero.
theorem cache_refines_flat {s₀ : Sys} (h₀ : Fresh s₀) {hist : List (Label × Sys)}
    {c : Conf Sys Label} (h : Conf.Reach (Calls dev) ⟨s₀, fun _ => .ret ()⟩ hist c) :
    (∀ pre b i s post, hist = pre ++ (.bread b i, s) :: post → ¬ dev.area b →
      (s.buf i).blockno = b ∧
        (s.buf i).data = (lastLogged dev pre b).getD (s₀.disk b)) ∧
    (∀ pre d b i s post, hist = pre ++ (.bget d b, s) :: post → s.cached d b = none →
      s.victim = some i → (s.buf i).dev = ROOTDEV →
        uninstalled dev pre (s.buf i).blockno = false) ∧
    ∀ i, 0 ≤ (c.st.buf i).refcnt := by
  have hinv := h₀.inv_reach h
  refine ⟨?_, ?_, fun i => ?_⟩
  · clear hinv
    induction h with
    | init =>
      intro pre b i s post he
      simp at he
    | call h hp hq ih => exact ih
    | act h hp ht ih =>
      intro pre b i s post he hb
      rcases snoc_eq_append he with ⟨rfl, hlast⟩ | ⟨post', he⟩
      · cases hlast
        obtain ⟨hblock, -, -, hdata⟩ := (h₀.guar_reach h hp ht).bread b i rfl
        rw [(h₀.history h).1] at hdata
        exact ⟨hblock, hdata hb⟩
      · exact ih pre b i s post' he hb
  · clear hinv
    induction h with
    | init =>
      intro pre d b i s post he
      simp at he
    | call h hp hq ih => exact ih
    | act h hp ht ih =>
      intro pre d b i s post he hmiss hv hroot
      rcases snoc_eq_append he with ⟨rfl, hlast⟩ | ⟨post', he⟩
      · cases hlast
        have hunused := (h₀.inv_reach h).refs.unused (Sys.victim_eq_some hv)
        rw [(h₀.history h).2] at hunused
        simpa [hroot] using hunused.2.2
      · exact ih pre d b i s post' he hmiss hv hroot
  · obtain ⟨n, -, hcount⟩ := hinv.refs.count i
    rw [hcount]
    split <;> split <;> omega

-- A run of process 0 on a disk of zeroes, where bget() takes the last buffer:
-- it logs a block of ones and reads the block again.
def boot : Sys where
  buf := fun _ => ⟨false, 0, 0, 0, Block.zero, none⟩
  lru := List.finRange NBUF
  disk := fun _ => Block.zero
  log := ⟨0, false, []⟩
  flat := fun _ => Block.zero
  dirty := fun _ => false
  pending := fun _ => .none
  pinned := fun _ => false
  committer := none

theorem fresh_boot : Fresh boot where
  listed := List.mem_finRange
  free := fun _ => ⟨rfl, rfl⟩
  unique := by decide
  data := fun _ _ h => by cases h
  log := rfl
  flat := rfl
  dirty := fun _ => rfl
  pending := fun _ => rfl
  pinned := fun _ => rfl
  committer := rfl

def ones : Block := fun _ => 1

def lastBuf : Idx := ⟨NBUF - 1, by decide⟩

def booted : List (Label × Sys) × Conf Sys Label := ([], ⟨boot, fun _ => .ret ()⟩)

def readBlock : Prog Sys Label Unit := bread 0 ROOTDEV 46 >>= fun _ => pure ()

def readBack : List (Label × Sys) × Conf Sys Label :=
  booted |> Conf.after 0 4 readBlock |> Conf.after 0 1 beginOp
    |> Conf.after 0 1 (change lastBuf fun _ => ones)
    |> Conf.after 0 1 (logWrite ⟨2, LOGSIZE⟩ lastBuf)
    |> Conf.after 0 2 (brelse 0 lastBuf) |> Conf.after 0 4 readBlock

theorem reach_readBack : Conf.Reach (Calls ⟨2, LOGSIZE⟩) booted.2 readBack.1 readBack.2 := by
  have h0 : Conf.Reach (Calls ⟨2, LOGSIZE⟩) booted.2 booted.1 booted.2 := .init
  have h1 := h0.after 0 4 rfl (.bread 46)
  have h2 := h1.after 0 1 rfl .beginOp
  have h3 := h2.after 0 1 rfl
    (.change lastBuf (fun _ => ones) (by decide +kernel) (by decide +kernel))
  have h4 := h3.after 0 1 rfl (.logWrite lastBuf (by decide +kernel) (by decide +kernel))
  have h5 := h4.after 0 2 rfl (.brelse lastBuf (by decide +kernel) (by decide +kernel))
  exact h5.after 0 4 rfl (.bread 46)

theorem cache_refines_flat_readBack :
    ∃ pre s, Conf.Reach (Calls ⟨2, LOGSIZE⟩) booted.2 (pre ++ [(.bread 46 lastBuf, s)])
      readBack.2 ∧ (s.buf lastBuf).data.byte 0 = 1 := by
  have hlast : readBack.1.getLast?.map Prod.fst = some (.bread 46 lastBuf) := by decide +kernel
  obtain ⟨⟨lbl, s⟩, hs, rfl⟩ := Option.map_eq_some_iff.mp hlast
  obtain ⟨pre, hpre⟩ := List.getLast?_eq_some_iff.mp hs
  have hread := (cache_refines_flat fresh_boot reach_readBack).1 pre 46 lastBuf s [] hpre (by decide)
  have hdrop : pre = readBack.1.dropLast := by rw [hpre, List.dropLast_concat]
  refine ⟨pre, s, hpre ▸ reach_readBack, ?_⟩
  rw [hread.2, hdrop]
  decide +kernel

-- At every moment a buffer counts who is on the way to its lock or from it, its holder
-- and the log, no block has two, and the disk is behind only by what is not installed,
-- all of which is in the cache.
theorem buffers_counted {s₀ : Sys} (h₀ : Fresh s₀) {hist : List (Label × Sys)} {c : Conf Sys Label}
    (h : Conf.Reach (Calls dev) ⟨s₀, fun _ => .ret ()⟩ hist c) :
    (∀ i, ∃ n, Counted c.st.pending (.ref i) n ∧ (c.st.buf i).refcnt = n +
      (if (c.st.buf i).holder = none then 0 else 1) +
      (if (c.st.buf i).dev = ROOTDEV ∧ uninstalled dev hist (c.st.buf i).blockno = true then 1
        else 0)) ∧
    (∀ i j, (c.st.buf i).dev = ROOTDEV → (c.st.buf j).dev = ROOTDEV →
      (c.st.buf i).blockno = (c.st.buf j).blockno → i = j) ∧
    (∀ b, uninstalled dev hist b = true →
      ∃ i, (c.st.buf i).dev = ROOTDEV ∧ (c.st.buf i).blockno = b ∧ (c.st.buf i).valid = true) ∧
    ∀ b, ¬ dev.area b → uninstalled dev hist b = false →
      c.st.disk b = (lastLogged dev hist b).getD (s₀.disk b) := by
  have hinv := h₀.inv_reach h
  obtain ⟨hflat, hpinned⟩ := h₀.history h
  rw [← hpinned]
  refine ⟨hinv.refs.count, hinv.coherent.unique, hinv.coherent.cached, fun b hb hp => ?_⟩
  rw [hinv.coherent.disk b hb hp, hflat]

-- The block that has been read again is held, and it is logged.
theorem buffers_counted_readBack : ∃ n, Counted readBack.2.st.pending (.ref lastBuf) n ∧
    (readBack.2.st.buf lastBuf).refcnt = n + 1 + 1 := by
  have hcount := (buffers_counted fresh_boot reach_readBack).1 lastBuf
  rwa [if_neg (by decide +kernel), if_pos (by decide +kernel)] at hcount

end Xv6.Bio
