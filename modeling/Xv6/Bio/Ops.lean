import Xv6.Bio.Inv

namespace Xv6.Bio

open Lib

variable {dev : Log.Dev} {p : Nat} {keep : Idx → Prop} {P : Sys → Prop} {s t : Sys}

-- A step that leaves the data of the buffers, the disk and the log alone.
structure Quiet (s t : Sys) : Prop where
  data : ∀ i, (t.buf i).valid = (s.buf i).valid ∧ (t.buf i).dev = (s.buf i).dev ∧
    (t.buf i).blockno = (s.buf i).blockno ∧ (t.buf i).data = (s.buf i).data
  disk : t.disk = s.disk
  log : t.log = s.log
  flat : t.flat = s.flat
  dirty : t.dirty = s.dirty
  pinned : t.pinned = s.pinned
  committer : t.committer = s.committer

theorem Quiet.coherent (h : Quiet s t) (hc : Coherent dev s)
    (hd : ∀ i, t.dirty i = true → (t.buf i).holder ≠ none) : Coherent dev t := by
  obtain ⟨hdata, hdisk, hlog, hflat, hdirty, hpinned, hcom⟩ := h
  refine ⟨fun i j hi hj hb => ?_, fun b hb => ?_, fun i hr hv hb hn => ?_, fun i hr hv hb hn => ?_,
    fun b hb hn => ?_, hd⟩
  · grind [Coherent.unique]
  · obtain ⟨i, hr, hbi, hv⟩ := hc.cached b (hpinned ▸ hb)
    grind
  · grind [Coherent.home]
  · grind [Coherent.log]
  · rw [hdisk, hflat]
    exact hc.disk b hb (hpinned ▸ hn)

theorem Quiet.logOk (h : Quiet s t) (hl : LogOk dev s) : LogOk dev t := by
  obtain ⟨-, -, hlog, -, -, hpinned, hcom⟩ := h
  constructor
  · rw [hlog, hpinned]
    exact hl.pinned
  · rw [hlog, hpinned]
    exact hl.listed
  · rw [hlog]
    exact hl.nodup
  · rw [hlog]
    exact hl.home
  · rw [hlog]
    exact hl.short
  · rw [hlog]
    exact hl.quiet
  · rw [hlog, hcom]
    exact hl.committer

theorem flatAfter_hidden {lbl : Label} (h : lbl.hidden = true) {flat : Nat → Block} :
    flatAfter dev flat (lbl, s) = flat := by
  cases lbl <;> first | rfl | cases h

theorem pinnedAfter_hidden {lbl : Label} (h : lbl.hidden = true) {pinned : Nat → Bool} :
    pinnedAfter dev pinned (lbl, s) = pinned := by
  cases lbl <;> first | rfl | cases h

theorem Quiet.frame (h : Quiet s t) (q : Nat)
    (hheld : ∀ i, keep i → (s.buf i).holder = some q → (t.buf i).holder = some q) :
    Frame q keep s t := by
  refine ⟨fun i hi hq => ?_, fun _ => ⟨h.committer, h.log, h.disk, h.flat, h.pinned⟩⟩
  obtain ⟨hv, hr, hb, hx⟩ := h.data i
  exact ⟨⟨hv, hr, hb, hx, (hheld i hi hq).trans hq.symm⟩, by rw [h.dirty]⟩

theorem Quiet.guar (h : Quiet s t) {lbl : Label} (hlbl : lbl.hidden = true)
    (hheld : ∀ q i, q ≠ p → (s.buf i).holder = some q → (t.buf i).holder = some q)
    (hpending : ∀ q, q ≠ p → t.pending q = s.pending q) : Guar dev p lbl s t where
  frame q hq := h.frame q fun i _ => hheld q i hq
  pending := hpending
  waits _ i _ _ := ⟨(h.data i).2.1, (h.data i).2.2.1⟩
  bread b i he := by
    subst he
    cases hlbl
  flat := h.flat.trans (flatAfter_hidden hlbl).symm
  pinned := h.pinned.trans (pinnedAfter_hidden hlbl).symm

theorem Frame.refl (q : Nat) (s : Sys) : Frame q keep s s :=
  ⟨fun _ _ _ => ⟨.refl _, rfl⟩, fun _ => ⟨rfl, rfl, rfl, rfl, rfl⟩⟩

theorem Guar.refl {lbl : Label} (hlbl : lbl.hidden = true) : Guar dev p lbl s s where
  frame q _ := .refl q s
  pending _ _ := rfl
  waits _ _ _ _ := ⟨rfl, rfl⟩
  bread b i he := by
    subst he
    cases hlbl
  flat := (flatAfter_hidden hlbl).symm
  pinned := (pinnedAfter_hidden hlbl).symm

theorem Sys.hit_buf (s : Sys) (p : Nat) (i j : Idx) : (s.hit p i).buf j =
    if j = i then { s.buf i with refcnt := (s.buf i).refcnt + 1 } else s.buf j := by
  simp [Sys.hit, Sys.setBuf_buf]

theorem Sys.hit_quiet (s : Sys) (p : Nat) (i : Idx) : Quiet s (s.hit p i) := by
  refine ⟨fun j => ?_, rfl, rfl, rfl, rfl, rfl, rfl⟩
  grind [hit_buf]

theorem Sys.hit_holder (s : Sys) (p : Nat) (i j : Idx) :
    ((s.hit p i).buf j).holder = (s.buf j).holder := by
  grind [hit_buf]

-- Only buffer i and the processes on their way to or from it change.
theorem Refs.one (h : Refs s) {i : Idx} (hbuf : ∀ j, j ≠ i → t.buf j = s.buf j)
    (hlru : ∀ j, j ∈ t.lru)
    (hpend : ∀ q j, j ≠ i → ((t.pending q = .ref j ↔ s.pending q = .ref j) ∧
      (s.pending q = .load j → t.pending q = .load j)))
    (hpin : ∀ j, j ≠ i → (s.buf j).dev = ROOTDEV →
      t.pinned (s.buf j).blockno = s.pinned (s.buf j).blockno)
    (hcount : ∃ n, Counted t.pending (.ref i) n ∧ (t.buf i).refcnt = n +
      (if (t.buf i).holder = none then 0 else 1) +
      (if (t.buf i).dev = ROOTDEV ∧ t.pinned (t.buf i).blockno = true then 1 else 0))
    (hroot : ((t.buf i).holder ≠ none ∨ ∃ q, t.pending q = .ref i) → (t.buf i).dev = ROOTDEV)
    (hload : ∀ q, (t.buf i).holder = some q → (t.buf i).valid = true ∨ t.pending q = .load i) :
    Refs t := by
  refine ⟨hlru, fun j => ?_, fun j hj => ?_, fun q j hj => ?_, fun q j hj => ?_⟩
  · by_cases hji : j = i
    · exact hji ▸ hcount
    · obtain ⟨n, ⟨ps, hps, hcard⟩, hn⟩ := h.count j
      refine ⟨n, ⟨ps, fun q => (hps q).trans (hpend q j hji).1.symm, hcard⟩, ?_⟩
      rw [hbuf j hji, hn]
      by_cases hr : (s.buf j).dev = ROOTDEV
      · rw [hpin j hji hr]
      · simp [hr]
  · by_cases hji : j = i
    · subst hji
      exact hroot (.inl hj)
    · rw [hbuf j hji] at hj ⊢
      exact h.held j hj
  · by_cases hji : j = i
    · subst hji
      exact hroot (.inr ⟨q, hj⟩)
    · rw [hbuf j hji]
      exact h.waits q j ((hpend q j hji).1.mp hj)
  · by_cases hji : j = i
    · subst hji
      exact hload q hj
    · rw [hbuf j hji] at hj ⊢
      exact (h.loaded q j hj).imp_right (hpend q j hji).2

theorem pending_update {f : Nat → Access} {y : Access} {i : Idx}
    (hx : f p = .none ∨ f p = .ref i ∨ f p = .load i)
    (hy : y = .none ∨ y = .ref i ∨ y = .load i) (q : Nat) (j : Idx) (hj : j ≠ i) :
    (Function.update f p y q = .ref j ↔ f q = .ref j) ∧
      (f q = .load j → Function.update f p y q = .load j) := by
  grind

theorem loaded_update {f : Nat → Access} {x y : Access} {i : Idx} {v : Bool} {q : Nat}
    (h : v = true ∨ f q = .load i) (hx : f p = x) (hne : x ≠ .load i) :
    v = true ∨ Function.update f p y q = .load i := by
  grind

theorem Refs.hit (h : Refs s) (hp : s.pending p = .none) {i : Idx} (hi : (s.buf i).dev = ROOTDEV) :
    Refs (s.hit p i) := by
  refine h.one (t := s.hit p i) (i := i) (fun j hj => by rw [Sys.hit_buf, if_neg hj]) h.listed ?_
    (fun _ _ _ => rfl) ?_ (fun _ => by rw [Sys.hit_buf, if_pos rfl]; exact hi) fun q hq => ?_
  · exact pending_update (.inl hp) (.inr (.inl rfl))
  · obtain ⟨n, hn, hcount⟩ := h.count i
    refine ⟨n + 1, hn.add (by simp [hp]), ?_⟩
    rw [Sys.hit_buf, if_pos rfl]
    simp only [hcount, Nat.cast_add, Nat.cast_one]
    rw [show (s.hit p i).pinned = s.pinned from rfl]
    omega
  · rw [Sys.hit_holder] at hq
    rw [((s.hit_quiet p i).data i).1]
    exact loaded_update (h.loaded q i hq) hp (by simp)

theorem Inv.hit (h : Inv dev s) (hp : s.pending p = .none) {i : Idx} (hi : (s.buf i).dev = ROOTDEV) :
    Inv dev (s.hit p i) where
  refs := h.refs.hit hp hi
  coherent := (s.hit_quiet p i).coherent h.coherent fun j hj => by
    rw [Sys.hit_holder]
    exact h.coherent.dirty j hj
  logOk := (s.hit_quiet p i).logOk h.logOk

theorem Sys.recycle_self (s : Sys) (p dev b : Nat) (i : Idx) : (s.recycle p dev b i).buf i =
    { s.buf i with dev := dev, blockno := b, valid := false, refcnt := 1 } := by
  simp [Sys.recycle]

theorem Sys.recycle_other (s : Sys) (p dev b : Nat) {i j : Idx} (h : j ≠ i) :
    (s.recycle p dev b i).buf j = s.buf j := by
  simp [Sys.recycle, Sys.setBuf_other, h]

theorem Refs.unused (h : Refs s) {i : Idx} (hi : (s.buf i).refcnt = 0) :
    (s.buf i).holder = none ∧ (∀ q, s.pending q ≠ .ref i) ∧
      ¬ ((s.buf i).dev = ROOTDEV ∧ s.pinned (s.buf i).blockno = true) := by
  obtain ⟨n, hn, hcount⟩ := h.count i
  refine ⟨?_, fun q hq => ?_, fun hpin => ?_⟩
  · grind
  · have hpos := hn.pos hq
    omega
  grind

theorem Refs.recycle (h : Refs s) (hp : s.pending p = .none) {i : Idx} {b : Nat}
    (hi : (s.buf i).refcnt = 0) (hb : s.pinned b = false) : Refs (s.recycle p ROOTDEV b i) := by
  obtain ⟨hfree, hnone, -⟩ := h.unused hi
  refine h.one (t := s.recycle p ROOTDEV b i) (i := i)
    (fun j hj => Sys.recycle_other s p ROOTDEV b hj) h.listed ?_
    (fun _ _ _ => rfl) ?_ (fun _ => by rw [Sys.recycle_self]) fun q hq => ?_
  · exact pending_update (.inl hp) (.inr (.inl rfl))
  · refine ⟨0 + 1, (Counted.zero hnone).add (hnone p), ?_⟩
    rw [Sys.recycle_self]
    simp [hfree, show (s.recycle p ROOTDEV b i).pinned = s.pinned from rfl, hb]
  grind [Sys.recycle_self]

theorem Coherent.recycle (h : Coherent dev s) (hr : Refs s) {i : Idx} {b : Nat}
    (hi : (s.buf i).refcnt = 0) (hb : ∀ j, ¬ ((s.buf j).dev = ROOTDEV ∧ (s.buf j).blockno = b)) :
    Coherent dev (s.recycle p ROOTDEV b i) := by
  obtain ⟨hfree, -, hpin⟩ := hr.unused hi
  have hself := s.recycle_self p ROOTDEV b i
  have hother : ∀ j, j ≠ i → (s.recycle p ROOTDEV b i).buf j = s.buf j :=
    fun j hj => Sys.recycle_other s p ROOTDEV b hj
  refine ⟨fun j k hj hk he => ?_, fun c hc => ?_, fun j hj hv ha hd => ?_,
    fun j hj hv ha hd => ?_, h.disk, fun j hj => ?_⟩
  · grind [unique]
  · obtain ⟨j, hj, hjb, hv⟩ := h.cached c hc
    have hji : j ≠ i := by
      rintro rfl
      exact hpin ⟨hj, hjb ▸ hc⟩
    grind
  · have hji : j ≠ i := by
      grind
    rw [hother j hji] at hj hv ha ⊢
    exact h.home j hj hv ha hd
  · have hji : j ≠ i := by
      grind
    rw [hother j hji] at hj hv ha ⊢
    exact h.log j hj hv ha hd
  · have hholder := h.dirty j hj
    grind

theorem Sys.cached_eq_some {i : Idx} {d b : Nat} (h : s.cached d b = some i) :
    (s.buf i).dev = d ∧ (s.buf i).blockno = b := by
  simpa [Sys.cached] using List.find?_some h

theorem Refs.cached_eq_none (hr : Refs s) {d b : Nat} (h : s.cached d b = none) (j : Idx) :
    ¬ ((s.buf j).dev = d ∧ (s.buf j).blockno = b) := by
  have hj := List.find?_eq_none.mp h j (hr.listed j)
  simpa using hj

theorem Sys.victim_eq_some {i : Idx} (h : s.victim = some i) : (s.buf i).refcnt = 0 := by
  simpa [Sys.victim] using List.find?_some h

theorem Refs.recycle_frame (hr : Refs s) {i : Idx} (hi : (s.buf i).refcnt = 0) (q b : Nat) :
    Frame q keep s (s.recycle p ROOTDEV b i) := by
  refine ⟨fun j _ hj => ?_, fun _ => ⟨rfl, rfl, rfl, rfl, rfl⟩⟩
  have hji : j ≠ i := by
    grind [unused]
  rw [Sys.recycle_other s p ROOTDEV b hji]
  exact ⟨.refl _, rfl⟩

theorem Refs.recycle_guar (hr : Refs s) {i : Idx} (hi : (s.buf i).refcnt = 0) (b : Nat) :
    Guar dev p (.bget ROOTDEV b) s (s.recycle p ROOTDEV b i) where
  frame q _ := hr.recycle_frame hi q b
  pending q hq := Function.update_of_ne hq _ _
  waits q j _ hj := by
    grind [unused, Sys.recycle_other, ROOTDEV]
  bread _ _ he := by cases he
  flat := rfl
  pinned := rfl

-- What p knows of the buffer that it waits for.
def Waits (p : Nat) (i : Idx) (b : Nat) (s : Sys) : Prop :=
  s.pending p = .ref i ∧ (s.buf i).dev = ROOTDEV ∧ (s.buf i).blockno = b

theorem bget_triple (hP : Local p keep P) (b : Nat) :
    (rely dev).Triple p (fun s => P s ∧ s.pending p = .none) (bget p ROOTDEV b)
      (fun i s => P s ∧ Waits p i b s) := by
  refine Rely.Triple.atomic (hP.stable.and (stable_pending .none))
    (fun i => hP.stable.and (stable_waits i b)) ?_
  rintro s hs ⟨hPs, hnone⟩ -
  cases hc : s.cached ROOTDEV b with
  | some i =>
    obtain ⟨hi, hb⟩ := Sys.cached_eq_some hc
    have hq := s.hit_quiet p i
    have hold : ∀ j, ((s.hit p i).buf j).holder = (s.buf j).holder := Sys.hit_holder s p i
    refine ⟨hs.hit hnone hi, ?_, fun a ha => ?_⟩
    · exact hq.guar rfl (fun q j _ hj => (hold j).trans hj)
        (fun q hqp => Function.update_of_ne hqp _ _)
    · cases ha
      refine ⟨hP _ _ (hq.frame p fun j _ hj => (hold j).trans hj) hPs, ?_, ?_⟩
      · exact Function.update_self _ _ _
      grind [Quiet.data]
  | none =>
    have hmiss := hs.refs.cached_eq_none hc
    cases hv : s.victim with
    | some i =>
      have hi := Sys.victim_eq_some hv
      have hpin : s.pinned b = false := by
        by_contra hpin
        obtain ⟨j, hj, hjb, -⟩ := hs.coherent.cached b (by simpa using hpin)
        exact hmiss j ⟨hj, hjb⟩
      refine ⟨⟨?_, ?_, ?_⟩, hs.refs.recycle_guar hi b, fun a ha => ?_⟩
      · exact hs.refs.recycle hnone hi hpin
      · exact hs.coherent.recycle hs.refs hi hmiss
      · exact ⟨hs.logOk.pinned, hs.logOk.listed, hs.logOk.nodup, hs.logOk.home,
          hs.logOk.short, hs.logOk.quiet, hs.logOk.committer⟩
      · cases ha
        refine ⟨hP _ _ (hs.refs.recycle_frame hi p b) hPs, Function.update_self _ _ _, ?_⟩
        grind [Sys.recycle_self]
    | none =>
      exact ⟨hs, .refl rfl, fun a ha => by cases ha⟩

-- What p knows of a buffer that it holds.
structure Holds (p : Nat) (i : Idx) (b : Nat) (s : Sys) : Prop where
  holder : (s.buf i).holder = some p
  root : (s.buf i).dev = ROOTDEV
  block : (s.buf i).blockno = b
  clean : s.dirty i = false

structure Has (p : Nat) (i : Idx) (b : Nat) (s : Sys) : Prop extends Holds p i b s where
  valid : (s.buf i).valid = true

theorem Frame.holds {i : Idx} {b : Nat} (h : Frame p keep s t) (hi : keep i)
    (hs : Holds p i b s) : Holds p i b t := by
  obtain ⟨⟨-, hd, hb, -, hh⟩, hdirty⟩ := h.held i hi hs.holder
  exact ⟨hh.trans hs.holder, hd.trans hs.root, hb.trans hs.block, hdirty.trans hs.clean⟩

theorem Frame.has {i : Idx} {b : Nat} (h : Frame p keep s t) (hi : keep i)
    (hs : Has p i b s) : Has p i b t := by
  obtain ⟨⟨hv, -⟩, -⟩ := h.held i hi hs.holder
  exact ⟨h.holds hi hs.toHolds, hv.trans hs.valid⟩

theorem local_holds (i : Idx) (b : Nat) : Local p (· = i) (Holds p i b) :=
  fun _ _ hf hs => hf.holds rfl hs

theorem local_has (i : Idx) (b : Nat) : Local p (· = i) (Has p i b) :=
  fun _ _ hf hs => hf.has rfl hs

theorem Local.and {keep' : Idx → Prop} {Q : Sys → Prop} (hP : Local p keep P)
    (hQ : Local p keep' Q) : Local p (fun i => keep i ∨ keep' i) fun s => P s ∧ Q s :=
  fun s t hf h => ⟨hP s t (hf.mono fun _ => .inl) h.1, hQ s t (hf.mono fun _ => .inr) h.2⟩

theorem Sys.lock_buf (s : Sys) (p : Nat) (i j : Idx) : (s.lock p i).buf j =
    if j = i then { s.buf i with holder := some p } else s.buf j := by
  simp [Sys.lock, Sys.setBuf_buf]

theorem Sys.lock_quiet (s : Sys) (p : Nat) (i : Idx) : Quiet s (s.lock p i) := by
  refine ⟨fun j => ?_, rfl, rfl, rfl, rfl, rfl, rfl⟩
  grind [lock_buf]

theorem Sys.lock_holder {i : Idx} (hi : (s.buf i).holder = none) {j : Idx} {q : Nat}
    (hj : (s.buf j).holder = some q) : ((s.lock p i).buf j).holder = some q := by
  have hji : j ≠ i := by
    grind
  rw [Sys.lock_buf, if_neg hji]
  exact hj

theorem Inv.lock (h : Inv dev s) {i : Idx} (hp : s.pending p = .ref i)
    (hi : (s.buf i).holder = none) : Inv dev (s.lock p i) := by
  have hq := s.lock_quiet p i
  refine ⟨?_, hq.coherent h.coherent fun j hj => ?_, hq.logOk h.logOk⟩
  · refine h.refs.one (t := s.lock p i) (i := i) (fun j hj => by rw [Sys.lock_buf, if_neg hj])
      h.refs.listed ?_ (fun _ _ _ => rfl) ?_
      (fun _ => (hq.data i).2.1.trans (h.refs.waits p i hp)) fun q hq => ?_
    · exact pending_update (.inr (.inl hp)) (.inr (.inr rfl))
    · obtain ⟨n, hn, hcount⟩ := h.refs.count i
      have hpos := hn.pos hp
      refine ⟨n - 1, hn.remove hp (by simp), ?_⟩
      rw [Sys.lock_buf, if_pos rfl]
      simp only [hcount, hi, if_true, reduceCtorEq, if_false]
      rw [show (s.lock p i).pinned = s.pinned from rfl]
      omega
    · rw [Sys.lock_buf, if_pos rfl] at hq
      cases hq
      exact .inr (Function.update_self _ _ _)
  · rw [Sys.lock_buf]
    split
    · simp
    · exact h.coherent.dirty j hj

theorem acquiresleep_triple (hP : Local p keep P)
    (hkeep : ∀ s i, P s → keep i → (s.buf i).holder = some p) (i : Idx) (b : Nat) :
    (rely dev).Triple p (fun s => P s ∧ Waits p i b s) (acquiresleep p i)
      (fun _ s => (P s ∧ Holds p i b s) ∧ s.pending p = .load i ∧ ¬ keep i) := by
  refine Rely.Triple.act (hP.stable.and (stable_waits i b)) ?_
  rintro s t hs ⟨hPs, hw, hd, hb⟩ - ht
  split at ht
  · rename_i hfree
    cases ht
    have hq := s.lock_quiet p i
    refine ⟨hs.lock hw hfree, ?_, fun hi => ?_⟩
    · exact hq.guar rfl (fun q j _ hj => Sys.lock_holder hfree hj)
        (fun q hqp => Function.update_of_ne hqp _ _)
    · have hnk : ¬ keep i := by
        grind
      have hclean : s.dirty i = false := by
        by_contra hdirty
        exact hs.coherent.dirty i (by simpa using hdirty) hfree
      have hst : (rely dev).Stable p fun s =>
          (P s ∧ Holds p i b s) ∧ s.pending p = .load i ∧ ¬ keep i :=
        (hP.and (local_holds i b)).stable.and ((stable_pending (.load i)).and fun _ _ _ _ _ h => h)
      refine Rely.Triple.ret hst _ hi ⟨⟨?_, ?_⟩, Function.update_self _ _ _, hnk⟩
      · exact hP _ _ (hq.frame p fun j _ hj => Sys.lock_holder hfree hj) hPs
      · refine ⟨?_, (hq.data i).2.1.trans hd, (hq.data i).2.2.1.trans hb, hclean⟩
        rw [Sys.lock_buf, if_pos rfl]
  · cases ht

-- A step that changes only the data of a buffer that p holds.
structure Own (p : Nat) (i : Idx) (s t : Sys) : Prop where
  holder : (s.buf i).holder = some p
  valid : (t.buf i).valid = true
  self : (t.buf i).dev = (s.buf i).dev ∧ (t.buf i).blockno = (s.buf i).blockno ∧
    (t.buf i).refcnt = (s.buf i).refcnt ∧ (t.buf i).holder = (s.buf i).holder
  other : ∀ j, j ≠ i → t.buf j = s.buf j ∧ t.dirty j = s.dirty j
  lru : t.lru = s.lru
  pending : t.pending = s.pending ∨
    (s.pending p = .load i ∧ t.pending = Function.update s.pending p .none)
  log : t.log = s.log
  pinned : t.pinned = s.pinned
  committer : t.committer = s.committer

theorem Own.refs {i : Idx} (h : Own p i s t) (hr : Refs s) : Refs t := by
  obtain ⟨hd, hb, hc, hh⟩ := h.self
  refine hr.one (i := i) (fun j hj => (h.other j hj).1) (fun j => h.lru ▸ hr.listed j)
    (fun q j hj => ?_) (fun j _ _ => by rw [h.pinned]) ?_ ?_ fun _ _ => .inl h.valid
  · rcases h.pending with hp | ⟨hl, hp⟩
    · rw [hp]
      exact ⟨Iff.rfl, id⟩
    · rw [hp]
      exact pending_update (.inr (.inr hl)) (.inl rfl) q j hj
  · rw [hd, hb, hc, hh, h.pinned]
    obtain ⟨n, hn, hcount⟩ := hr.count i
    refine ⟨n, ?_, hcount⟩
    rcases h.pending with hp | ⟨hl, hp⟩
    · rw [hp]
      exact hn
    grind [Counted.other]
  · rw [hd]
    intro _
    exact hr.held i (by simp [h.holder])

theorem Own.logOk {i : Idx} (h : Own p i s t) (hl : LogOk dev s) : LogOk dev t := by
  constructor
  · rw [h.log, h.pinned]
    exact hl.pinned
  · rw [h.log, h.pinned]
    exact hl.listed
  · rw [h.log]
    exact hl.nodup
  · rw [h.log]
    exact hl.home
  · rw [h.log]
    exact hl.short
  · rw [h.log]
    exact hl.quiet
  · rw [h.log, h.committer]
    exact hl.committer

theorem Own.frame {i : Idx} (h : Own p i s t) (q : Nat) (hq : q ≠ p ∨ ¬ keep i)
    (hsame : s.committer = some q → t.disk = s.disk ∧ t.flat = s.flat) : Frame q keep s t := by
  refine ⟨fun j hk hj => ?_, fun hc => ?_⟩
  · have hji : j ≠ i := by
      rintro rfl
      rcases hq with hq | hq
      · exact hq (Option.some.inj (hj.symm.trans h.holder))
      · exact hq hk
    grind [other, Buf.Same.refl]
  grind [committer, log, pinned]

theorem Own.guar {i : Idx} (h : Own p i s t) {lbl : Label} (hlbl : lbl.hidden = true)
    (hflat : t.flat = s.flat)
    (hsame : ∀ q, q ≠ p → s.committer = some q → t.disk = s.disk) : Guar dev p lbl s t where
  frame q hq := h.frame q (.inl hq) fun hc => ⟨hsame q hq hc, hflat⟩
  pending q hq := by
    rcases h.pending with hp | ⟨-, hp⟩
    · rw [hp]
    · rw [hp, Function.update_of_ne hq]
  waits q j _ _ := by
    grind [self, other]
  bread b i he := by
    subst he
    cases hlbl
  flat := hflat.trans (flatAfter_hidden hlbl).symm
  pinned := h.pinned.trans (pinnedAfter_hidden hlbl).symm

theorem Sys.fill_of_valid {i : Idx} (h : (s.buf i).valid = true) (p : Nat) :
    s.fill p i = s.setPending p .none := by
  simp [Sys.fill, h]

theorem Sys.fill_of_not_valid {i : Idx} (h : (s.buf i).valid = false) (p : Nat) : s.fill p i =
    (s.setBuf i fun bf => { bf with data := s.disk bf.blockno, valid := true }).setPending p
      .none := by
  simp [Sys.fill, h]

theorem Sys.fill_self {i : Idx} (h : (s.buf i).valid = false) (p : Nat) : (s.fill p i).buf i =
    { s.buf i with data := s.disk (s.buf i).blockno, valid := true } := by
  rw [Sys.fill_of_not_valid h]
  simp

theorem Sys.fill_own {i : Idx} (hi : (s.buf i).holder = some p) (hp : s.pending p = .load i) :
    Own p i s (s.fill p i) := by
  by_cases hv : (s.buf i).valid = true
  · rw [Sys.fill_of_valid hv]
    exact ⟨hi, hv, ⟨rfl, rfl, rfl, rfl⟩, fun _ _ => ⟨rfl, rfl⟩, rfl, .inr ⟨hp, rfl⟩, rfl, rfl, rfl⟩
  · rw [Bool.not_eq_true] at hv
    have hself := Sys.fill_self hv p
    have hfill := Sys.fill_of_not_valid hv p
    refine ⟨hi, by rw [hself], by grind, fun j hj => ?_,
      by rw [hfill]; rfl, .inr ⟨hp, by rw [hfill]; rfl⟩, by rw [hfill]; rfl, by rw [hfill]; rfl,
      by rw [hfill]; rfl⟩
    rw [hfill, Sys.setPending_buf, Sys.setBuf_other s _ hj]
    exact ⟨rfl, rfl⟩

theorem Sys.fill_fields (s : Sys) (p : Nat) (i : Idx) : (s.fill p i).disk = s.disk ∧
    (s.fill p i).flat = s.flat ∧ (s.fill p i).dirty = s.dirty ∧
    (s.fill p i).pinned = s.pinned := by
  unfold Sys.fill
  split <;> exact ⟨rfl, rfl, rfl, rfl⟩

theorem Coherent.fill (h : Coherent dev s) {i : Idx} (hi : (s.buf i).holder = some p)
    (hp : s.pending p = .load i) (hroot : (s.buf i).dev = ROOTDEV) :
    Coherent dev (s.fill p i) := by
  by_cases hv : (s.buf i).valid = true
  · rw [Sys.fill_of_valid hv]
    exact ⟨h.unique, h.cached, h.home, h.log, h.disk, h.dirty⟩
  rw [Bool.not_eq_true] at hv
  have hself := Sys.fill_self hv p
  have hown := Sys.fill_own hi hp
  obtain ⟨hdisk, hflat, hdirty, hpinned⟩ := s.fill_fields p i
  have hdev : ∀ j, ((s.fill p i).buf j).dev = (s.buf j).dev ∧
      ((s.fill p i).buf j).blockno = (s.buf j).blockno := by
    grind [Own.self, Own.other]
  refine ⟨fun j k hj hk hb => ?_, fun b hb => ?_, fun j hj hvj ha hd => ?_,
    fun j hj hvj ha hd => ?_, fun b hb hp => ?_, fun j hd => ?_⟩
  · grind [unique]
  · obtain ⟨j, hj, hjb, hvj⟩ := h.cached b (hpinned ▸ hb)
    grind [Own.other]
  · grind [cached, unique, disk, Own.other, home]
  · grind [Own.other, log]
  · rw [hdisk, hflat]
    exact h.disk b hb (hpinned ▸ hp)
  grind [dirty, Own.self, Own.other]

theorem Inv.fill (h : Inv dev s) {i : Idx} (hi : (s.buf i).holder = some p)
    (hp : s.pending p = .load i) : Inv dev (s.fill p i) where
  refs := (Sys.fill_own hi hp).refs h.refs
  coherent := h.coherent.fill hi hp (h.refs.held i (by simp [hi]))
  logOk := (Sys.fill_own hi hp).logOk h.logOk

theorem Sys.fill_has {i : Idx} {b : Nat} (h : Holds p i b s) (hp : s.pending p = .load i) :
    Has p i b (s.fill p i) := by
  have hown := Sys.fill_own h.holder hp
  obtain ⟨hd, hb, -, hh⟩ := hown.self
  refine ⟨⟨hh.trans h.holder, hd.trans h.root, hb.trans h.block, ?_⟩, hown.valid⟩
  rw [(s.fill_fields p i).2.2.1]
  exact h.clean

theorem Inv.data_of_has (h : Inv dev s) {i : Idx} {b : Nat} (hi : Has p i b s)
    (hb : ¬ dev.area b) : (s.buf i).data = s.flat b := by
  have hdata := h.coherent.home i hi.root hi.valid (hi.block ▸ hb) hi.clean
  rw [hi.block] at hdata
  exact hdata

-- bread() returns the block as its users see it, and keeps what p knew.
theorem bread_triple (hP : Local p keep P)
    (hkeep : ∀ s i, P s → keep i → (s.buf i).holder = some p) (b : Nat) :
    (rely dev).Triple p (fun s => P s ∧ s.pending p = .none) (bread p ROOTDEV b)
      (fun i s => (P s ∧ Has p i b s) ∧ s.pending p = .none ∧ ¬ keep i) := by
  refine Rely.Triple.bind (bget_triple hP b) fun i => ?_
  refine Rely.Triple.bind (acquiresleep_triple hP hkeep i b) fun _ => ?_
  have hpure : ∀ x, (rely dev).Stable p fun s => s.pending p = x ∧ ¬ keep i :=
    fun x => (stable_pending x).and fun _ _ _ _ _ h => h
  have hhas : (rely dev).Stable p fun s => (P s ∧ Has p i b s) ∧ s.pending p = .none ∧ ¬ keep i :=
    (hP.and (local_has i b)).stable.and (hpure .none)
  refine Rely.Triple.bind (M := fun _ s => (P s ∧ Has p i b s) ∧ s.pending p = .none ∧ ¬ keep i)
    (Rely.Triple.modify ((hP.and (local_holds i b)).stable.and (hpure (.load i))) hhas ?_)
    fun _ => ?_
  · rintro s hs ⟨⟨hPs, hi⟩, hload, hk⟩ -
    have hown := Sys.fill_own hi.holder hload
    obtain ⟨hdisk, hflat, -, -⟩ := s.fill_fields p i
    refine ⟨hs.fill hi.holder hload, hown.guar rfl hflat fun _ _ _ => hdisk, ⟨?_, ?_⟩,
      Function.update_self _ _ _, hk⟩
    · exact hP _ _ (hown.frame p (.inr hk) fun _ => ⟨hdisk, hflat⟩) hPs
    · exact Sys.fill_has hi hload
  · refine Rely.Triple.act hhas ?_
    rintro s t hs hpre - ht
    cases ht
    refine ⟨hs, ?_, fun hi => Rely.Triple.ret hhas _ hi hpre⟩
    refine ⟨fun q _ => .refl q s, fun _ _ => rfl, fun _ _ _ _ => ⟨rfl, rfl⟩, fun c j he => ?_,
      rfl, rfl⟩
    cases he
    have hi := hpre.1.2
    exact ⟨hi.block, hi.root, hi.holder, fun hb => hs.data_of_has hi hb⟩

theorem Sys.unlock_buf (s : Sys) (p : Nat) (i j : Idx) : (s.unlock p i).buf j =
    if j = i then { s.buf i with holder := none } else s.buf j := by
  simp [Sys.unlock, Sys.setBuf_buf]

theorem Sys.unlock_quiet (s : Sys) (p : Nat) (i : Idx) : Quiet s (s.unlock p i) := by
  refine ⟨fun j => ?_, rfl, rfl, rfl, rfl, rfl, rfl⟩
  grind [unlock_buf]

theorem Inv.unlock (h : Inv dev s) {i : Idx} {b : Nat} (hp : s.pending p = .none)
    (hi : Holds p i b s) : Inv dev (s.unlock p i) := by
  have hq := s.unlock_quiet p i
  refine ⟨?_, hq.coherent h.coherent fun j hj => ?_, hq.logOk h.logOk⟩
  · refine h.refs.one (t := s.unlock p i) (i := i) (fun j hj => by rw [Sys.unlock_buf, if_neg hj])
      h.refs.listed ?_ (fun _ _ _ => rfl) ?_ (fun _ => (hq.data i).2.1.trans hi.root) fun q hq => ?_
    · exact pending_update (.inl hp) (.inr (.inl rfl))
    · obtain ⟨n, hn, hcount⟩ := h.refs.count i
      refine ⟨n + 1, hn.add (by simp [hp]), ?_⟩
      rw [Sys.unlock_buf, if_pos rfl]
      simp only [hcount, hi.holder, if_true, reduceCtorEq, if_false, Nat.cast_add, Nat.cast_one]
      rw [show (s.unlock p i).pinned = s.pinned from rfl]
      omega
    · rw [Sys.unlock_buf, if_pos rfl] at hq
      cases hq
  · have hji : j ≠ i := by
      rintro rfl
      rw [show (s.unlock p j).dirty = s.dirty from rfl, hi.clean] at hj
      cases hj
    rw [Sys.unlock_buf, if_neg hji]
    exact h.coherent.dirty j hj

theorem Sys.release_buf (s : Sys) (p : Nat) (i j : Idx) : (s.release p i).buf j =
    if j = i then { s.buf i with refcnt := (s.buf i).refcnt - 1 } else s.buf j := by
  unfold Sys.release
  dsimp only
  split <;> simp [Sys.decref, Sys.setBuf_buf]

theorem Sys.release_pending (s : Sys) (p : Nat) (i : Idx) :
    (s.release p i).pending = Function.update s.pending p .none := by
  unfold Sys.release
  dsimp only
  split <;> rfl

theorem Sys.release_quiet (s : Sys) (p : Nat) (i : Idx) : Quiet s (s.release p i) := by
  refine ⟨fun j => ?_, ?_, ?_, ?_, ?_, ?_, ?_⟩
  · grind [release_buf]
  all_goals
    unfold Sys.release
    dsimp only
    split <;> rfl

theorem Sys.release_holder (s : Sys) (p : Nat) (i j : Idx) :
    ((s.release p i).buf j).holder = (s.buf j).holder := by
  grind [release_buf]

theorem Refs.mem_release (h : Refs s) (p : Nat) (i j : Idx) : j ∈ (s.release p i).lru := by
  have hj := h.listed j
  unfold Sys.release
  dsimp only
  split
  · by_cases hji : j = i
    · exact hji ▸ List.mem_cons_self
    · exact List.mem_cons_of_mem _ ((List.mem_erase_of_ne hji).mpr hj)
  · exact hj

theorem Inv.release (h : Inv dev s) {i : Idx} (hp : s.pending p = .ref i) :
    Inv dev (s.release p i) := by
  have hq := s.release_quiet p i
  refine ⟨?_, hq.coherent h.coherent fun j hj => ?_, hq.logOk h.logOk⟩
  · refine h.refs.one (t := s.release p i) (i := i)
      (fun j hj => by rw [Sys.release_buf, if_neg hj])
      (h.refs.mem_release p i) ?_ (fun _ _ _ => by rw [hq.pinned]) ?_
      (fun _ => (hq.data i).2.1.trans (h.refs.waits p i hp)) fun q hh => ?_
    · rw [Sys.release_pending]
      grind
    · obtain ⟨n, hn, hcount⟩ := h.refs.count i
      have hpos := hn.pos hp
      refine ⟨n - 1, ?_, ?_⟩
      · rw [Sys.release_pending]
        exact hn.remove hp (by simp)
      · rw [hq.pinned, Sys.release_buf, if_pos rfl]
        simp only [hcount]
        omega
    · rw [Sys.release_holder] at hh
      rw [Sys.release_pending, (hq.data i).1]
      exact loaded_update (h.refs.loaded q i hh) hp (by simp)
  · rw [Sys.release_holder]
    exact h.coherent.dirty j (hq.dirty ▸ hj)

-- brelse() of a buffer that needs no more logging keeps what p knew of others.
theorem brelse_triple (hP : Local p keep P) {i : Idx} (hk : ¬ keep i) (b : Nat) :
    (rely dev).Triple p (fun s => (P s ∧ Holds p i b s) ∧ s.pending p = .none) (brelse p i)
      (fun _ s => P s ∧ s.pending p = .none) := by
  refine Rely.Triple.bind (M := fun _ s => P s ∧ Waits p i b s) ?_ fun _ => ?_
  · refine Rely.Triple.atomic ((hP.and (local_holds i b)).stable.and (stable_pending .none))
      (fun _ => hP.stable.and (stable_waits i b)) ?_
    rintro s hs ⟨⟨hPs, hi⟩, hnone⟩ -
    have hq := s.unlock_quiet p i
    have hother : ∀ j q, (s.buf j).holder = some q → j ≠ i →
        ((s.unlock p i).buf j).holder = some q := by
      intro j q hj hji
      rw [Sys.unlock_buf, if_neg hji]
      exact hj
    simp only [hi.holder, if_true]
    refine ⟨hs.unlock hnone hi, ?_, fun _ _ => ⟨?_, ?_⟩⟩
    · refine hq.guar rfl (fun q j hqp hj => hother j q hj ?_)
        (fun q hqp => Function.update_of_ne hqp _ _)
      rintro rfl
      exact hqp (Option.some.inj (hj.symm.trans hi.holder))
    · refine hP _ _ (hq.frame p fun j hkj hj => hother j p hj ?_) hPs
      rintro rfl
      exact hk hkj
    · exact ⟨Function.update_self _ _ _, (hq.data i).2.1.trans hi.root,
        (hq.data i).2.2.1.trans hi.block⟩
  · refine Rely.Triple.modify (hP.stable.and (stable_waits i b))
      (hP.stable.and (stable_pending .none)) ?_
    rintro s hs ⟨hPs, hw, -, -⟩ -
    have hq := s.release_quiet p i
    refine ⟨hs.release hw, ?_, ?_, ?_⟩
    · refine hq.guar rfl (fun q j _ hj => (s.release_holder p i j).trans hj) ?_
      intro q hqp
      rw [Sys.release_pending, Function.update_of_ne hqp]
    · exact hP _ _ (hq.frame p fun j _ hj => (s.release_holder p i j).trans hj) hPs
    · rw [Sys.release_pending, Function.update_self]

end Xv6.Bio
