import Xv6.Log.System
import Mathlib.Tactic.IntervalCases

namespace Xv6.Log

-- Who is inside an operation and who commits, against the counters that
-- log.lock protects.
structure Control (s : Sys) : Prop where
  ops : ∃ ops : Finset Nat, (∀ p, p ∈ ops ↔ s.pc p = .inOp) ∧ s.st.outstanding = ops.card
  quiet : s.st.committing = true → s.st.outstanding = 0
  committer : ∀ p stage, s.pc p = .commit stage → s.st.committing = true
  single : ∀ p q stage stage', s.pc p = .commit stage → s.pc q = .commit stage' → p = q

theorem Control.one_le {s : Sys} (h : Control s) {p : Nat} (hp : s.pc p = .inOp) :
    1 ≤ s.st.outstanding := by
  obtain ⟨ops, hmem, hcard⟩ := h.ops
  have hpos := Finset.card_pos.mpr ⟨p, (hmem p).mpr hp⟩
  omega

theorem Control.not_committing {s : Sys} (h : Control s) {p : Nat} (hp : s.pc p = .inOp) :
    s.st.committing = false := by
  have hpos := h.one_le hp
  have hq := h.quiet
  cases hc : s.st.committing with
  | false => rfl
  | true => have := hq hc; omega

theorem Control.outstanding_eq_zero {s : Sys} (h : Control s) {p : Nat} {stage : CommitPc}
    (hp : s.pc p = .commit stage) : s.st.outstanding = 0 :=
  h.quiet (h.committer p stage hp)

theorem Control.goto {s : Sys} (h : Control s) {p : Nat} {pc : Pc} (hold : s.pc p ≠ .inOp)
    (hin : pc ≠ .inOp) (hc : ∀ stage, pc = .commit stage → ∃ stage', s.pc p = .commit stage') :
    Control (s.goto p pc) := by
  obtain ⟨ops, hmem, hcard⟩ := h.ops
  have hback : ∀ q stage, (s.goto p pc).pc q = .commit stage → ∃ stage', s.pc q = .commit stage' := by
    intro q stage hq
    rw [Sys.goto_pc] at hq
    split at hq
    · rename_i he
      subst he
      exact hc stage hq
    · exact ⟨stage, hq⟩
  refine ⟨⟨ops, fun q => ?_, hcard⟩, h.quiet, ?_, ?_⟩
  · rw [hmem, Sys.goto_pc]
    split
    · rename_i he
      subst he
      simp [hold, hin]
    · rfl
  · intro q stage hq
    obtain ⟨stage', hq'⟩ := hback q stage hq
    exact h.committer q stage' hq'
  · intro q r stage stage' hq hr
    obtain ⟨_, hq'⟩ := hback q stage hq
    obtain ⟨_, hr'⟩ := hback r stage' hr
    exact h.single q r _ _ hq' hr'

theorem Control.wakeup {s : Sys} (h : Control s) : Control s.wakeup where
  ops := by
    obtain ⟨ops, hmem, hcard⟩ := h.ops
    exact ⟨ops, fun p => (hmem p).trans (s.wakeup_inOp p).symm, hcard⟩
  quiet := h.quiet
  committer := fun p stage hp => h.committer p stage ((s.wakeup_commit p stage).mp hp)
  single := fun p q stage stage' hp hq =>
    h.single p q stage stage' ((s.wakeup_commit p stage).mp hp) ((s.wakeup_commit q stage').mp hq)

theorem State.endOp_ok {st st' : State} {doCommit : Bool} (h : st.endOp = .ok (st', doCommit)) :
    st.committing = false ∧ st' = { st with
      outstanding := st.outstanding - 1, committing := decide (st.outstanding - 1 = 0) } ∧
      doCommit = decide (st.outstanding - 1 = 0) := by
  unfold State.endOp at h
  split at h
  · cases h
  · rename_i hc
    split at h
    · rename_i ho
      cases h
      simp [hc, ho]
    · rename_i ho
      cases h
      simp [hc, ho]

theorem State.logWrite_ok {dev : Dev} {st st' : State} {b : Nat} (h : st.logWrite dev b = .ok st') :
    st'.outstanding = st.outstanding ∧ st'.committing = st.committing ∧
      st'.lh = (if b ∈ st.lh then st.lh else st.lh ++ [b]) := by
  unfold State.logWrite at h
  split at h
  · cases h
  · split at h
    · cases h
    · split at h <;> cases h <;> simp_all

theorem Control.leave {s : Sys} (h : Control s) {p : Nat} (hp : s.pc p = .inOp) {st : State}
    (hout : st.outstanding = s.st.outstanding - 1)
    (hcom : st.committing = decide (st.outstanding = 0)) {pc : Pc} (hin : pc ≠ .inOp)
    (hc : ∀ stage, pc = .commit stage → st.committing = true) :
    Control ({ s with st := st }.goto p pc) := by
  obtain ⟨ops, hmem, hcard⟩ := h.ops
  have hfree := h.not_committing hp
  have hnone : ∀ q stage, s.pc q ≠ .commit stage := by
    intro q stage hq
    simp [h.committer q stage hq] at hfree
  refine ⟨⟨ops.erase p, fun q => ?_, ?_⟩, ?_, ?_, ?_⟩
  · rw [Finset.mem_erase, hmem, Sys.goto_pc]
    by_cases he : q = p
    · subst he
      simp [hin]
    · simp [he]
  · rw [Finset.card_erase_of_mem ((hmem p).mpr hp)]
    have hpos := Finset.card_pos.mpr ⟨p, (hmem p).mpr hp⟩
    simp only [Sys.goto_st, hout, hcard]
    omega
  · intro hcc
    simpa [hcom] using hcc
  · intro q stage hq
    rw [Sys.goto_pc] at hq
    split at hq
    · exact hc stage hq
    · exact absurd hq (hnone q stage)
  · intro q r stage stage' hq hr
    rw [Sys.goto_pc] at hq hr
    split at hq
    · split at hr
      · rename_i he he'
        rw [he, he']
      · exact absurd hr (hnone r stage')
    · exact absurd hq (hnone q stage)

theorem Control.move {dev : Dev} {s t : Sys} {p : Nat} {events : List Event} (h : Control s)
    (hm : Move dev s p events t) : Control t := by
  cases hm with
  | call hp => exact h.goto (by simp [hp]) (by simp) (by simp)
  | sleep hp => exact h.goto (by simp [hp]) (by simp) (by simp)
  | kill hp => exact h.goto (by simp [hp]) (by simp) (by simp)
  | begin hp ha =>
    obtain ⟨ops, hmem, hcard⟩ := h.ops
    have hfree : s.st.committing = false := by
      simp only [State.admits, Bool.and_eq_true, Bool.not_eq_true'] at ha
      exact ha.1
    have hnot : p ∉ ops := by rw [hmem]; simp [hp]
    refine ⟨⟨insert p ops, fun q => ?_, ?_⟩, ?_, ?_, ?_⟩
    · rw [Finset.mem_insert, hmem, Sys.goto_pc]
      by_cases he : q = p <;> simp [he]
    · rw [Finset.card_insert_of_notMem hnot]
      simp [hcard]
    · intro hc
      simp [hfree] at hc
    · intro q stage hq
      rw [Sys.goto_pc] at hq
      split at hq
      · cases hq
      · exact h.committer q stage hq
    · intro q r stage stage' hq hr
      rw [Sys.goto_pc] at hq hr
      split at hq
      · cases hq
      · split at hr
        · cases hr
        · exact h.single q r _ _ hq hr
  | logWrite b hp hst =>
    obtain ⟨hout, hcom, -⟩ := State.logWrite_ok hst
    exact ⟨by simpa [hout] using h.ops, by simpa [hout, hcom] using h.quiet,
      by simpa [hcom] using h.committer, h.single⟩
  | logWritePanic b hp hst => exact ⟨h.ops, h.quiet, h.committer, h.single⟩
  | endOpPanic hp hst => exact ⟨h.ops, h.quiet, h.committer, h.single⟩
  | endOpCommit hp hst =>
    obtain ⟨-, rfl, hdo⟩ := State.endOp_ok hst
    exact h.leave hp rfl rfl (by simp) (fun _ _ => hdo.symm)
  | endOp hp hst =>
    obtain ⟨-, rfl, -⟩ := State.endOp_ok hst
    exact (h.leave hp rfl rfl (by simp) (by simp)).wakeup
  | commit stage hp =>
    have hgo : ∀ next, Control (s.goto p (.commit next)) := fun next =>
      h.goto (by simp [hp]) (by simp) (fun _ _ => ⟨stage, hp⟩)
    cases stage with
    | test => exact hgo _
    | writeLog tail => exact hgo _
    | writeHead => exact hgo _
    | installTrans tail => exact hgo _
    | erase =>
      have hn := hgo .writeErased
      exact ⟨hn.ops, hn.quiet, hn.committer, hn.single⟩
    | writeErased => exact hgo _
    | finish =>
      apply Control.wakeup
      have hn : Control (s.goto p .idle) := h.goto (by simp [hp]) (by simp) (by simp)
      refine ⟨hn.ops, by simp, fun q stage hq => ?_, hn.single⟩
      -- the committer was the only one, and it has left
      rw [Sys.goto_pc] at hq
      split at hq
      · cases hq
      · rename_i hne
        exact absurd (h.single q p _ _ hq hp) hne

theorem Reach.control {dev : Dev} {hist : List Event} {s : Sys} (h : Reach dev hist s) :
    Control s := by
  induction h with
  | init => exact ⟨⟨∅, by simp [Sys.init], rfl⟩, by simp [Sys.init], by simp [Sys.init], by simp [Sys.init]⟩
  | step _ hs ih => exact ih.move (Sys.step_move hs).2

-- The operation that begins at position i is still running at the end.
def Open (hist : List Event) (p i : Nat) : Prop :=
  hist[i]? = some (.begin p) ∧ ∀ k, i < k → hist[k]? ≠ some (.endOp p)

-- No transaction commits after position i.
def Uncommitted (hist : List Event) (i : Nat) : Prop :=
  ∀ k blocks, i < k → hist[k]? ≠ some (.commit blocks)

theorem getElem?_snoc {α : Type} (l : List α) (x y : α) (k : Nat) :
    (l ++ [x])[k]? = some y ↔ l[k]? = some y ∨ (k = l.length ∧ x = y) := by
  rcases Nat.lt_trichotomy k l.length with hk | hk | hk
  · rw [List.getElem?_append_left hk]
    simp [Nat.ne_of_lt hk]
  · subst hk
    simp
  · rw [List.getElem?_eq_none (by simp; omega), List.getElem?_eq_none (by omega)]
    simp
    omega

theorem lt_of_getElem? {α : Type} {l : List α} {x : α} {k : Nat} (h : l[k]? = some x) :
    k < l.length := (List.getElem?_eq_some_iff.mp h).1

theorem open_snoc {hist : List Event} {e : Event} {p i : Nat} (h : Open (hist ++ [e]) p i) :
    (Open hist p i ∧ e ≠ .endOp p) ∨ (i = hist.length ∧ e = .begin p) := by
  obtain ⟨hb, he⟩ := h
  rcases (getElem?_snoc _ _ _ _).mp hb with hb | hb
  · refine .inl ⟨⟨hb, fun k hk hn => he k hk ((getElem?_snoc _ _ _ _).mpr (.inl hn))⟩, ?_⟩
    intro hn
    exact he hist.length (lt_of_getElem? hb) ((getElem?_snoc _ _ _ _).mpr (.inr ⟨rfl, hn⟩))
  · exact .inr hb

theorem uncommitted_snoc {hist : List Event} {e : Event} {i : Nat}
    (he : ∀ blocks, e ≠ .commit blocks) :
    Uncommitted (hist ++ [e]) i ↔ Uncommitted hist i := by
  constructor
  · intro h k blocks hk hn
    exact h k blocks hk ((getElem?_snoc _ _ _ _).mpr (.inl hn))
  · intro h k blocks hk hn
    rcases (getElem?_snoc _ _ _ _).mp hn with hn | ⟨-, hn⟩
    · exact h k blocks hk hn
    · exact he blocks hn

theorem uncommitted_last {hist : List Event} {i : Nat} (hi : hist.length ≤ i + 1) :
    Uncommitted hist i := by
  intro k blocks hk hn
  have := lt_of_getElem? hn
  omega

-- The stages of commit() after the first write_head().
def CommitPc.written : CommitPc → Bool
  | .installTrans _ => true
  | .erase => true
  | .writeErased => true
  | _ => false

-- What the history says of the transaction that is being gathered.
structure Gathering (hist : List Event) (s : Sys) : Prop where
  opened : ∀ p i, Open hist p i → s.pc p = .inOp ∧ Uncommitted hist i
  current : s.panicked = none → ∀ j p b, hist[j]? = some (.logWrite p b) →
    Uncommitted hist j → b ∈ s.st.lh
  written : ∀ p stage, s.pc p = .commit stage → stage.written = true →
    ∀ j q b, hist[j]? = some (.logWrite q b) → ¬Uncommitted hist j

-- What the history says of the transactions so far: no operation has a commit
-- inside it, and a commit has every block logged since the one before.
structure Grouped (hist : List Event) : Prop where
  whole : ∀ p i j : Nat, hist[i]? = some (.begin p) → i < j → j < hist.length →
    (∀ k : Nat, i < k → k < j → hist[k]? ≠ some (.endOp p)) →
    ∀ (k : Nat) (blocks : List Nat), i < k → k < j → hist[k]? ≠ some (.commit blocks)
  included : ∀ (j k p b : Nat) (blocks : List Nat), hist[j]? = some (.logWrite p b) → j < k →
    hist[k]? = some (.commit blocks) →
    (∀ (l : Nat) (blocks' : List Nat), j < l → l < k → hist[l]? ≠ some (.commit blocks')) →
    b ∈ blocks

theorem Gathering.silent {hist : List Event} {s t : Sys} (h : Gathering hist s)
    (hin : ∀ p, s.pc p = .inOp → t.pc p = .inOp)
    (hlh : ∀ b ∈ s.st.lh, b ∈ t.st.lh) (hpanic : s.panicked = none)
    (hw : ∀ p stage, t.pc p = .commit stage → stage.written = true →
      ∃ q stage', s.pc q = .commit stage' ∧ stage'.written = true) : Gathering hist t where
  opened := fun p i ho => ⟨hin p (h.opened p i ho).1, (h.opened p i ho).2⟩
  current := fun _ j p b hj hu => hlh b (h.current hpanic j p b hj hu)
  written := by
    intro p stage hp hs
    obtain ⟨q, stage', hq, hs'⟩ := hw p stage hp hs
    exact h.written q stage' hq hs'

theorem Gathering.shown {hist : List Event} {s t : Sys} {e : Event} (h : Gathering hist s)
    (he : ∀ blocks, e ≠ .commit blocks) (hpanic : s.panicked = none)
    (hin : ∀ p, s.pc p = .inOp → e ≠ .endOp p → t.pc p = .inOp)
    (hbegin : ∀ p, e = .begin p → t.pc p = .inOp)
    (hlog : t.panicked = none → ∀ p b, e = .logWrite p b → b ∈ t.st.lh)
    (hlh : ∀ b ∈ s.st.lh, b ∈ t.st.lh)
    (hw : ∀ p stage, t.pc p = .commit stage → stage.written = false) :
    Gathering (hist ++ [e]) t where
  opened := by
    intro p i ho
    rcases open_snoc ho with ⟨ho, hn⟩ | ⟨rfl, hb⟩
    · obtain ⟨hp, hu⟩ := h.opened p i ho
      exact ⟨hin p hp hn, (uncommitted_snoc he).mpr hu⟩
    · exact ⟨hbegin p hb, uncommitted_last (by simp)⟩
  current := by
    intro ht j p b hj hu
    rcases (getElem?_snoc _ _ _ _).mp hj with hj | ⟨-, hj⟩
    · exact hlh b (h.current hpanic j p b hj ((uncommitted_snoc he).mp hu))
    · exact hlog ht p b hj
  written := by
    intro p stage hp hs
    rw [hw p stage hp] at hs
    cases hs

theorem Gathering.move {dev : Dev} {hist events : List Event} {s t : Sys} {p : Nat}
    (hc : Control s) (hpanic : s.panicked = none) (h : Gathering hist s)
    (hm : Move dev s p events t) : Gathering (hist ++ events) t := by
  have hfree : s.pc p = .inOp → ∀ q stage, s.pc q ≠ .commit stage := by
    intro hp q stage hq
    have hq := hc.committer q stage hq
    rw [hc.not_committing hp] at hq
    cases hq
  cases hm with
  | call hp =>
    rw [List.append_nil]
    refine h.silent ?_ (fun _ hb => hb) hpanic ?_ <;> simp only [Sys.goto_pc] <;> grind
  | sleep hp =>
    rw [List.append_nil]
    refine h.silent ?_ (fun _ hb => hb) hpanic ?_ <;> simp only [Sys.goto_pc] <;> grind
  | kill hp =>
    rw [List.append_nil]
    refine h.silent ?_ (fun _ hb => hb) hpanic ?_ <;> simp only [Sys.goto_pc] <;> grind
  | begin hp ha =>
    have hnone : ∀ q stage, s.pc q ≠ .commit stage := by
      intro q stage hq
      simp [State.admits, hc.committer q stage hq] at ha
    refine h.shown (by simp) hpanic ?_ ?_ (by simp) (fun _ hb => hb) ?_ <;>
      simp only [Sys.goto_pc] <;> grind
  | logWrite b hp hst =>
    obtain ⟨-, -, hlh⟩ := State.logWrite_ok hst
    refine h.shown (by simp) hpanic (fun _ hq _ => hq) (by simp) ?_ ?_ ?_
    · rintro - q c hq
      cases hq
      simp only [hlh]
      split <;> simp_all
    · intro c hcm
      simp only [hlh]
      split <;> simp [hcm]
    · exact fun q stage hq => absurd hq (hfree hp q stage)
  | logWritePanic b hp hst =>
    exact h.shown (by simp) hpanic (fun _ hq _ => hq) (by simp) (by simp) (fun _ hb => hb)
      (fun q stage hq => absurd hq (hfree hp q stage))
  | endOpPanic hp hst =>
    exact h.shown (by simp) hpanic (fun _ hq _ => hq) (by simp) (by simp) (fun _ hb => hb)
      (fun q stage hq => absurd hq (hfree hp q stage))
  | endOpCommit hp hst =>
    obtain ⟨-, rfl, -⟩ := State.endOp_ok hst
    have hfree := hfree hp
    refine h.shown (by simp) hpanic ?_ (by simp) (by simp) (fun _ hb => hb) ?_ <;>
      simp only [Sys.goto_pc] <;> grind [CommitPc.written]
  | endOp hp hst =>
    obtain ⟨-, rfl, -⟩ := State.endOp_ok hst
    refine h.shown (by simp) hpanic ?_ (by simp) (by simp) (fun _ hb => hb) ?_
    · intro q hq hne
      rw [Sys.wakeup_inOp, Sys.goto_pc]
      grind
    · intro q stage hq
      rw [Sys.wakeup_commit, Sys.goto_pc] at hq
      grind
  | commit stage hp =>
    have hzero := hc.outstanding_eq_zero hp
    have hnone : ∀ q, s.pc q ≠ .inOp := by
      intro q hq
      have := hc.one_le hq
      omega
    -- the stages that only move the program counter of the committer
    have hgo : ∀ next : CommitPc, (next.written = true → stage.written = true) →
        Gathering (hist ++ []) (s.goto p (.commit next)) := by
      intro next hw
      rw [List.append_nil]
      refine h.silent ?_ (fun _ hb => hb) hpanic ?_
      · exact fun q hq => absurd hq (hnone q)
      · intro q st hq hst
        rw [Sys.goto_pc] at hq
        split at hq
        · cases hq
          exact ⟨p, stage, hp, hw hst⟩
        · exact ⟨q, st, hq, hst⟩
    cases stage with
    | test => exact hgo _ (by split <;> simp [CommitPc.written])
    | writeLog tail => exact hgo _ (by split <;> simp [CommitPc.written])
    | installTrans tail => exact hgo _ (fun _ => rfl)
    | writeErased => exact hgo _ (by simp [CommitPc.written])
    | writeHead =>
      have hlast : ∀ j : Nat, j < hist.length → ¬Uncommitted (hist ++ [.commit s.st.lh]) j :=
        fun j hj hu => hu hist.length s.st.lh hj ((getElem?_snoc _ _ _ _).mpr (.inr ⟨rfl, rfl⟩))
      have hlt : ∀ j q b : Nat, (hist ++ [.commit s.st.lh])[j]? = some (.logWrite q b) →
          j < hist.length := by
        intro j q b hj
        rcases (getElem?_snoc _ _ _ _).mp hj with hj | ⟨-, hj⟩
        · exact lt_of_getElem? hj
        · cases hj
      refine ⟨fun q i ho => ?_, fun _ j q b hj hu => ?_, fun _ _ _ _ j q b hj => ?_⟩
      · rcases open_snoc ho with ⟨ho, -⟩ | ⟨-, hb⟩
        · exact absurd (h.opened q i ho).1 (hnone q)
        · cases hb
      · exact absurd hu (hlast j (hlt j q b hj))
      · exact hlast j (hlt j q b hj)
    | erase =>
      have hn := hgo .writeErased (fun _ => rfl)
      refine ⟨hn.opened, fun _ j q b hj hu => ?_, hn.written⟩
      rw [Sys.commitStep, List.append_nil] at hj hu
      exact absurd hu (h.written p .erase hp rfl j q b hj)
    | finish =>
      simp only [Sys.commitStep, List.append_nil]
      refine h.silent ?_ (fun _ hb => hb) hpanic ?_
      · exact fun q hq => absurd hq (hnone q)
      · intro q st hq hst
        rw [Sys.wakeup_commit, Sys.goto_pc] at hq
        split at hq
        · cases hq
        · exact ⟨q, st, hq, hst⟩

theorem Grouped.snoc {hist : List Event} {s : Sys} {e : Event} (h : Grouped hist)
    (hg : Gathering hist s) (hpanic : s.panicked = none)
    (he : ∀ blocks, e = .commit blocks → blocks = s.st.lh) : Grouped (hist ++ [e]) where
  whole := by
    intro p i j hi hij hj hopen k blocks hik hkj hk
    have hjl : j ≤ hist.length := by simpa [Nat.lt_succ_iff] using hj
    have hi : hist[i]? = some (.begin p) := by
      rwa [List.getElem?_append_left (by omega)] at hi
    have hk : hist[k]? = some (.commit blocks) := by
      rwa [List.getElem?_append_left (by omega)] at hk
    have hopen : ∀ l : Nat, i < l → l < j → hist[l]? ≠ some (.endOp p) := by
      intro l hil hlj
      have := hopen l hil hlj
      rwa [List.getElem?_append_left (by omega)] at this
    rcases Nat.lt_or_ge j hist.length with hlt | hge
    · exact h.whole p i j hi hij hlt hopen k blocks hik hkj hk
    · -- the operation is still open when the new event comes
      refine (hg.opened p i ⟨hi, fun l hil hl => ?_⟩).2 k blocks hik hk
      exact hopen l hil (by have := lt_of_getElem? hl; omega) hl
  included := by
    intro j k p b blocks hj hjk hk hno
    have hjl : j < hist.length := by
      have := lt_of_getElem? hk
      simp only [List.length_append, List.length_singleton] at this
      omega
    have hj : hist[j]? = some (.logWrite p b) := by
      rwa [List.getElem?_append_left hjl] at hj
    have hno : ∀ (l : Nat) (blocks' : List Nat), j < l → l < k → l < hist.length →
        hist[l]? ≠ some (.commit blocks') := by
      intro l blocks' hjl hlk hl
      have := hno l blocks' hjl hlk
      rwa [List.getElem?_append_left hl] at this
    rcases (getElem?_snoc _ _ _ _).mp hk with hold | ⟨rfl, hlast⟩
    · have hkl := lt_of_getElem? hold
      exact h.included j k p b blocks hj hjk hold fun l bl hl hlk => hno l bl hl hlk (by omega)
    · rw [he blocks hlast]
      refine hg.current hpanic j p b hj fun l bl hl hc => ?_
      have hll := lt_of_getElem? hc
      exact hno l bl hl hll hll hc

theorem Move.events_cases {dev : Dev} {s t : Sys} {p : Nat} {events : List Event}
    (h : Move dev s p events t) :
    events = [] ∨ ∃ e, events = [e] ∧ ∀ blocks, e = .commit blocks → blocks = s.st.lh := by
  cases h with
  | commit stage hp =>
    cases stage with
    | writeHead => exact .inr ⟨_, rfl, fun _ h => by cases h; rfl⟩
    | _ => exact .inl rfl
  | call | sleep | kill => exact .inl rfl
  | _ => exact .inr ⟨_, rfl, by simp⟩

theorem Reach.gathering {dev : Dev} {hist : List Event} {s : Sys} (h : Reach dev hist s) :
    Gathering hist s ∧ Grouped hist := by
  induction h with
  | init =>
    refine ⟨⟨?_, by simp, by simp⟩, ⟨by simp, by simp⟩⟩
    intro p i ho
    simp [Open] at ho
  | step h hs ih =>
    obtain ⟨hpanic, hm⟩ := Sys.step_move hs
    refine ⟨Gathering.move h.control hpanic ih.1 hm, ?_⟩
    rcases hm.events_cases with rfl | ⟨e, rfl, he⟩
    · simpa using ih.2
    · exact ih.2.snoc ih.1 hpanic he

theorem Move.committing {dev : Dev} {s t : Sys} {p : Nat} {events : List Event} (hc : Control s)
    (h : Move dev s p events t) (hcom : s.st.committing = true) :
    t.st.outstanding = s.st.outstanding ∧ ∀ b ∈ t.st.lh, b ∈ s.st.lh := by
  have hout : s.pc p ≠ .inOp := by
    intro hp
    rw [hc.not_committing hp] at hcom
    cases hcom
  cases h with
  | call | sleep | kill => exact ⟨rfl, fun _ hb => hb⟩
  | begin hp ha => simp [State.admits, hcom] at ha
  | logWrite _ hp | logWritePanic _ hp | endOpCommit hp | endOp hp | endOpPanic hp =>
    exact absurd hp hout
  | commit stage hp =>
    cases stage with
    | erase => exact ⟨rfl, by simp [Sys.commitStep, Sys.goto]⟩
    | _ => exact ⟨rfl, fun _ hb => hb⟩

theorem Reach.panicked {dev : Dev} {hist : List Event} {s : Sys} (h : Reach dev hist s) {msg : String}
    (hmsg : s.panicked = some msg) : msg = "too big a transaction" := by
  cases h with
  | init => cases hmsg
  | step h hs =>
    obtain ⟨hnone, hm⟩ := Sys.step_move hs
    have hc := h.control
    cases hm with
    | logWritePanic b hp hst =>
      simp only [Option.some.injEq] at hmsg
      subst hmsg
      have hone := hc.one_le hp
      unfold State.logWrite at hst
      split at hst
      · cases hst
        rfl
      · split at hst
        · omega
        · split at hst <;> cases hst
    | endOpPanic hp hst => simp [State.endOp, hc.not_committing hp] at hst; split at hst <;> cases hst
    | commit stage hp => cases stage <;> simp [Sys.commitStep, Sys.goto, Sys.wakeup, hnone] at hmsg
    | _ => simp [Sys.goto, Sys.wakeup, hnone] at hmsg

-- An operation is never split: no transaction commits between its begin_op()
-- and its end_op(), and the first one that commits after its begin_op() has
-- every block it logs. commit() runs only with no operation outstanding,
-- nothing is added while it runs, and the two panics about it are out of reach.
theorem group_commit {dev : Dev} {hist : List Event} {s : Sys} (h : Reach dev hist s) :
    (∀ p i j : Nat, hist[i]? = some (.begin p) → i < j → j < hist.length →
      (∀ k : Nat, i < k → k < j → hist[k]? ≠ some (.endOp p)) →
      ∀ (k : Nat) (blocks : List Nat), i < k → k < j → hist[k]? ≠ some (.commit blocks)) ∧
    (∀ (p i k : Nat) (blocks : List Nat), hist[i]? = some (.begin p) → i < k →
      hist[k]? = some (.commit blocks) →
      (∀ (l : Nat) (blocks' : List Nat), i < l → l < k → hist[l]? ≠ some (.commit blocks')) →
      ∀ j b : Nat, i < j → hist[j]? = some (.logWrite p b) →
        (∀ l : Nat, i < l → l < j → hist[l]? ≠ some (.endOp p)) → j < k ∧ b ∈ blocks) ∧
    (∀ p stage, s.pc p = .commit stage → s.st.committing = true ∧ s.st.outstanding = 0) ∧
    (∀ p act events t, s.step dev p act = some (events, t) → s.st.committing = true →
      t.st.outstanding = s.st.outstanding ∧ ∀ b ∈ t.st.lh, b ∈ s.st.lh) ∧
    s.panicked ≠ some "log.committing" ∧ s.panicked ≠ some "log_write outside of trans" := by
  have hc := h.control
  obtain ⟨-, hg⟩ := h.gathering
  refine ⟨hg.whole, ?_, ?_, ?_, ?_, ?_⟩
  · intro p i k blocks hi hik hk hno j b hij hj hopen
    have hjk : j < k := by
      rcases Nat.lt_trichotomy j k with hlt | rfl | hgt
      · exact hlt
      · rw [hj] at hk
        cases hk
      · exact absurd hk (hg.whole p i j hi hij (lt_of_getElem? hj) hopen k blocks hik hgt)
    exact ⟨hjk, hg.included j k p b blocks hj hjk hk fun l bl hl => hno l bl (by omega)⟩
  · intro p stage hp
    exact ⟨hc.committer p stage hp, hc.outstanding_eq_zero hp⟩
  · intro p act events t hs hcom
    exact (Sys.step_move hs).2.committing hc hcom
  · intro hp
    exact absurd (h.panicked hp) (by decide)
  · intro hp
    exact absurd (h.panicked hp) (by decide)

-- Two operations that overlap and commit together.
def twoOps : List (Nat × Act) :=
  [(0, .call), (0, .tryBegin), (1, .call), (1, .tryBegin), (0, .logWrite 46), (1, .logWrite 50),
    (0, .endOp), (1, .logWrite 46), (1, .endOp), (1, .commit), (1, .commit), (1, .commit),
    (1, .commit), (1, .commit)]

theorem group_commit_twoOps :
    ∃ s, Reach ⟨2, LOGSIZE⟩ [.begin 0, .begin 1, .logWrite 0 46, .logWrite 1 50, .endOp 0,
        .logWrite 1 46, .endOp 1, .commit [46, 50]] s ∧
      s.st.outstanding = 0 ∧ 50 ∈ [46, 50] := by
  refine ⟨_, Reach.run ⟨2, LOGSIZE⟩ twoOps (by decide), ?_, ?_⟩
  · exact ((group_commit (Reach.run ⟨2, LOGSIZE⟩ twoOps (by decide))).2.2.1 1 (.installTrans 0)
      (by decide)).2
  · refine ((group_commit (Reach.run ⟨2, LOGSIZE⟩ twoOps (by decide))).2.1 1 1 7 [46, 50]
      (by decide) (by decide) (by decide) ?_ 3 50 (by decide) (by decide) ?_).2
    · intro l blocks hl hl'
      interval_cases l <;> exact fun h => Event.noConfusion (Option.some.inj h)
    · intro l hl hl'
      interval_cases l
      decide

end Xv6.Log
