import Xv6.Log.GroupCommit

namespace Xv6.Log

-- A process sleeps in begin_op() only while somebody is to wake it up, and log.lh is
-- empty when nothing goes on.
structure Awake (s : Sys) : Prop where
  sleeping : ∀ p, s.pc p = .sleeping → s.st.committing = true ∨ 1 ≤ s.st.outstanding
  idle : s.st.outstanding = 0 → s.st.committing = false → s.st.lh = []
  erased : ∀ p stage, s.pc p = .commit stage → stage = .writeErased ∨ stage = .finish →
    s.st.lh = []

theorem State.admits_of_empty {st : State} (hout : st.outstanding = 0)
    (hcom : st.committing = false) (hlh : st.lh = []) : st.admits = true := by
  simp [admits, hout, hcom, hlh, MAXOPBLOCKS, LOGSIZE]

theorem Sys.wakeup_not_sleeping (s : Sys) (q : Nat) : s.wakeup.pc q ≠ .sleeping := by
  simp only [Sys.wakeup]
  split
  · simp
  · assumption

variable {s t : Sys} {p : Nat}

theorem Awake.goto (h : Awake s) {pc : Pc}
    (hsleep : pc = .sleeping → s.st.committing = true ∨ 1 ≤ s.st.outstanding)
    (herased : ∀ stage, pc = .commit stage → stage = .writeErased ∨ stage = .finish →
      s.st.lh = []) : Awake (s.goto p pc) := by
  refine ⟨fun q hq => ?_, h.idle, fun q stage hq hstage => ?_⟩
  · rw [Sys.goto_pc] at hq
    split at hq
    · exact hsleep hq
    · exact h.sleeping q hq
  · rw [Sys.goto_pc] at hq
    split at hq
    · exact herased stage hq hstage
    · exact h.erased q stage hq hstage

theorem Awake.of_busy (hbusy : s.st.committing = true ∨ 1 ≤ s.st.outstanding)
    (hnone : ∀ q stage, s.pc q = .commit stage → stage ≠ .writeErased ∧ stage ≠ .finish) :
    Awake s := by
  refine ⟨fun _ _ => hbusy, fun hout hcom => ?_, fun q stage hq hstage => ?_⟩
  · rcases hbusy with hbusy | hbusy
    · rw [hcom] at hbusy
      cases hbusy
    · omega
  · obtain ⟨hwrite, hfinish⟩ := hnone q stage hq
    exact absurd hstage (not_or.mpr ⟨hwrite, hfinish⟩)

theorem Awake.wakeup (hidle : s.st.outstanding = 0 → s.st.committing = false → s.st.lh = [])
    (herased : ∀ q stage, s.pc q = .commit stage → stage = .writeErased ∨ stage = .finish →
      s.st.lh = []) : Awake s.wakeup := by
  refine ⟨fun q hq => absurd hq (s.wakeup_not_sleeping q), hidle, fun q stage hq => ?_⟩
  exact herased q stage ((s.wakeup_commit q stage).mp hq)

theorem Control.not_commit (hc : Control s) (hcom : s.st.committing = false) (q : Nat)
    (stage : CommitPc) : s.pc q ≠ .commit stage := by
  intro hq
  rw [hc.committer q stage hq] at hcom
  cases hcom

theorem Awake.commitStep (hc : Control s) (h : Awake s) {stage : CommitPc}
    (hp : s.pc p = .commit stage) : Awake (s.commitStep p stage).2 := by
  have hcom := hc.committer p stage hp
  have hgo : ∀ next, (next = .writeErased ∨ next = .finish → s.st.lh = []) →
      Awake (s.goto p (.commit next)) := by
    intro next hnext
    refine h.goto nofun fun stage hstage => ?_
    cases hstage
    exact hnext
  cases stage with
  | test =>
    refine hgo _ fun hstage => ?_
    by_contra hne
    rw [if_pos (List.length_pos_iff.mpr hne)] at hstage
    simp at hstage
  | writeLog tail =>
    refine hgo _ fun hstage => ?_
    split at hstage <;> simp at hstage
  | installTrans tail =>
    refine hgo _ fun hstage => ?_
    split at hstage <;> simp at hstage
  | writeHead => exact hgo _ (by simp)
  | erase =>
    -- log.lh is empty from here on.
    exact ⟨fun _ _ => .inl hcom, fun _ _ => rfl, fun _ _ _ _ => rfl⟩
  | writeErased =>
    have hlh := h.erased p _ hp (.inl rfl)
    exact hgo _ fun _ => hlh
  | finish =>
    have hlh := h.erased p _ hp (.inr rfl)
    exact Awake.wakeup (fun _ _ => hlh) fun _ _ _ _ => hlh

theorem Awake.move {dev : Dev} {events : List Event} (hc : Control s) (h : Awake s)
    (hm : Move dev s p events t) : Awake t := by
  have hops : 0 ≤ s.st.outstanding := by
    obtain ⟨ops, -, hcard⟩ := hc.ops
    omega
  cases hm with
  | call hp | kill hp => exact h.goto (fun hpc => by cases hpc) fun _ hpc => by cases hpc
  | sleep hp ha =>
    refine h.goto (fun _ => ?_) fun _ hpc => by cases hpc
    by_contra hidle
    obtain ⟨hcom, hout⟩ := not_or.mp hidle
    have hzero : s.st.outstanding = 0 := by omega
    have hfree : s.st.committing = false := by simpa using hcom
    rw [State.admits_of_empty hzero hfree (h.idle hzero hfree)] at ha
    cases ha
  | begin hp ha =>
    have hfree : s.st.committing = false := by
      simp only [State.admits, Bool.and_eq_true, Bool.not_eq_true'] at ha
      exact ha.1
    refine Awake.goto (.of_busy (.inr ?_) fun q stage hq => ?_) (fun hpc => by cases hpc)
      fun _ hpc => by cases hpc
    · show 1 ≤ s.st.outstanding + 1
      omega
    · exact absurd hq (hc.not_commit hfree q stage)
  | @logWrite b hp st hst =>
    obtain ⟨hout, -, -⟩ := State.logWrite_ok hst
    refine .of_busy (.inr ?_) fun q stage hq => ?_
    · show 1 ≤ st.outstanding
      rw [hout]
      exact hc.one_le hp
    · exact absurd hq (hc.not_commit (hc.not_committing hp) q stage)
  | logWritePanic b hp hst => exact ⟨h.sleeping, h.idle, h.erased⟩
  | endOpPanic hp hst => exact ⟨h.sleeping, h.idle, h.erased⟩
  | endOpCommit hp hst =>
    obtain ⟨-, rfl, hdo⟩ := State.endOp_ok hst
    refine Awake.goto (.of_busy (.inl hdo.symm) fun q stage hq => ?_) (fun hpc => by cases hpc)
      fun stage hstage => ?_
    · exact absurd hq (hc.not_commit (hc.not_committing hp) q stage)
    · cases hstage
      simp
  | endOp hp hst =>
    obtain ⟨-, rfl, hdo⟩ := State.endOp_ok hst
    have hnone := hc.not_commit (hc.not_committing hp)
    refine Awake.wakeup (fun hout _ => ?_) fun q stage hq => ?_
    · simp only [Sys.goto_st] at hout
      simp [hout] at hdo
    · rw [Sys.goto_pc] at hq
      split at hq
      · cases hq
      · exact absurd hq (hnone q stage)
  | commit stage hp => exact h.commitStep hc hp

theorem Reach.awake {dev : Dev} {hist : List Event} (h : Reach dev hist s) : Awake s := by
  induction h with
  | init => exact ⟨nofun, fun _ _ => rfl, nofun⟩
  | step h hs ih => exact ih.move h.control (Sys.step_move hs).2

-- A process that is SLEEPING in begin_op() waits for a commit or for an operation to
-- end. When there is neither, log.lh is empty and begin_op() goes on.
theorem nobody_waits_for_idle_log {dev : Dev} {hist : List Event} (h : Reach dev hist s) :
    (∀ p, s.pc p = .sleeping → s.st.committing = true ∨ 1 ≤ s.st.outstanding) ∧
    (s.st.outstanding = 0 → s.st.committing = false → s.st.lh.length = 0 ∧ s.st.admits = true) := by
  refine ⟨h.awake.sleeping, fun hout hcom => ?_⟩
  have hlh := h.awake.idle hout hcom
  exact ⟨by rw [hlh]; rfl, State.admits_of_empty hout hcom hlh⟩

-- Three operations leave no room for a fourth, which sleeps.
theorem nobody_waits_for_idle_log_fourth :
    ∃ hist s, Reach ⟨2, LOGSIZE⟩ hist s ∧ s.pc 3 = .sleeping ∧
      (s.st.committing = true ∨ 1 ≤ s.st.outstanding) := by
  have hr := Reach.run ⟨2, LOGSIZE⟩
    ([0, 1, 2, 3].flatMap fun p => [(p, .call), (p, .tryBegin)]) (by decide)
  exact ⟨_, _, hr, by decide, (nobody_waits_for_idle_log hr).1 3 (by decide)⟩

end Xv6.Log
