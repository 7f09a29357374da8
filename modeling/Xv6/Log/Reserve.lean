import Xv6.Log.GroupCommit
import Mathlib.Data.Finset.Dedup

namespace Xv6.Log

-- The blocks that the operations since the last commit have logged.
def sinceCommit (hist : List Event) : List Nat :=
  hist.foldl (fun blocks e =>
    match e with
    | .logWrite _ b => blocks ++ [b]
    | .commit _ => []
    | _ => blocks) []

-- The blocks logged by the operation of p that begins at position i.
def opBlocks (hist : List Event) (p i : Nat) : List Nat :=
  ((hist.drop (i + 1)).takeWhile fun e => e ≠ .endOp p).filterMap fun e =>
    match e with
    | .logWrite q b => if q = p then some b else none
    | _ => none

-- Every operation keeps to its share of the log.
def OpsFit (hist : List Event) : Prop :=
  ∀ p i : Nat, hist[i]? = some (.begin p) → (opBlocks hist p i).toFinset.card ≤ MAXOPBLOCKS

instance (hist : List Event) : Decidable (OpsFit hist) :=
  decidable_of_iff
    (∀ i ∈ List.range hist.length,
      (match hist[i]? with
      | some (.begin p) => decide ((opBlocks hist p i).toFinset.card ≤ MAXOPBLOCKS)
      | _ => true) = true) (by
    constructor
    · intro h p i hi
      have hfits := h i (List.mem_range.mpr (lt_of_getElem? hi))
      rw [hi] at hfits
      simpa using hfits
    · intro h i _
      split
      · exact decide_eq_true (h _ i ‹_›)
      · rfl)

@[simp] theorem sinceCommit_logWrite (hist : List Event) (p b : Nat) :
    sinceCommit (hist ++ [.logWrite p b]) = sinceCommit hist ++ [b] := by
  simp [sinceCommit]

@[simp] theorem sinceCommit_commit (hist : List Event) (blocks : List Nat) :
    sinceCommit (hist ++ [.commit blocks]) = [] := by
  simp [sinceCommit]

@[simp] theorem sinceCommit_begin (hist : List Event) (p : Nat) :
    sinceCommit (hist ++ [.begin p]) = sinceCommit hist := by
  simp [sinceCommit]

@[simp] theorem sinceCommit_endOp (hist : List Event) (p : Nat) :
    sinceCommit (hist ++ [.endOp p]) = sinceCommit hist := by
  simp [sinceCommit]

-- log.lh lists the blocks logged since the last commit, each once. Between
-- the first write_head() and the erasing of log.lh it is one transaction late.
structure Listed (hist : List Event) (s : Sys) : Prop where
  nodup : s.st.lh.Nodup
  same : (∀ p stage, s.pc p = .commit stage → stage.written = false) →
    ∀ b, b ∈ s.st.lh ↔ b ∈ sinceCommit hist
  late : ∀ p stage, s.pc p = .commit stage → stage.written = true → sinceCommit hist = []
  erased : ∀ p, s.pc p = .commit .writeErased → s.st.lh = []

theorem Listed.quiet {hist hist' : List Event} {s t : Sys} (h : Listed hist s)
    (hw : ∀ p stage, s.pc p = .commit stage → stage.written = false)
    (hw' : ∀ p stage, t.pc p = .commit stage → stage.written = false)
    (hlh : t.st.lh = s.st.lh) (hsince : sinceCommit hist' = sinceCommit hist) : Listed hist' t where
  nodup := hlh ▸ h.nodup
  same := fun _ b => by rw [hlh, hsince]; exact h.same hw b
  late := fun p stage hp hs => by rw [hw' p stage hp] at hs; cases hs
  erased := fun p hp => absurd (hw' p _ hp) (by decide)

theorem Listed.other {hist : List Event} {s t : Sys} (h : Listed hist s)
    (hpc : ∀ p stage, t.pc p = .commit stage ↔ s.pc p = .commit stage)
    (hlh : t.st.lh = s.st.lh) : Listed hist t where
  nodup := hlh ▸ h.nodup
  same := fun hw b => by rw [hlh]; exact h.same (fun p st hp => hw p st ((hpc p st).mpr hp)) b
  late := fun p st hp => h.late p st ((hpc p st).mp hp)
  erased := fun p hp => hlh ▸ h.erased p ((hpc p _).mp hp)

theorem Listed.commitStep {hist : List Event} {s : Sys} {p : Nat} {stage : CommitPc}
    (hc : Control s) (hp : s.pc p = .commit stage) (h : Listed hist s) :
    Listed (hist ++ (s.commitStep p stage).1) (s.commitStep p stage).2 := by
  -- p is the only process in commit(), before and after
  have hold : ∀ q st, s.pc q = .commit st → st = stage := by
    intro q st hq
    have := hc.single q p _ _ hq hp
    subst this
    rw [hq] at hp
    cases hp
    rfl
  have hnew : ∀ (s' : Sys) (next : CommitPc), s'.pc = s.pc →
      ∀ q st, (s'.goto p (.commit next)).pc q = .commit st → st = next := by
    intro s' next he q st hq
    rw [Sys.goto_pc, he] at hq
    split at hq
    · cases hq
      rfl
    · rename_i hne
      exact absurd (hc.single q p _ _ hq hp) hne
  have hself : ∀ (s' : Sys) (next : CommitPc), (s'.goto p (.commit next)).pc p = .commit next := by
    intro s' next
    simp [Sys.goto_pc]
  have hquiet : ∀ next : CommitPc, stage.written = false → next.written = false →
      Listed (hist ++ []) (s.goto p (.commit next)) := by
    intro next hw hw'
    refine h.quiet (fun q st hq => ?_) (fun q st hq => ?_) rfl (by simp)
    · rw [hold q st hq]
      exact hw
    · rw [hnew s next rfl q st hq]
      exact hw'
  have hinstall : ∀ next : CommitPc, stage.written = true → next.written = true →
      next ≠ .writeErased → Listed (hist ++ []) (s.goto p (.commit next)) := by
    intro next hw hw' hne
    rw [List.append_nil]
    refine ⟨h.nodup, fun hn => ?_, fun _ _ _ _ => h.late p stage hp hw, fun q hq => ?_⟩
    · rw [hn p next (hself s next)] at hw'
      cases hw'
    · exact absurd (hnew s next rfl q _ hq).symm hne
  cases stage with
  | test => exact hquiet _ rfl (by split <;> rfl)
  | writeLog tail => exact hquiet _ rfl (by split <;> rfl)
  | writeHead =>
    refine ⟨h.nodup, fun hn => ?_, fun _ _ _ _ => by simp [Sys.commitStep], fun q hq => ?_⟩
    · exact absurd (hn p _ (hself s (.installTrans 0))) (by decide)
    · exact absurd (hnew s _ rfl q _ hq) (by decide)
  | installTrans tail =>
    exact hinstall _ rfl (by split <;> rfl) (by split <;> simp)
  | erase =>
    rw [Sys.commitStep, List.append_nil]
    refine ⟨List.nodup_nil, fun hn => ?_, fun _ _ _ _ => h.late p _ hp rfl, fun _ _ => rfl⟩
    exact absurd (hn p _ (hself _ .writeErased)) (by decide)
  | writeErased =>
    have hempty := h.erased p hp
    have hsince := h.late p _ hp rfl
    rw [Sys.commitStep, List.append_nil]
    refine ⟨h.nodup, fun _ b => by simp [hempty, hsince], fun q st hq hs => ?_, fun q hq => ?_⟩
    · rw [hnew s _ rfl q st hq] at hs
      cases hs
    · exact absurd (hnew s _ rfl q _ hq) (by decide)
  | finish =>
    have hnone : ∀ q st, (s.commitStep p .finish).2.pc q ≠ .commit st := by
      intro q st hq
      simp only [Sys.commitStep, Sys.wakeup_commit, Sys.goto_pc] at hq
      split at hq
      · cases hq
      · rename_i hne
        exact hne (hc.single q p _ _ hq hp)
    refine h.quiet (fun q st hq => ?_) (fun q st hq => absurd hq (hnone q st)) rfl
      (by simp [Sys.commitStep])
    rw [hold q st hq]
    rfl

theorem Listed.move {dev : Dev} {hist events : List Event} {s t : Sys} {p : Nat}
    (hc : Control s) (h : Listed hist s) (hm : Move dev s p events t)
    (ht : t.panicked = none) : Listed (hist ++ events) t := by
  have hfree : s.pc p = .inOp → ∀ q stage, s.pc q = .commit stage → stage.written = false := by
    intro hp q stage hq
    have hq := hc.committer q stage hq
    rw [hc.not_committing hp] at hq
    cases hq
  cases hm with
  | call hp | sleep hp | kill hp =>
    rw [List.append_nil]
    refine h.other (fun q stage => ?_) rfl
    rw [Sys.goto_pc]
    split <;> simp_all
  | begin hp ha =>
    have hnone : ∀ q stage, s.pc q = .commit stage → stage.written = false := by
      intro q stage hq
      simp [State.admits, hc.committer q stage hq] at ha
    refine h.quiet hnone (fun q stage hq => ?_) rfl (by simp)
    rw [Sys.goto_pc] at hq
    split at hq
    · cases hq
    · exact hnone q stage hq
  | logWrite b hp hst =>
    obtain ⟨-, -, hlh⟩ := State.logWrite_ok hst
    have hfree := hfree hp
    refine ⟨?_, fun _ c => ?_, fun q st hq hs => ?_, fun q hq => ?_⟩
    · simp only [hlh]
      split
      · exact h.nodup
      · rename_i hb
        exact List.nodup_append.mpr ⟨h.nodup, by simp, by simp; exact fun c hcm he => hb (he ▸ hcm)⟩
    · have hsame := h.same hfree c
      simp only [hlh, sinceCommit_logWrite, List.mem_append, List.mem_singleton, ← hsame]
      split
      · rename_i hb
        constructor
        · exact .inl
        · rintro (hcm | rfl)
          · exact hcm
          · exact hb
      · simp
    · rw [hfree q st hq] at hs
      cases hs
    · exact absurd (hfree q _ hq) (by decide)
  | logWritePanic b hp hst => cases ht
  | endOpPanic hp hst => cases ht
  | endOpCommit hp hst =>
    obtain ⟨-, rfl, -⟩ := State.endOp_ok hst
    refine h.quiet (hfree hp) (fun q stage hq => ?_) rfl (by simp)
    rw [Sys.goto_pc] at hq
    split at hq
    · cases hq
      rfl
    · exact hfree hp q stage hq
  | endOp hp hst =>
    obtain ⟨-, rfl, -⟩ := State.endOp_ok hst
    refine h.quiet (hfree hp) (fun q stage hq => ?_) rfl (by simp)
    rw [Sys.wakeup_commit, Sys.goto_pc] at hq
    split at hq
    · cases hq
    · exact hfree hp q stage hq
  | commit stage hp => exact h.commitStep hc hp

theorem Reach.listed {dev : Dev} {hist : List Event} {s : Sys} (h : Reach dev hist s)
    (ht : s.panicked = none) : Listed hist s := by
  induction h with
  | init => exact ⟨List.nodup_nil, by simp [Sys.init, sinceCommit], by simp [Sys.init], by simp [Sys.init]⟩
  | step h hs ih =>
    obtain ⟨hpanic, hm⟩ := Sys.step_move hs
    exact Listed.move h.control (ih hpanic) hm ht

theorem Listed.length {hist : List Event} {s : Sys} {p : Nat} (hc : Control s)
    (h : Listed hist s) (hp : s.pc p = .inOp) :
    s.st.lh.length = (sinceCommit hist).toFinset.card := by
  have hfree : ∀ q stage, s.pc q = .commit stage → stage.written = false := by
    intro q stage hq
    have hq := hc.committer q stage hq
    rw [hc.not_committing hp] at hq
    cases hq
  have hset : s.st.lh.toFinset = (sinceCommit hist).toFinset := by
    ext b
    simpa using h.same hfree b
  rw [← hset, List.toFinset_card_of_nodup h.nodup]

-- Every log_write() of the run is called while the operations since the last
-- commit have logged fewer than LOGSIZE - 1 blocks.
def Room (hist : List Event) : Prop :=
  ∀ j p b : Nat, hist[j]? = some (.logWrite p b) →
    (sinceCommit (hist.take j)).toFinset.card < LOGSIZE - 1

theorem room_snoc (hist : List Event) (e : Event) :
    Room (hist ++ [e]) ↔ Room hist ∧
      ∀ p b, e = .logWrite p b → (sinceCommit hist).toFinset.card < LOGSIZE - 1 := by
  constructor
  · intro h
    refine ⟨fun j p b hj => ?_, fun p b he => ?_⟩
    · have := h j p b ((getElem?_snoc _ _ _ _).mpr (.inl hj))
      rwa [List.take_append_of_le_length (lt_of_getElem? hj).le] at this
    · have := h hist.length p b ((getElem?_snoc _ _ _ _).mpr (.inr ⟨rfl, he⟩))
      rwa [List.take_left] at this
  · rintro ⟨h, he⟩ j p b hj
    rcases (getElem?_snoc _ _ _ _).mp hj with hold | ⟨rfl, hlast⟩
    · rw [List.take_append_of_le_length (lt_of_getElem? hold).le]
      exact h j p b hold
    · rw [List.take_left]
      exact he p b hlast

theorem State.logWrite_room {dev : Dev} {st st' : State} {b : Nat} (hd : dev.size = LOGSIZE)
    (h : st.logWrite dev b = .ok st') : st.lh.length < LOGSIZE - 1 := by
  unfold State.logWrite at h
  split at h
  · cases h
  · rename_i hroom
    simp only [hd, LOGSIZE, MAXOPBLOCKS] at hroom ⊢
    omega

theorem State.logWrite_full {dev : Dev} {st : State} {b : Nat} {msg : String}
    (hd : dev.size = LOGSIZE) (hout : 1 ≤ st.outstanding) (h : st.logWrite dev b = .error msg) :
    LOGSIZE - 1 ≤ st.lh.length := by
  unfold State.logWrite at h
  split at h
  · rename_i hroom
    simp only [hd, LOGSIZE, MAXOPBLOCKS] at hroom ⊢
    omega
  · split at h
    · omega
    · split at h <;> cases h

theorem Reach.room {dev : Dev} {hist : List Event} {s : Sys} (hd : dev.size = LOGSIZE)
    (h : Reach dev hist s) : s.panicked = none ↔ Room hist := by
  induction h with
  | init => simp [Sys.init, Room]
  | step h hs ih =>
    obtain ⟨hpanic, hm⟩ := Sys.step_move hs
    have hc := h.control
    have hl := h.listed hpanic
    have hroom := ih.mp hpanic
    cases hm with
    | call hp | sleep hp | kill hp => simpa [hpanic] using hroom
    | begin hp ha | endOp hp hst | endOpCommit hp hst =>
      rw [room_snoc]
      simpa [hpanic] using hroom
    | logWrite b hp hst =>
      rw [room_snoc, ← hl.length hc hp]
      simpa [hpanic, hroom] using State.logWrite_room hd hst
    | logWritePanic b hp hst =>
      rw [room_snoc, ← hl.length hc hp]
      simpa [hroom] using State.logWrite_full hd (hc.one_le hp) hst
    | endOpPanic hp hst =>
      simp only [State.endOp, hc.not_committing hp, Bool.false_eq_true, if_false] at hst
      split at hst <;> cases hst
    | commit stage hp =>
      cases stage with
      | writeHead =>
        rw [Sys.commitStep, room_snoc]
        simpa [hpanic] using hroom
      | _ => simpa [Sys.commitStep, hpanic] using hroom

-- With the log that mkfs makes, log_write() panics exactly in the runs where it
-- is called with LOGSIZE - 1 blocks logged since the last commit.
theorem logWrite_fits_iff {dev : Dev} {hist : List Event} {s : Sys} (hd : dev.size = LOGSIZE)
    (h : Reach dev hist s) :
    s.panicked ≠ some "too big a transaction" ↔
      ∀ j p b : Nat, hist[j]? = some (.logWrite p b) →
        (sinceCommit (hist.take j)).toFinset.card < LOGSIZE - 1 := by
  refine Iff.trans ?_ (h.room hd)
  cases hp : s.panicked with
  | none => simp
  | some msg => simp [h.panicked hp]

-- Three operations of MAXOPBLOCKS blocks each, all admitted before the first
-- log_write().
def threeOps : List (Nat × Act) :=
  (List.range 3).flatMap (fun p => [(p, .call), (p, .tryBegin)]) ++
    (List.range 3).flatMap fun p =>
      (List.range MAXOPBLOCKS).map fun k => (p, .logWrite (100 + MAXOPBLOCKS * p + k))

theorem threeOps_overflow :
    ¬ ∀ (hist : List Event) (s : Sys), Reach ⟨2, LOGSIZE⟩ hist s → OpsFit hist →
      s.panicked ≠ some "too big a transaction" := by
  intro h
  refine h _ _ (Reach.run ⟨2, LOGSIZE⟩ threeOps (by decide +kernel)) ?_ ?_
  · decide +kernel
  · decide +kernel

-- Two operations that log one block each.
theorem logWrite_fits_twoOps :
    ∃ s, Reach ⟨2, LOGSIZE⟩ [.begin 0, .begin 1, .logWrite 0 46, .logWrite 1 50] s ∧
      s.panicked ≠ some "too big a transaction" := by
  refine ⟨_, Reach.run ⟨2, LOGSIZE⟩ (twoOps.take 6) (by decide), ?_⟩
  refine (logWrite_fits_iff rfl (Reach.run ⟨2, LOGSIZE⟩ (twoOps.take 6) (by decide))).mpr ?_
  intro j p b hj
  have hlt : j < 4 := lt_of_getElem? hj
  interval_cases j <;> decide

end Xv6.Log
