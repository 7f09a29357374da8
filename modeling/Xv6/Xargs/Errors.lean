import Mathlib.Algebra.Order.Ring.Int
import Mathlib.Data.List.Count
import Mathlib.Logic.Function.Iterate
import Xv6.Xargs

namespace Xv6.Xargs

-- Where a process is: at read(), in the inner loop with n bytes left, or after the loop.
inductive Place where
  | reading
  | scanning (past : UInt8) (n : Nat) (rest : List UInt8)
  | over
  deriving DecidableEq

-- A process that runs main(): count is child_proc_count, and created is the number of
-- children that its calls of fork() made.
structure Proc where
  st : State
  place : Place
  count : Nat
  created : Nat

-- What the system calls return: read() a chunk and the byte that follows buf then, or
-- -1; fork() -1 or a child, in which exec() succeeds or not. A step may make no call.
inductive Result where
  | read (r : Option (List UInt8 × UInt8))
  | fork (child : Option Bool)
  | quiet
  deriving DecidableEq

def first : Proc := ⟨start, .reading, 0, 0⟩

-- while ((read_count = read(0, buf, 512)) != 0 && error == 0)
def Proc.read (p : Proc) : Option (List UInt8 × UInt8) → Proc
  | .none => if p.st.error then { p with place := .over } else p
  | some (chunk, past) =>
    if chunk = [] ∨ p.st.error then { p with place := .over }
    else
      let buf := fill chunk p.st.buf
      { p with st := { p.st with buf := buf }, place := .scanning past chunk.length buf }

-- One round of the inner loop, without its fork().
def Proc.turn (p : Proc) (past : UInt8) (n : Nat) (rest : List UInt8) : Proc :=
  let st := round past n rest p.st
  let len := (word n rest).length + 1
  { p with
    st := st
    place := if st.error then .reading else .scanning past (n - len) (rest.drop len) }

-- A step of one process: the processes that run main() after it. A child whose exec()
-- fails goes on after the if.
def Proc.step (p : Proc) (r : Result) : Option (List Proc) :=
  match p.place, r with
  | .reading, .read r => some [p.read r]
  | .scanning past n rest, r =>
    if n = 0 then if r = .quiet then some [{ p with place := .reading }] else none
    else
      let q := p.turn past n rest
      if p.st.args.length < q.st.args.length then
        match r with
        | .fork .none => some [{ q with count := q.count + 1 }]
        | .fork (some true) => some [{ q with count := q.count + 1, created := q.created + 1 }]
        | .fork (some false) =>
          some [{ q with count := q.count + 1, created := q.created + 1 },
            { q with count := q.count + 1, created := 0 }]
        | _ => none
      else if r = .quiet then some [q] else none
  | _, _ => none

-- The processes that run main() after some steps, with what the system calls returned.
inductive Run : List Result → List Proc → Prop
  | init : Run [] [first]
  | step {results : List Result} {pre post ps : List Proc} {p : Proc} {r : Result}
      (h : Run results (pre ++ p :: post)) (hs : p.step r = some ps) :
      Run (results ++ [r]) (pre ++ ps ++ post)

theorem Proc.read_counts (p : Proc) (r : Option (List UInt8 × UInt8)) :
    (p.read r).count = p.count ∧ (p.read r).created = p.created := by
  unfold Proc.read
  split
  · split <;> exact ⟨rfl, rfl⟩
  · split <;> exact ⟨rfl, rfl⟩

theorem Proc.step_cases {p : Proc} {r : Result} {ps : List Proc} (h : p.step r = some ps) :
    (r ≠ .fork (some false) ∧ ∃ q, ps = [q] ∧
      q.count + p.created = p.count + q.created + [r].count (.fork .none)) ∨
    (r = .fork (some false) ∧ ∃ q q', ps = [q, q']) := by
  unfold Proc.step at h
  split at h
  · rename_i r _
    cases h
    obtain ⟨hcount, hcreated⟩ := p.read_counts r
    refine .inl ⟨by simp, _, rfl, ?_⟩
    rw [hcount, hcreated]
    rfl
  · split at h
    · split at h
      · rename_i hr
        cases h
        rw [hr]
        exact .inl ⟨by simp, _, rfl, rfl⟩
      · cases h
    dsimp only at h
    split at h
    · split at h
      · cases h
        refine .inl ⟨by simp, _, rfl, ?_⟩
        simp only [Proc.turn, List.count_singleton_self]
        omega
      · cases h
        refine .inl ⟨by simp, _, rfl, ?_⟩
        have hzero : [Result.fork (some true)].count (.fork .none) = 0 := by decide
        simp only [Proc.turn, hzero]
        omega
      · cases h
        exact .inr ⟨rfl, _, _, rfl⟩
      · cases h
    · split at h
      · rename_i hr
        cases h
        rw [hr]
        exact .inl ⟨by simp, _, rfl, rfl⟩
      · cases h
  · cases h

-- The processes that run main() in a run, and what the first one has counted as long as
-- it is the only one.
theorem Run.counts {results : List Result} {procs : List Proc} (h : Run results procs) :
    procs.length = 1 + results.count (.fork (some false)) ∧
      (results.count (.fork (some false)) = 0 →
        ∀ p ∈ procs, p.count = p.created + results.count (.fork .none)) := by
  induction h with
  | init => exact ⟨rfl, fun _ p hp => by rw [List.mem_singleton.mp hp]; rfl⟩
  | step h hs ih =>
    rename_i results pre post ps p r
    simp only [List.length_append, List.length_cons, List.count_append] at ih ⊢
    obtain ⟨hlen, hcounts⟩ := ih
    rcases Proc.step_cases hs with ⟨hr, q, rfl, hq⟩ | ⟨rfl, q, q', rfl⟩
    · have hzero : [r].count (.fork (some false)) = 0 :=
        List.count_eq_zero.mpr fun hmem => hr (List.mem_singleton.mp hmem).symm
      rw [hzero, Nat.add_zero]
      refine ⟨?_, fun hnone => ?_⟩
      · simp only [List.length_cons, List.length_nil]
        omega
      -- There is one process only: the one that takes the step.
      have hpre : pre = [] := List.length_eq_zero_iff.mp (by omega)
      have hpost : post = [] := List.length_eq_zero_iff.mp (by omega)
      subst hpre hpost
      have hp := hcounts hnone p (by simp)
      intro p' hp'
      obtain rfl : p' = q := by simpa using hp'
      omega
    · refine ⟨?_, fun hnone => ?_⟩
      · simp only [List.length_cons, List.length_nil, List.count_singleton_self]
        omega
      · rw [List.count_singleton_self] at hnone
        omega

theorem over_of_reads {p : Proc} (hp : p.place = .reading) :
    (∃ k, ((fun p => p.read .none)^[k] p).place = .over) ↔ p.st.error = true := by
  constructor
  · rintro ⟨k, hk⟩
    by_contra herr
    have hfix : p.read .none = p := if_neg herr
    rw [Function.iterate_fixed hfix, hp] at hk
    cases hk
  · intro herr
    refine ⟨1, ?_⟩
    have hover : p.read .none = { p with place := .over } := if_pos herr
    rw [Function.iterate_one, hover]

theorem one_loop_iff (results : List Result) (procs : List Proc) (h : Run results procs) :
    ((procs.length = 1 ∧ ∀ p ∈ procs, p.count = p.created) ↔
      Result.fork .none ∉ results ∧ Result.fork (some false) ∉ results) ∧
    ∀ p ∈ procs, p.place = .reading →
      ((∃ k, ((fun p => p.read .none)^[k] p).place = .over) ↔ p.st.error = true) := by
  obtain ⟨hlen, hcounts⟩ := h.counts
  refine ⟨?_, fun p _ hp => over_of_reads hp⟩
  rw [← List.count_eq_zero, ← List.count_eq_zero]
  constructor
  · rintro ⟨hone, hall⟩
    have hexec : results.count (.fork (some false)) = 0 := by omega
    obtain ⟨p, rfl⟩ := List.length_eq_one_iff.mp hone
    have hp := hcounts hexec p (by simp)
    rw [hall p (by simp)] at hp
    exact ⟨by omega, hexec⟩
  · rintro ⟨hfork, hexec⟩
    refine ⟨by omega, fun p hp => ?_⟩
    rw [hcounts hexec p hp, hfork, Nat.add_zero]

-- The loop after the reads: child_proc_count calls of wait(), of which each gets a child
-- that has ended or finds none.
def waitLoop : Nat → Nat → List Bool
  | 0, _ => []
  | count + 1, 0 => false :: waitLoop count 0
  | count + 1, children + 1 => true :: waitLoop count children

theorem count_waitLoop (count children : Nat) :
    (waitLoop count children).length = count ∧
      (waitLoop count children).count false = count - children := by
  induction count generalizing children with
  | zero => exact ⟨rfl, (Nat.zero_sub children).symm⟩
  | succ count ih =>
    cases children with
    | zero => simp [waitLoop, ih 0]
    | succ children => simp [waitLoop, ih children]

-- As long as every exec() succeeds, wait() finds no child as often as fork() has failed.
theorem Run.waits {results : List Result} {procs : List Proc} (h : Run results procs)
    (hexec : results.count (.fork (some false)) = 0) :
    ∀ p ∈ procs, (waitLoop p.count p.created).count false = results.count (.fork .none) := by
  intro p hp
  rw [(count_waitLoop p.count p.created).2, h.counts.2 hexec p hp, Nat.add_sub_cancel_left]

theorem Run.alone {results : List Result} {p : Proc} {r : Result} {ps : List Proc}
    (h : Run results [p]) (hs : p.step r = some ps) : Run (results ++ [r]) ps := by
  have hstep := Run.step (show Run results ([] ++ p :: []) from h) hs
  rwa [List.nil_append, List.append_nil] at hstep

-- The results of a process whose calls all succeed.
def Result.good (r : Result) : Prop := ∀ x, r = .fork x → x = some true

-- If its calls succeed the process runs scan() and then loop() to their ends.
theorem Run.scan {results : List Result} {past : UInt8} {fuel n : Nat} {rest : List UInt8} {p : Proc}
    (hn : n ≤ fuel) (hplace : p.place = .scanning past n rest) (h : Run results [p]) :
    ∃ more q, Run (results ++ more) [q] ∧ q.place = .reading ∧
      q.st = Xargs.scan past fuel n rest p.st ∧ ∀ r ∈ more, r.good := by
  induction fuel generalizing results n rest p with
  | zero =>
    have hstep : p.step .quiet = some [{ p with place := .reading }] := by
      simp [Proc.step, hplace, Nat.le_zero.mp hn]
    exact ⟨[.quiet], _, h.alone hstep, rfl, rfl, by simp [Result.good]⟩
  | succ fuel ih =>
    by_cases hz : n = 0
    · have hstep : p.step .quiet = some [{ p with place := .reading }] := by
        simp [Proc.step, hplace, hz]
      refine ⟨[.quiet], _, h.alone hstep, rfl, ?_, by simp [Result.good]⟩
      rw [Xargs.scan, if_pos hz]
    · obtain ⟨r, q, hstep, hst, hq, hgood⟩ : ∃ r q, p.step r = some [q] ∧
          q.st = round past n rest p.st ∧ q.place = (p.turn past n rest).place ∧ r.good := by
        by_cases hlt : p.st.args.length < (p.turn past n rest).st.args.length
        · exact ⟨.fork (some true), { p.turn past n rest with
              count := (p.turn past n rest).count + 1, created := (p.turn past n rest).created + 1 },
            by simp [Proc.step, hplace, hz, hlt], rfl, rfl, by simp [Result.good]⟩
        · exact ⟨.quiet, p.turn past n rest, by simp [Proc.step, hplace, hz, hlt], rfl, rfl,
            by simp [Result.good]⟩
      rw [Xargs.scan, if_neg hz]
      dsimp only
      rw [Proc.turn] at hq
      dsimp only at hq
      split at hq
      · rename_i herr
        rw [if_pos herr]
        exact ⟨[r], q, h.alone hstep, hq, hst, by simpa using hgood⟩
      · rename_i herr
        rw [if_neg herr, ← hst]
        obtain ⟨more, q', hrun, hread, hscan, hmore⟩ := ih (by omega) hq (h.alone hstep)
        rw [List.append_assoc] at hrun
        exact ⟨[r] ++ more, q', hrun, hread, hscan, List.forall_mem_append.mpr
          ⟨by simpa using hgood, hmore⟩⟩

theorem Run.loop {results : List Result} {reads : List (List UInt8 × UInt8)} {p : Proc}
    (hreads : ∀ r ∈ reads, r.1 ≠ []) (hplace : p.place = .reading) (h : Run results [p]) :
    ∃ more q, Run (results ++ more) [q] ∧ q.place = .reading ∧ q.st = Xargs.loop reads p.st ∧
      ∀ r ∈ more, r.good := by
  induction reads generalizing results p with
  | nil => exact ⟨[], p, by rwa [List.append_nil], hplace, rfl, by simp⟩
  | cons r reads ih =>
    obtain ⟨hne, hreads⟩ := List.forall_mem_cons.mp hreads
    rw [Xargs.loop]
    split
    · exact ⟨[], p, by rwa [List.append_nil], hplace, rfl, by simp⟩
    · rename_i herr
      have hstep : p.step (.read (some r)) = some [p.read (some r)] := by
        simp [Proc.step, hplace]
      have hread : p.read (some r) = { p with
          st := { p.st with buf := fill r.1 p.st.buf }
          place := .scanning r.2 r.1.length (fill r.1 p.st.buf) } := by
        simp [Proc.read, hne, herr]
      rw [hread] at hstep
      obtain ⟨more, q, hrun, hq, hst, hgood⟩ := Run.scan (Nat.le_refl _) rfl (h.alone hstep)
      obtain ⟨more', q', hrun', hq', hst', hgood'⟩ := ih hreads hq hrun
      rw [List.append_assoc, List.append_assoc] at hrun'
      exact ⟨_, q', hrun', hq', by rw [hst', hst], List.forall_mem_append.mpr
        ⟨by simp [Result.good], List.forall_mem_append.mpr ⟨hgood, hgood'⟩⟩⟩

-- The process that has read the line "a" and comes to its fork().
def atFork : Proc := first.read (some ([97, 10], 0))

theorem run_atFork : Run [.read (some ([97, 10], 0))] [atFork] := Run.init.alone rfl

-- The process after the fork(), with c in child_proc_count and n children.
def afterFork (c n : Nat) : Proc :=
  { atFork.turn 0 2 (fill [97, 10] start.buf) with count := c, created := n }

theorem one_loop_iff_word :
    (([afterFork 1 1].length = 1 ∧ ∀ p ∈ [afterFork 1 1], p.count = p.created) ↔
      Result.fork .none ∉ [Result.read (some ([97, 10], 0)), .fork (some true)] ∧
        Result.fork (some false) ∉ [Result.read (some ([97, 10], 0)), .fork (some true)]) :=
  (one_loop_iff _ _ (run_atFork.alone rfl)).1

theorem loop_forks :
    Run [.read (some ([97, 10], 0)), .fork (some false)] [afterFork 1 1, afterFork 1 0] ∧
      Run [.read (some ([97, 10], 0)), .fork .none] [afterFork 1 0] ∧
      ∀ k, ((fun p => p.read .none)^[k] first).place = .reading :=
  ⟨run_atFork.alone rfl, run_atFork.alone rfl, fun k => by
    rw [Function.iterate_fixed rfl]
    rfl⟩

end Xv6.Xargs
