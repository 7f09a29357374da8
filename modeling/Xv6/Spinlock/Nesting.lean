import Xv6.Spinlock

namespace Xv6.Spinlock

open Lib

variable {ι : Type} {me : Nat} {start s t : State ι} {ops : List (Op ι)}

def Masked (s : State ι) : Prop := 0 < s.cpu.noff → s.cpu.intr = false

-- Whatever the other CPUs do while the code waits, interrupts are off where they have
-- to be, the code panics only for a lock that it has, and it returns with post.
def Safe (me : Nat) (post : State ι → Prop) : Code ι Unit → State ι → Prop
  | .ret _, s => Masked s ∧ post s
  | .panic msg, s => Masked s ∧ msg = "acquire"
  | .act _ upd next, s =>
    Masked s ∧ ∀ t, t = s ∨ upd s = none ∧ Others me s t →
      ∀ u, upd t = some u → Safe me post (next t) u

theorem Others.trans {u : State ι} (h : Others me s t) (h' : Others me t u) : Others me s u := by
  refine ⟨h'.1.trans h.1, fun l => ⟨fun hl => ?_, fun hl hc => ?_⟩⟩
  · have hst := (h.2 l).1 hl
    rw [(h'.2 l).1 (by rw [hst]; exact hl), hst]
  · have hc := (h.2 l).2 hl hc
    exact (h'.2 l).2 (by simp [Lock.holding, hc]) hc

variable {post : State ι → Prop} {p : Code ι Unit} {k : Unit → Code ι Unit}

theorem Safe.masked (h : Safe me post p s) : Masked s := by
  cases p <;> exact h.1

theorem Safe.others (hp : ∀ s t, post s → Others me s t → post t) (h : Safe me post p s)
    (hw : Waits s p) (ho : Others me s t) : Safe me post p t := by
  have hm : Masked t := by
    rw [Masked, ho.1]
    exact h.masked
  cases p with
  | ret a => exact ⟨hm, hp s t h.2 ho⟩
  | panic msg => cases hw
  | act lbl upd next =>
    refine ⟨hm, fun u hu v hv => h.2 u ?_ v hv⟩
    rcases hu with rfl | ⟨-, hu⟩
    · exact .inr ⟨hw, ho⟩
    · exact .inr ⟨hw, ho.trans hu⟩

theorem Safe.modify {f : State ι → State ι} (hm : Masked s) (h : Safe me post (k ()) (f s)) :
    Safe me post (Prog.modify () f >>= k) s := by
  refine ⟨hm, fun t ht u hu => ?_⟩
  rcases ht with rfl | ⟨hnone, -⟩
  · cases hu
    exact h
  · cases hnone

theorem Safe.look {α : Type} {f : State ι → α} {k : α → Code ι Unit} (hm : Masked s)
    (h : Safe me post (k (f s)) s) : Safe me post (Prog.look () f >>= k) s := by
  refine ⟨hm, fun t ht u hu => ?_⟩
  rcases ht with rfl | ⟨hnone, -⟩
  · cases hu
    exact h
  · cases hnone

def pushed (c : Cpu) : Cpu :=
  { noff := int32 (c.noff + 1), intena := if c.noff = 0 then c.intr else c.intena, intr := false }

theorem Safe.pushOff (hm : Masked s) (h : Safe me post (k ()) { s with cpu := pushed s.cpu }) :
    Safe me post (pushOff >>= k) s := by
  have hoff : ∀ c : Cpu, c.intr = false → Masked { s with cpu := c } := fun c hc _ => hc
  unfold Spinlock.pushOff intrGet intrSet
  simp only [Prog.bind_assoc]
  refine .look hm (.modify hm (.look (hoff _ rfl) ?_))
  by_cases hz : s.cpu.noff = 0
  · simp only [hz, if_true, Prog.bind_assoc]
    refine .modify (hoff _ rfl) (.modify (hoff _ rfl) ?_)
    simpa [pushed, hz] using h
  · simp only [hz, if_false]
    refine .modify (hoff _ rfl) ?_
    simpa [pushed, hz] using h

def popped (c : Cpu) : Cpu :=
  { c with noff := int32 (c.noff - 1), intr := int32 (c.noff - 1) = 0 ∧ c.intena }

theorem Safe.popOff (hoff : s.cpu.intr = false) (hpos : 1 ≤ s.cpu.noff)
    (hpost : post { s with cpu := popped s.cpu }) : Safe me post popOff s := by
  have hm : ∀ n, Masked { s with cpu.noff := n } := fun n _ => hoff
  have hself : Masked s := fun _ => hoff
  unfold Spinlock.popOff intrGet
  refine .look hself ?_
  simp only [hoff, Bool.false_eq_true, if_false, Prog.pure_eq]
  refine .look hself ?_
  simp only [if_neg (show ¬s.cpu.noff < 1 by omega)]
  refine .modify hself (.look (hm _) ?_)
  by_cases hz : int32 (s.cpu.noff - 1) = 0 ∧ s.cpu.intena
  · rw [if_pos hz, intrSet, ← Prog.bind_ret (Prog.modify _ _)]
    refine .modify (hm _) ⟨fun h => ?_, ?_⟩
    · simp [hz.1] at h
    · simpa [popped, hz] using hpost
  · rw [if_neg hz]
    refine ⟨hm _, ?_⟩
    simpa [popped, hz, hoff] using hpost

theorem depth_concat (ops : List (Op ι)) (op : Op ι) :
    depth (ops ++ [op]) = depth ops + op.weight := by
  simp [depth]

theorem int32_eq {n : Int} (hn : 0 ≤ n) (hlt : n < 2 ^ 31) : int32 n = n := by
  rw [int32, Int.bmod_eq_of_le] <;> omega

theorem depth_pushes (k : Nat) : depth (List.replicate k (.pushOff : Op ι)) = k := by
  simp [depth, Op.weight]

variable [DecidableEq ι]

-- What is known between two calls.
structure Idle (me : Nat) (start : State ι) (ops : List (Op ι)) (s : State ι) : Prop where
  noff : s.cpu.noff = depth ops
  nonneg : 0 ≤ depth ops
  off : 0 < depth ops → s.cpu.intr = false ∧ s.cpu.intena = start.cpu.intr
  on : depth ops = 0 → s.cpu.intr = start.cpu.intr
  holds : ∀ l, ops.count (.acquire l) =
    ops.count (.release l) + if (s.lock l).holding me then 1 else 0
  free : ∀ l, (s.lock l).holding me = false → (s.lock l).cpu ≠ some me

theorem Idle.masked (h : Idle me start ops s) : Masked s := fun hn => (h.off (h.noff ▸ hn)).1

theorem Idle.others (h : Idle me start ops s) (ho : Others me s t) : Idle me start ops t := by
  have hl : ∀ l, (t.lock l).holding me = (s.lock l).holding me ∧
      ((t.lock l).holding me = false → (t.lock l).cpu ≠ some me) := by
    intro l
    cases hs : (s.lock l).holding me with
    | true => rw [(ho.2 l).1 hs, hs]; simp
    | false =>
      have hc := (ho.2 l).2 hs (h.free l hs)
      exact ⟨by simp [Lock.holding, hc], fun _ => hc⟩
  refine ⟨?_, h.nonneg, ?_, ?_, fun l => ?_, fun l => (hl l).2⟩
  · rw [ho.1, h.noff]
  · rw [ho.1]
    exact h.off
  · rw [ho.1]
    exact h.on
  · rw [(hl l).1]
    exact h.holds l

theorem Idle.pushed (h : Idle me start ops s) (hlt : depth ops + 1 < 2 ^ 31) :
    (pushed s.cpu).noff = depth ops + 1 ∧ (Spinlock.pushed s.cpu).intena = start.cpu.intr := by
  have hn := h.nonneg
  refine ⟨?_, ?_⟩
  · simp only [Spinlock.pushed, h.noff]
    exact int32_eq (by omega) hlt
  · simp only [Spinlock.pushed, h.noff]
    split
    · exact h.on ‹_›
    · exact (h.off (by omega)).2

theorem Idle.popped (h : Idle me start ops s) (hpos : 1 ≤ depth ops) (hlt : depth ops < 2 ^ 31) :
    (popped s.cpu).noff = depth ops - 1 ∧
      (0 < depth ops - 1 →
        (Spinlock.popped s.cpu).intr = false ∧ (Spinlock.popped s.cpu).intena = start.cpu.intr) ∧
      (depth ops - 1 = 0 → (Spinlock.popped s.cpu).intr = start.cpu.intr) := by
  have hn : int32 (s.cpu.noff - 1) = depth ops - 1 := by
    rw [h.noff]
    exact int32_eq (by omega) (by omega)
  obtain ⟨-, hena⟩ := h.off (by omega)
  simp only [Spinlock.popped, hn, hena]
  refine ⟨trivial, fun hp => ⟨?_, trivial⟩, fun hz => ?_⟩
  · simp [show depth ops - 1 ≠ 0 by omega]
  · simp [hz]

theorem Idle.safe (h : Idle me start ops s) (op : Op ι) (hd : Disciplined (ops ++ [op]))
    (hpre : depth ops < 2 ^ 31) (hsmall : depth (ops ++ [op]) < 2 ^ 31) :
    Safe me (Idle me start (ops ++ [op])) (op.code me) s := by
  have hnew := hd.depth _ List.prefix_rfl
  have hn := h.nonneg
  rw [depth_concat] at hnew hsmall
  cases op with
  | pushOff =>
    obtain ⟨hnoff, hena⟩ := h.pushed hsmall
    show Safe me _ pushOff s
    rw [← Prog.bind_ret pushOff]
    refine .pushOff h.masked ⟨fun _ => rfl, ?_, ?_, fun _ => ⟨rfl, hena⟩, ?_, ?_, h.free⟩
    · rw [depth_concat]
      exact hnoff
    · rw [depth_concat]
      exact hnew
    · rw [depth_concat, Op.weight]
      omega
    · simpa using h.holds
  | popOff =>
    have hpos : 1 ≤ depth ops := by
      simp only [Op.weight] at hnew
      omega
    obtain ⟨hnoff, hoff, hon⟩ := h.popped hpos hpre
    refine .popOff (h.off (by omega)).1 (h.noff ▸ hpos) ⟨?_, ?_, ?_, ?_, ?_, h.free⟩
    all_goals try rw [depth_concat]
    · exact hnoff
    · exact hnew
    · exact hoff
    · exact hon
    · simpa using h.holds
  | acquire l =>
    obtain ⟨hnoff, hena⟩ := h.pushed hsmall
    refine .pushOff h.masked (.look (fun _ => rfl) ?_)
    cases hl : (s.lock l).holding me with
    | true => exact ⟨fun _ => rfl, rfl⟩
    | false =>
      simp only [Bool.false_eq_true, if_false]
      refine ⟨fun _ => rfl, fun t ht u hu => ?_⟩
      have ho : Idle me start ops { t with cpu := s.cpu } ∧ t.cpu = Spinlock.pushed s.cpu := by
        rcases ht with rfl | ⟨-, ho⟩
        · exact ⟨h, rfl⟩
        · exact ⟨h.others ⟨rfl, ho.2⟩, ho.1⟩
      obtain ⟨ho, hcpu⟩ := ho
      dsimp only at hu
      split at hu
      · cases hu
      cases hu
      have hmask : t.cpu.intr = false := by rw [hcpu]; rfl
      rename_i hfree
      show Safe me _ (Prog.modify _ _) _
      rw [← Prog.bind_ret (Prog.modify _ _)]
      refine .modify (fun _ => hmask) ⟨fun _ => hmask, ?_, ?_, fun _ => ⟨hmask, ?_⟩, ?_, ?_, ?_⟩
      · rw [depth_concat]
        exact (congrArg Cpu.noff hcpu).trans hnoff
      · rw [depth_concat]
        exact hnew
      · exact (congrArg Cpu.intena hcpu).trans hena
      · rw [depth_concat, Op.weight]
        omega
      · intro l'
        have hh := ho.holds l'
        by_cases heq : l' = l
        · subst heq
          simp_all [Lock.holding, List.count_append]
        · simpa [List.count_append, List.count_singleton, Function.update_of_ne heq, heq,
            Ne.symm heq] using hh
      · intro l'
        have hh := ho.free l'
        by_cases heq : l' = l
        · subst heq
          simp_all [Lock.holding]
        · simpa [Function.update_of_ne heq] using hh
  | release l =>
    have hpos : 1 ≤ depth ops := by
      simp only [Op.weight] at hnew
      omega
    have hrel := hd.release ops l List.prefix_rfl
    have hl : (s.lock l).holding me = true := by
      have hh := h.holds l
      split at hh
      · assumption
      · omega
    obtain ⟨hnoff, hoff, hon⟩ := h.popped hpos hpre
    have hmask := (h.off (by omega)).1
    refine .look h.masked ?_
    simp only [hl, Bool.not_true, Bool.false_eq_true, if_false]
    refine .modify h.masked (.modify (fun _ => hmask) ?_)
    refine .popOff hmask (h.noff ▸ hpos) ⟨?_, ?_, ?_, ?_, ?_, ?_⟩
    · rw [depth_concat]
      exact hnoff
    · rw [depth_concat]
      exact hnew
    · rw [depth_concat]
      exact hoff
    · rw [depth_concat]
      exact hon
    · intro l'
      have hh := h.holds l'
      by_cases heq : l' = l
      · subst heq
        simp_all [Lock.holding, List.count_append]
      · simpa [List.count_append, List.count_singleton, Function.update_of_ne heq, heq,
          Ne.symm heq] using hh
    · intro l'
      have hh := h.free l'
      by_cases heq : l' = l
      · subst heq
        simp_all [Lock.holding]
      · simpa [Function.update_of_ne heq] using hh

theorem Disciplined.left {op : Op ι} (h : Disciplined (ops ++ [op])) : Disciplined ops :=
  ⟨fun pre hpre => h.depth pre (hpre.trans (List.prefix_append ..)),
    fun pre l hpre => h.release pre l (hpre.trans (List.prefix_append ..))⟩

theorem Run.safe (h : Run me start ops p s) (hstart : Idle me start [] start)
    (hd : Disciplined ops) (hsmall : ∀ pre, pre <+: ops → depth pre < 2 ^ 31) :
    Safe me (Idle me start ops) p s := by
  induction h with
  | init => exact ⟨hstart.masked, hstart⟩
  | call op h ih =>
    rename_i ops s
    have hprev := ih hd.left fun pre hpre => hsmall pre (hpre.trans (List.prefix_append ..))
    exact hprev.2.safe op hd (hsmall ops (List.prefix_append ..)) (hsmall _ List.prefix_rfl)
  | act h hu ih => exact (ih hd hsmall).2 _ (.inl rfl) _ hu
  | other h hw ho ih => exact (ih hd hsmall).others (fun s t hs => hs.others) hw ho

theorem Run.finish (h : Run me start ops p s) (hr : p.run s = .done t ()) :
    Run me start ops (.ret ()) t := by
  induction p generalizing s with
  | ret a =>
    cases hr
    exact h
  | panic msg => cases hr
  | act lbl upd next ih =>
    rw [Prog.run] at hr
    cases hu : upd s with
    | none => simp [hu] at hr
    | some u =>
      rw [hu] at hr
      exact ih s (h.act hu) hr

theorem interrupts_nest (h : Run me start ops p s) (hnoff : start.cpu.noff = 0)
    (hfree : ∀ l, (start.lock l).cpu ≠ some me) (hd : Disciplined ops)
    (hsmall : ∀ pre, pre <+: ops → depth pre < 2 ^ 31) :
    (0 < s.cpu.noff → s.cpu.intr = false) ∧
      p ≠ .panic "pop_off - interruptible" ∧ p ≠ .panic "pop_off" ∧
      (p = .ret () → s.cpu.noff = depth ops ∧
        (s.cpu.noff = 0 → s.cpu.intr = start.cpu.intr)) := by
  have hstart : Idle me start [] start :=
    ⟨hnoff, by simp [depth], by simp [depth], fun _ => rfl,
      fun l => by simp [Lock.holding, hfree l], fun l _ => hfree l⟩
  have hsafe := h.safe hstart hd hsmall
  refine ⟨hsafe.masked, ?_, ?_, ?_⟩
  · rintro rfl
    exact absurd hsafe.2 (by decide)
  · rintro rfl
    exact absurd hsafe.2 (by decide)
  · rintro rfl
    exact ⟨hsafe.2.noff, fun hz => hsafe.2.on (hsafe.2.noff ▸ hz)⟩

-- Interrupts are on, and all locks are free.
def calm : State Bool := ⟨⟨0, false, true⟩, fun _ => ⟨false, none⟩⟩

-- Two locks, given back in the order in which they were taken.
def handOver : List (Op Bool) := [.acquire true, .acquire false, .release true, .release false]

theorem run_handOver : ∃ s, Run 0 calm handOver (.ret ()) s := by
  have h1 := (Run.init.call (.acquire true) : Run 0 calm _ _ _).finish rfl
  have h2 := (h1.call (.acquire false)).finish rfl
  have h3 := (h2.call (.release true)).finish rfl
  exact ⟨_, (h3.call (.release false)).finish rfl⟩

theorem disciplined_handOver : Disciplined handOver := by
  constructor
  · intro pre hpre
    have hall : ∀ pre ∈ handOver.inits, 0 ≤ depth pre := by decide
    exact hall pre ((List.mem_inits _ _).mpr hpre)
  · intro pre l hpre
    have hall : ∀ pre ∈ handOver.inits, ∀ l, pre ++ [.release l] ∈ handOver.inits →
        pre.count (.release l) < pre.count (.acquire l) := by decide
    exact hall pre ((List.mem_inits _ _).mpr ((List.prefix_append ..).trans hpre)) l
      ((List.mem_inits _ _).mpr hpre)

theorem interrupts_nest_handOver : ∃ s, Run 0 calm handOver (.ret ()) s ∧
    s.cpu.noff = 0 ∧ s.cpu.intr = true := by
  obtain ⟨s, h⟩ := run_handOver
  have hsmall : ∀ pre, pre <+: handOver → depth pre < 2 ^ 31 := by
    intro pre hpre
    have hall : ∀ pre ∈ handOver.inits, depth pre < 2 ^ 31 := by decide
    exact hall pre ((List.mem_inits _ _).mpr hpre)
  obtain ⟨-, -, -, hret⟩ :=
    interrupts_nest h rfl (by simp [calm]) disciplined_handOver hsmall
  obtain ⟨hnoff, hintr⟩ := hret rfl
  exact ⟨s, h, hnoff, hintr hnoff⟩

theorem Run.pushOff (h : Run me start ops (.ret ()) s) :
    Run me start (ops ++ [.pushOff]) (.ret ()) { s with cpu := pushed s.cpu } := by
  refine (h.call .pushOff).finish ?_
  by_cases hz : s.cpu.noff = 0 <;>
    simp [Op.code, Spinlock.pushOff, intrGet, intrSet, Prog.look, Prog.modify, Prog.act_bind,
      Prog.run, hz, pushed]

theorem run_pushes (hz : start.cpu.noff = 0) (k : Nat) :
    ∃ s, Run me start (List.replicate k .pushOff) (.ret ()) s ∧ s.cpu.noff = int32 k := by
  induction k with
  | zero => exact ⟨start, .init, hz⟩
  | succ k ih =>
    obtain ⟨s, h, hs⟩ := ih
    refine ⟨_, List.replicate_succ' ▸ h.pushOff, ?_⟩
    simp only [Spinlock.pushed, hs, int32]
    rw [Int.bmod_add_bmod, Int.natCast_succ]

theorem disciplined_pushes (k : Nat) : Disciplined (List.replicate k (.pushOff : Op ι)) := by
  constructor
  · intro pre hpre
    obtain ⟨-, hpre⟩ := List.prefix_replicate_iff.mp hpre
    rw [hpre, depth_pushes]
    omega
  · intro pre l hpre
    have hmem := hpre.subset (List.mem_append_right pre (List.mem_singleton_self (Op.release l)))
    cases List.eq_of_mem_replicate hmem

theorem noff_wraps : ∃ s, Run 0 calm (List.replicate (2 ^ 31) .pushOff) (.ret ()) s ∧
    Disciplined (List.replicate (2 ^ 31) (.pushOff : Op Bool)) ∧
    depth (List.replicate (2 ^ 31) (.pushOff : Op Bool)) = 2 ^ 31 ∧ s.cpu.noff = -2 ^ 31 := by
  obtain ⟨s, h, hs⟩ : ∃ s, Run 0 calm (List.replicate (2 ^ 31) .pushOff) (.ret ()) s ∧
      s.cpu.noff = int32 (2 ^ 31 : Nat) := run_pushes rfl (2 ^ 31)
  refine ⟨s, h, disciplined_pushes _, ?_, ?_⟩
  · rw [depth_pushes]
    norm_cast
  · rw [hs]
    decide

end Xv6.Spinlock
