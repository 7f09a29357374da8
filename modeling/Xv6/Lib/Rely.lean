import Xv6.Lib.Resumption
import Mathlib.Logic.Relation

namespace Xv6.Lib

-- Processes that run their programs over one shared state.
structure Conf (σ ℓ : Type) where
  st : σ
  prog : Nat → Prog σ ℓ Unit

variable {σ ℓ α β : Type}

namespace Conf

def goto (c : Conf σ ℓ) (t : σ) (p : Nat) (q : Prog σ ℓ Unit) : Conf σ ℓ :=
  ⟨t, Function.update c.prog p q⟩

theorem goto_self (c : Conf σ ℓ) (t : σ) (p : Nat) (q : Prog σ ℓ Unit) :
    (c.goto t p q).prog p = q := Function.update_self ..

theorem goto_other {c : Conf σ ℓ} {t : σ} {p r : Nat} {q : Prog σ ℓ Unit} (h : r ≠ p) :
    (c.goto t p q).prog r = c.prog r := Function.update_of_ne h ..

-- The states that some interleaving reaches, with the actions on the way and
-- the state each one found. A process whose program is over may call one of the
-- programs that `calls` lets it call.
inductive Reach (calls : Nat → σ → Prog σ ℓ Unit → Prop) (start : Conf σ ℓ) :
    List (ℓ × σ) → Conf σ ℓ → Prop
  | init : Reach calls start [] start
  | act {hist : List (ℓ × σ)} {c : Conf σ ℓ} {p : Nat} {lbl : ℓ} {upd : σ → Option σ}
      {next : σ → Prog σ ℓ Unit} {t : σ} (h : Reach calls start hist c)
      (hp : c.prog p = .act lbl upd next) (ht : upd c.st = some t) :
      Reach calls start (hist ++ [(lbl, c.st)]) (c.goto t p (next c.st))
  | call {hist : List (ℓ × σ)} {c : Conf σ ℓ} {p : Nat} {q : Prog σ ℓ Unit}
      (h : Reach calls start hist c) (hp : c.prog p = .ret ()) (hq : calls p c.st q) :
      Reach calls start hist (c.goto c.st p q)

-- Process p takes n actions.
def steps (p : Nat) : Nat → List (ℓ × σ) × Conf σ ℓ → Option (List (ℓ × σ) × Conf σ ℓ)
  | 0, r => some r
  | n + 1, (hist, c) =>
    match c.prog p with
    | .act lbl upd next =>
      match upd c.st with
      | some t => steps p n (hist ++ [(lbl, c.st)], c.goto t p (next c.st))
      | none => none
    | _ => none

theorem Reach.steps {calls : Nat → σ → Prog σ ℓ Unit → Prop} {start : Conf σ ℓ}
    {r r' : List (ℓ × σ) × Conf σ ℓ} (p n : Nat) (h : Reach calls start r.1 r.2)
    (hr : Conf.steps p n r = some r') : Reach calls start r'.1 r'.2 := by
  induction n generalizing r with
  | zero =>
    cases hr
    exact h
  | succ n ih =>
    rw [Conf.steps] at hr
    split at hr
    · rename_i hp
      split at hr
      · rename_i ht
        exact ih (h.act hp ht) hr
      · cases hr
    · cases hr

theorem steps_other {p q n : Nat} {r r' : List (ℓ × σ) × Conf σ ℓ} (hq : q ≠ p)
    (hr : steps p n r = some r') : r'.2.prog q = r.2.prog q := by
  induction n generalizing r with
  | zero =>
    cases hr
    rfl
  | succ n ih =>
    rw [steps] at hr
    split at hr
    · split at hr
      · rw [ih hr]
        exact Function.update_of_ne hq _ _
      · cases hr
    · cases hr

-- Process p calls a program and takes n actions of it.
def after (p n : Nat) (q : Prog σ ℓ Unit) (r : List (ℓ × σ) × Conf σ ℓ) :
    List (ℓ × σ) × Conf σ ℓ :=
  (Conf.steps p n (r.1, r.2.goto r.2.st p q)).getD r

theorem after_other {p q n : Nat} {m : Prog σ ℓ Unit} {r : List (ℓ × σ) × Conf σ ℓ} (hq : q ≠ p) :
    (after p n m r).2.prog q = r.2.prog q := by
  unfold after
  cases hr : steps p n (r.1, r.2.goto r.2.st p m) with
  | none => rfl
  | some r' => exact (steps_other hq hr).trans (goto_other hq)

theorem Reach.after {calls : Nat → σ → Prog σ ℓ Unit → Prop} {start : Conf σ ℓ}
    {r : List (ℓ × σ) × Conf σ ℓ} {q : Prog σ ℓ Unit} (p n : Nat)
    (h : Reach calls start r.1 r.2) (hp : r.2.prog p = .ret ()) (hq : calls p r.2.st q) :
    Reach calls start (Conf.after p n q r).1 (Conf.after p n q r).2 := by
  unfold Conf.after
  cases hr : Conf.steps p n (r.1, r.2.goto r.2.st p q) with
  | none => exact h
  | some r' => exact Reach.steps p n (h.call hp hq) hr

theorem Reach.avoids {calls : Nat → σ → Prog σ ℓ Unit → Prop} {start c : Conf σ ℓ}
    {hist : List (ℓ × σ)} {ok : ℓ → σ → Prop} {msg : String} (h : Reach calls start hist c)
    (hstart : ∀ p, (start.prog p).Avoids ok msg) (hcalls : ∀ p s q, calls p s q → q.Avoids ok msg)
    (hok : ∀ e ∈ hist, ok e.1 e.2) (p : Nat) : (c.prog p).Avoids ok msg := by
  induction h generalizing p with
  | init => exact hstart p
  | @act hist c q lbl upd next t h hq ht ih =>
    obtain ⟨hbefore, hlast⟩ := List.forall_mem_append.mp hok
    by_cases hpq : p = q
    · have hp := ih hbefore q
      rw [hq] at hp
      rw [hpq, goto_self]
      exact hp c.st (hlast _ (List.mem_singleton.mpr rfl))
    · rw [goto_other hpq]
      exact ih hbefore p
  | @call hist c q m h hq hm ih =>
    by_cases hpq : p = q
    · rw [hpq, goto_self]
      exact hcalls q c.st m hm
    · rw [goto_other hpq]
      exact ih hok p

end Conf

-- What processes rely on and guarantee: an invariant of the state, what an
-- action of process p does to it, and what is assumed of the state that an
-- action finds.
structure Rely (σ ℓ : Type) where
  inv : σ → Prop
  guar : Nat → ℓ → σ → σ → Prop
  ok : ℓ → σ → Prop

namespace Rely

variable (R : Rely σ ℓ) (p : Nat)

-- Any number of steps of the other processes.
def Others : σ → σ → Prop :=
  Relation.ReflTransGen fun s t => R.inv t ∧ ∃ q lbl, q ≠ p ∧ R.guar q lbl s t

-- From s on, whatever the others do, the program keeps the invariant and its
-- guarantee, and returns with post.
def Safe (post : α → σ → Prop) : Prog σ ℓ α → σ → Prop
  | .ret a, s => ∀ t, R.Others p s t → post a t
  | .panic _, _ => True
  | .act lbl upd next, s => ∀ t, R.Others p s t → R.ok lbl t → ∀ u, upd t = some u →
      R.inv u ∧ R.guar p lbl t u ∧ Safe post (next t) u

def Stable (P : σ → Prop) : Prop :=
  ∀ s t, R.inv s → R.inv t → (∃ q lbl, q ≠ p ∧ R.guar q lbl s t) → P s → P t

def Triple (pre : σ → Prop) (m : Prog σ ℓ α) (post : α → σ → Prop) : Prop :=
  ∀ s, R.inv s → pre s → R.Safe p post m s

variable {R p}

theorem Others.inv {s t : σ} (h : R.Others p s t) (hs : R.inv s) : R.inv t := by
  induction h with
  | refl => exact hs
  | tail _ hstep _ => exact hstep.1

theorem Stable.others {P : σ → Prop} (hP : R.Stable p P) {s t : σ} (h : R.Others p s t)
    (hs : R.inv s) (hp : P s) : P t := by
  induction h with
  | refl => exact hp
  | tail hst hstep ih => exact hP _ _ (Others.inv hst hs) hstep.1 hstep.2 ih

theorem Stable.and {P Q : σ → Prop} (hP : R.Stable p P) (hQ : R.Stable p Q) :
    R.Stable p fun s => P s ∧ Q s :=
  fun s t hs ht hg h => ⟨hP s t hs ht hg h.1, hQ s t hs ht hg h.2⟩

theorem Safe.others {post : α → σ → Prop} {m : Prog σ ℓ α} {s t : σ} (h : R.Safe p post m s)
    (hst : R.Others p s t) : R.Safe p post m t := by
  cases m with
  | ret a => exact fun u hu => h u (hst.trans hu)
  | panic msg => trivial
  | act lbl upd next => exact fun u hu => h u (hst.trans hu)

theorem Safe.mono {post post' : α → σ → Prop} {m : Prog σ ℓ α} {s : σ} (h : R.Safe p post m s)
    (hs : R.inv s) (hpost : ∀ a t, R.inv t → post a t → post' a t) : R.Safe p post' m s := by
  induction m generalizing s with
  | ret a => exact fun t ht => hpost a t (Others.inv ht hs) (h t ht)
  | panic msg => trivial
  | act lbl upd next ih =>
    intro t ht hok u hu
    obtain ⟨hi, hg, hn⟩ := h t ht hok u hu
    exact ⟨hi, hg, ih t hn hi⟩

theorem Safe.bind {post : β → σ → Prop} {m : Prog σ ℓ α} {k : α → Prog σ ℓ β} {s : σ}
    (h : R.Safe p (fun a t => R.Safe p post (k a) t) m s) : R.Safe p post (m >>= k) s := by
  induction m generalizing s with
  | ret a => exact h s .refl
  | panic msg => trivial
  | act lbl upd next ih =>
    intro t ht hok u hu
    obtain ⟨hi, hg, hn⟩ := h t ht hok u hu
    exact ⟨hi, hg, ih t hn⟩

theorem Triple.bind {P : σ → Prop} {M : α → σ → Prop} {Q : β → σ → Prop}
    {m : Prog σ ℓ α} {k : α → Prog σ ℓ β} (hm : R.Triple p P m M)
    (hk : ∀ a, R.Triple p (M a) (k a) Q) : R.Triple p P (m >>= k) Q :=
  fun s hs hpre => Safe.bind ((hm s hs hpre).mono hs fun a t ht h => hk a t ht h)

theorem Triple.ret {a : α} {Q : α → σ → Prop} (hst : R.Stable p (Q a)) :
    R.Triple p (Q a) (.ret a) Q :=
  fun _ hs hpre _ ht => hst.others ht hs hpre

theorem Triple.weaken {pre pre' : σ → Prop} {post post' : α → σ → Prop} {m : Prog σ ℓ α}
    (h : R.Triple p pre m post) (hpre : ∀ s, R.inv s → pre' s → pre s)
    (hpost : ∀ a s, R.inv s → post a s → post' a s) : R.Triple p pre' m post' :=
  fun s hs hp => (h s hs (hpre s hs hp)).mono hs hpost

theorem Triple.of_and {pre : σ → Prop} {φ : Prop} {m : Prog σ ℓ α} {post : α → σ → Prop}
    (h : φ → R.Triple p pre m post) : R.Triple p (fun s => pre s ∧ φ) m post :=
  fun s hs hpre => h hpre.2 s hs hpre.1

theorem Triple.act {pre : σ → Prop} {post : α → σ → Prop} {lbl : ℓ} {upd : σ → Option σ}
    {next : σ → Prog σ ℓ α} (hst : R.Stable p pre)
    (h : ∀ s t, R.inv s → pre s → R.ok lbl s → upd s = some t →
      R.inv t ∧ R.guar p lbl s t ∧ (R.inv t → R.Safe p post (next s) t)) :
    R.Triple p pre (.act lbl upd next) post := by
  intro s hs hpre t ht hok u hu
  obtain ⟨hi, hg, hn⟩ := h t u (Others.inv ht hs) (hst.others ht hs hpre) hok hu
  exact ⟨hi, hg, hn hi⟩

theorem Triple.modify {pre : σ → Prop} {post : Unit → σ → Prop} {lbl : ℓ} {f : σ → σ}
    (hst : R.Stable p pre) (hst' : R.Stable p (post ()))
    (h : ∀ s, R.inv s → pre s → R.ok lbl s →
      R.inv (f s) ∧ R.guar p lbl s (f s) ∧ post () (f s)) :
    R.Triple p pre (.modify lbl f) post := by
  refine Triple.act hst fun s t hs hpre hok ht => ?_
  obtain ⟨hi, hg, hpost⟩ := h s hs hpre hok
  cases ht
  exact ⟨hi, hg, fun hi => Triple.ret hst' _ hi hpost⟩

theorem Triple.atomic {pre : σ → Prop} {post : α → σ → Prop} {lbl : ℓ}
    {f : σ → σ × Except String α} (hst : R.Stable p pre) (hst' : ∀ a, R.Stable p (post a))
    (h : ∀ s, R.inv s → pre s → R.ok lbl s → R.inv (f s).1 ∧ R.guar p lbl s (f s).1 ∧
      ∀ a, (f s).2 = .ok a → post a (f s).1) :
    R.Triple p pre (.atomic lbl f) post := by
  refine Triple.act hst fun s t hs hpre hok ht => ?_
  obtain ⟨hi, hg, hpost⟩ := h s hs hpre hok
  cases ht
  refine ⟨hi, hg, fun hi => ?_⟩
  cases hf : (f s).2 with
  | error msg => trivial
  | ok a => exact Triple.ret (hst' a) _ hi (hpost a hf)

theorem Triple.always {P : σ → Prop} {φ : ℓ → σ → σ → Prop} {m : Prog σ ℓ α}
    (hm : m.Always φ) (hst : R.Stable p P)
    (hφ : ∀ lbl s t, R.inv s → P s → R.ok lbl s → φ lbl s t →
      R.inv t ∧ R.guar p lbl s t ∧ P t) :
    R.Triple p P m fun _ => P := by
  induction m with
  | ret a => exact Triple.ret (Q := fun _ => P) hst
  | panic msg => exact fun _ _ _ => trivial
  | act lbl upd next ih =>
    refine Triple.act hst fun s t hs hpre hok ht => ?_
    obtain ⟨hlbl, hnext⟩ := hm s t ht
    obtain ⟨hi, hg, hpost⟩ := hφ lbl s t hs hpre hok hlbl
    exact ⟨hi, hg, fun hi => ih s hnext t hi hpost⟩

variable {calls : Nat → σ → Prog σ ℓ Unit → Prop} (idle : Nat → σ → Prop)

-- If each call is safe from an idle state on, then in every run whose actions
-- find what is assumed, the invariant holds and every process is safe.
theorem reach {start c : Conf σ ℓ} {hist : List (ℓ × σ)} (h : Conf.Reach calls start hist c)
    (hcall : ∀ p s q, R.inv s → idle p s → calls p s q → R.Safe p (fun _ => idle p) q s)
    (hinv : R.inv start.st) (hstart : ∀ p, R.Safe p (fun _ => idle p) (start.prog p) start.st)
    (hok : ∀ e ∈ hist, R.ok e.1 e.2) :
    R.inv c.st ∧ ∀ p, R.Safe p (fun _ => idle p) (c.prog p) c.st := by
  induction h with
  | init => exact ⟨hinv, hstart⟩
  | @act hist c p lbl upd next t h hp ht ih =>
    obtain ⟨hi, hsafe⟩ := ih fun e he => hok e (List.mem_append_left _ he)
    have hp' := hsafe p
    rw [hp] at hp'
    have hlbl : R.ok lbl c.st := hok _ (List.mem_append_right _ (List.mem_singleton.mpr rfl))
    obtain ⟨hi', hg, hnext⟩ := hp' c.st .refl hlbl t ht
    refine ⟨hi', fun q => ?_⟩
    by_cases hqp : q = p
    · subst hqp
      simpa [Conf.goto] using hnext
    · have hother : R.Others q c.st t := .single ⟨hi', p, lbl, Ne.symm hqp, hg⟩
      simpa [Conf.goto, hqp] using (hsafe q).others hother
  | @call hist c p q h hp hq ih =>
    obtain ⟨hi, hsafe⟩ := ih hok
    refine ⟨hi, fun r => ?_⟩
    by_cases hrp : r = p
    · subst hrp
      have hidle := hsafe r
      rw [hp] at hidle
      simpa [Conf.goto] using hcall r c.st q hi (hidle c.st .refl) hq
    · simpa [Conf.goto, hrp] using hsafe r

theorem reach_guar {start c : Conf σ ℓ} {hist : List (ℓ × σ)} {lbl : ℓ} {upd : σ → Option σ}
    {next : σ → Prog σ ℓ Unit} {t : σ} (h : Conf.Reach calls start hist c)
    (hcall : ∀ p s q, R.inv s → idle p s → calls p s q → R.Safe p (fun _ => idle p) q s)
    (hinv : R.inv start.st) (hstart : ∀ p, R.Safe p (fun _ => idle p) (start.prog p) start.st)
    (hok : ∀ e ∈ hist, R.ok e.1 e.2)
    (hp : c.prog p = .act lbl upd next) (hlbl : R.ok lbl c.st) (ht : upd c.st = some t) :
    R.guar p lbl c.st t := by
  have hsafe := (reach idle h hcall hinv hstart hok).2 p
  rw [hp] at hsafe
  exact (hsafe c.st .refl hlbl t ht).2.1

end Rely

end Xv6.Lib
