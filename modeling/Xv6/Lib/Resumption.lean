import Mathlib.Data.List.Basic

namespace Xv6.Lib

-- What a program that runs alone ends with.
inductive Res (σ α : Type) where
  | done (s : σ) (a : α)
  | panic (msg : String)
  | blocked

-- The state and the answer at the end.
def Res.ended {σ α : Type} : Res σ α → Option (σ × α)
  | .done s a => some (s, a)
  | _ => none

theorem Res.eq_done {σ α : Type} {r : Res σ α} {x : σ × α} (h : r.ended = some x) :
    r = .done x.1 x.2 := by
  cases r with
  | done s a =>
    cases h
    rfl
  | panic msg => cases h
  | blocked => cases h

-- A program as the tree of its atomic actions. An action reads the state it
-- finds, moves to the next state (`none` while it has to wait) and chooses
-- what follows from the state it found.
inductive Prog (σ ℓ α : Type) where
  | ret (a : α)
  | panic (msg : String)
  | act (lbl : ℓ) (upd : σ → Option σ) (next : σ → Prog σ ℓ α)

namespace Prog

variable {σ ℓ α β γ : Type}

def bind : Prog σ ℓ α → (α → Prog σ ℓ β) → Prog σ ℓ β
  | ret a, k => k a
  | panic msg, _ => panic msg
  | act lbl upd next, k => act lbl upd fun s => (next s).bind k

instance : Monad (Prog σ ℓ) where
  pure := ret
  bind := bind

-- One atomic action that always runs, with its answer or its panic.
def atomic (lbl : ℓ) (f : σ → σ × Except String α) : Prog σ ℓ α :=
  act lbl (fun s => some (f s).1) fun s =>
    match (f s).2 with
    | .ok a => ret a
    | .error msg => panic msg

-- One atomic change of the state.
def modify (lbl : ℓ) (f : σ → σ) : Prog σ ℓ Unit :=
  act lbl (fun s => some (f s)) fun _ => ret ()

-- One atomic look at the state.
def look (lbl : ℓ) (f : σ → α) : Prog σ ℓ α :=
  act lbl some fun s => ret (f s)

def run : Prog σ ℓ α → σ → Res σ α
  | ret a, s => .done s a
  | panic msg, _ => .panic msg
  | act _ upd next, s =>
    match upd s with
    | some t => (next s).run t
    | none => .blocked

-- The actions a program takes when it runs alone, with the state each found.
def trace : Prog σ ℓ α → σ → List (ℓ × σ)
  | ret _, _ => []
  | panic _, _ => []
  | act lbl upd next, s =>
    (lbl, s) :: match upd s with
      | some t => (next s).trace t
      | none => []

-- Some actions of a program, in order, with the state each one found.
-- The program that is left says where execution stopped.
inductive Exec : Prog σ ℓ α → σ → List (ℓ × σ) → Prog σ ℓ α → σ → Prop
  | refl (p : Prog σ ℓ α) (s : σ) : Exec p s [] p s
  | step {lbl : ℓ} {upd : σ → Option σ} {next : σ → Prog σ ℓ α} {s t u : σ}
      {trace : List (ℓ × σ)} {q : Prog σ ℓ α} (ht : upd s = some t)
      (hrest : Exec (next s) t trace q u) :
      Exec (act lbl upd next) s ((lbl, s) :: trace) q u

@[simp] theorem pure_eq (a : α) : (pure a : Prog σ ℓ α) = ret a := rfl

@[simp] theorem ret_bind (a : α) (k : α → Prog σ ℓ β) : (ret a >>= k) = k a := rfl

theorem act_bind (lbl : ℓ) (upd : σ → Option σ) (next : σ → Prog σ ℓ α)
    (k : α → Prog σ ℓ β) :
    (act lbl upd next >>= k) = act lbl upd fun s => next s >>= k := rfl

@[simp] theorem bind_ret (p : Prog σ ℓ α) : (p >>= ret) = p := by
  induction p with
  | ret a => rfl
  | panic msg => rfl
  | act lbl upd next ih =>
    rw [act_bind]
    congr
    funext s
    exact ih s

@[simp] theorem bind_assoc (p : Prog σ ℓ α) (k : α → Prog σ ℓ β) (l : β → Prog σ ℓ γ) :
    ((p >>= k) >>= l) = p >>= fun a => k a >>= l := by
  induction p with
  | ret a => rfl
  | panic msg => rfl
  | act lbl upd next ih =>
    simp only [act_bind]
    congr
    funext s
    exact ih s

theorem run_bind (p : Prog σ ℓ α) (k : α → Prog σ ℓ β) (s : σ) :
    (p >>= k).run s =
      match p.run s with
      | .done t a => (k a).run t
      | .panic msg => .panic msg
      | .blocked => .blocked := by
  induction p generalizing s with
  | ret a => rfl
  | panic msg => rfl
  | act lbl upd next ih =>
    rw [act_bind]
    simp only [run]
    cases upd s with
    | none => rfl
    | some t => exact ih s t

-- Every action of the program, whatever the state it finds, is one that φ
-- allows.
def Always (φ : ℓ → σ → σ → Prop) : Prog σ ℓ α → Prop
  | ret _ => True
  | panic _ => True
  | act lbl upd next => ∀ s t, upd s = some t → φ lbl s t ∧ (next s).Always φ

theorem Always.mono {φ ψ : ℓ → σ → σ → Prop} {m : Prog σ ℓ α} (hm : m.Always φ)
    (h : ∀ lbl s t, φ lbl s t → ψ lbl s t) : m.Always ψ := by
  induction m with
  | ret a => trivial
  | panic msg => trivial
  | act lbl upd next ih =>
    exact fun s t ht => ⟨h lbl s t (hm s t ht).1, ih s (hm s t ht).2⟩

theorem Always.bind {φ : ℓ → σ → σ → Prop} {m : Prog σ ℓ α} {k : α → Prog σ ℓ β}
    (hm : m.Always φ) (hk : ∀ a, (k a).Always φ) : (m >>= k).Always φ := by
  induction m with
  | ret a => exact hk a
  | panic msg => trivial
  | act lbl upd next ih => exact fun s t ht => ⟨(hm s t ht).1, ih s (hm s t ht).2⟩

theorem Always.atomic {φ : ℓ → σ → σ → Prop} {lbl : ℓ} {f : σ → σ × Except String α}
    (h : ∀ s, φ lbl s (f s).1) : (Prog.atomic lbl f).Always φ := by
  intro s t ht
  cases ht
  refine ⟨h s, ?_⟩
  dsimp only
  split <;> trivial

theorem Always.modify {φ : ℓ → σ → σ → Prop} {lbl : ℓ} {f : σ → σ}
    (h : ∀ s, φ lbl s (f s)) : (Prog.modify lbl f).Always φ := by
  intro s t ht
  cases ht
  exact ⟨h s, trivial⟩

theorem Always.look {φ : ℓ → σ → σ → Prop} {lbl : ℓ} {f : σ → α} (h : ∀ s, φ lbl s s) :
    (Prog.look lbl f).Always φ := by
  intro s t ht
  cases ht
  exact ⟨h s, trivial⟩

-- If each action finds what ok asks for, the program does not panic with msg.
def Avoids (ok : ℓ → σ → Prop) (msg : String) : Prog σ ℓ α → Prop
  | ret _ => True
  | panic m => m ≠ msg
  | act lbl _ next => ∀ s, ok lbl s → (next s).Avoids ok msg

theorem Avoids.bind {ok : ℓ → σ → Prop} {msg : String} {m : Prog σ ℓ α} {k : α → Prog σ ℓ β}
    (hm : m.Avoids ok msg) (hk : ∀ a, (k a).Avoids ok msg) : (m >>= k).Avoids ok msg := by
  induction m with
  | ret a => exact hk a
  | panic m => exact hm
  | act lbl upd next ih => exact fun s hs => ih s (hm s hs)

theorem Avoids.atomic {ok : ℓ → σ → Prop} {msg : String} {lbl : ℓ} {f : σ → σ × Except String α}
    (h : ∀ s, ok lbl s → (f s).2 ≠ .error msg) : (Prog.atomic lbl f).Avoids ok msg := by
  intro s hs
  have hne := h s hs
  dsimp only
  split
  · trivial
  · rename_i m hf
    rintro rfl
    exact hne hf

theorem Avoids.modify {ok : ℓ → σ → Prop} {msg : String} {lbl : ℓ} {f : σ → σ} :
    (Prog.modify lbl f).Avoids ok msg := fun _ _ => trivial

theorem Avoids.look {ok : ℓ → σ → Prop} {msg : String} {lbl : ℓ} {f : σ → α} :
    (Prog.look lbl f).Avoids ok msg := fun _ _ => trivial

theorem exec_of_run {p : Prog σ ℓ α} {s t : σ} {a : α} (h : p.run s = .done t a) :
    Exec p s (p.trace s) (ret a) t := by
  induction p generalizing s with
  | ret b =>
    simp only [run, Res.done.injEq] at h
    obtain ⟨rfl, rfl⟩ := h
    exact .refl _ _
  | panic msg => simp [run] at h
  | act lbl upd next ih =>
    simp only [run] at h
    cases hu : upd s with
    | none => simp [hu] at h
    | some u =>
      simp only [hu] at h
      simp only [trace, hu]
      exact .step hu (ih s h)

end Prog

end Xv6.Lib
