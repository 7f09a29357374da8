import Mathlib.Logic.Function.Basic

namespace Xv6.Lib

-- Programs that read and write a state and may stop with an error.
abbrev Fallible (σ ε α : Type) := StateT σ (Except ε) α

variable {σ τ ε α β : Type}

theorem Fallible.bind_ok {x : Fallible σ ε α} {f : α → Fallible σ ε β} {s t : σ} {a : α}
    (h : x s = .ok (a, t)) : (x >>= f) s = f a t := by
  show (x s >>= fun r => f r.1 r.2) = f a t
  rw [h]
  rfl

theorem Fallible.bind_error {x : Fallible σ ε α} {f : α → Fallible σ ε β} {s : σ} {e : ε}
    (h : x s = .error e) : (x >>= f) s = .error e := by
  show (x s >>= fun r => f r.1 r.2) = .error e
  rw [h]
  rfl

-- Started in s, the program ends with Q or stops with an error that meets P.
def Wp (x : Fallible σ ε α) (s : σ) (P : ε → Prop) (Q : α → σ → Prop) : Prop :=
  match x s with
  | .ok (a, t) => Q a t
  | .error e => P e

namespace Wp

variable {x : Fallible σ ε α} {s t : σ} {a : α} {e : ε}
  {P P' : ε → Prop} {Q R : α → σ → Prop}

theorem of_ok (h : x s = .ok (a, t)) (hq : Q a t) : Wp x s P Q := by
  rw [Wp, h]
  exact hq

theorem of_error (h : x s = .error e) (hp : P e) : Wp x s P Q := by
  rw [Wp, h]
  exact hp

theorem ok (h : Wp x s P Q) (hx : x s = .ok (a, t)) : Q a t := by
  rw [Wp, hx] at h
  exact h

theorem error (h : Wp x s P Q) (hx : x s = .error e) : P e := by
  rw [Wp, hx] at h
  exact h

theorem exists_ok (h : Wp x s (fun _ => False) Q) : ∃ a t, x s = .ok (a, t) ∧ Q a t := by
  cases hx : x s with
  | error e => exact (h.error hx).elim
  | ok r => exact ⟨r.1, r.2, rfl, h.ok hx⟩

theorem mono (h : Wp x s P R) (hp : ∀ e, P e → P' e) (hq : ∀ a t, R a t → Q a t) :
    Wp x s P' Q := by
  cases hx : x s with
  | error e => exact of_error hx (hp e (h.error hx))
  | ok r => exact of_ok hx (hq r.1 r.2 (h.ok hx))

theorem post (h : Wp x s P R) (hq : ∀ a t, R a t → Q a t) : Wp x s P Q :=
  h.mono (fun _ hp => hp) hq

theorem any : Wp x s (fun _ => True) fun _ _ => True := by
  cases hx : x s with
  | error e => exact of_error hx trivial
  | ok r => exact of_ok hx trivial

theorem pure (h : Q a s) : Wp (Pure.pure a : Fallible σ ε α) s P Q := h

theorem bind {f : α → Fallible σ ε β} {S : β → σ → Prop}
    (h : Wp x s P (fun a t => Wp (f a) t P S)) : Wp (x >>= f) s P S := by
  cases hx : x s with
  | error e =>
    exact of_error (Fallible.bind_error hx) (h.error hx)
  | ok r =>
    rw [Wp, Fallible.bind_ok hx]
    exact h.ok hx

theorem call {f : α → Fallible σ ε β} {S : β → σ → Prop} (hx : Wp x s P R)
    (hf : ∀ a t, R a t → Wp (f a) t P S) : Wp (x >>= f) s P S :=
  bind (hx.post hf)

theorem get {Q : σ → σ → Prop} (h : Q s s) : Wp (MonadState.get : Fallible σ ε σ) s P Q := h

theorem set {Q : PUnit → σ → Prop} (h : Q ⟨⟩ t) :
    Wp (MonadStateOf.set t : Fallible σ ε PUnit) s P Q := h

theorem throw (h : P e) : Wp (MonadExcept.throw e : Fallible σ ε α) s P Q := h

theorem ite {c : Prop} [Decidable c] {y : Fallible σ ε α} (hx : c → Wp x s P Q)
    (hy : ¬c → Wp y s P Q) : Wp (if c then x else y) s P Q := by
  by_cases hc : c
  · rw [if_pos hc]
    exact hx hc
  · rw [if_neg hc]
    exact hy hc

end Wp

-- A program over a part of the state, run on the whole.
def Fallible.zoom (view : τ → σ) (put : σ → τ → τ) (x : Fallible σ ε α) : Fallible τ ε α :=
  fun s => match x (view s) with
    | .ok (a, t) => .ok (a, put t s)
    | .error e => .error e

theorem Wp.zoom {view : τ → σ} {put : σ → τ → τ} {x : Fallible σ ε α} {s : τ} {P : ε → Prop}
    {Q : α → τ → Prop} (h : Wp x (view s) P (fun a t => Q a (put t s))) :
    Wp (Fallible.zoom view put x) s P Q := by
  cases hx : x (view s) with
  | error e => exact of_error (by simp [Fallible.zoom, hx]) (h.error hx)
  | ok r => exact of_ok (by simp [Fallible.zoom, hx]) (h.ok hx)

end Xv6.Lib
