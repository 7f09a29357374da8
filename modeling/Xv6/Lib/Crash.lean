import Xv6.Lib.Resumption

namespace Xv6.Lib.Prog

variable {σ ℓ α β : Type}

-- Crash triples. `crash` holds of the labels passed so far and the state at
-- every point between two actions, `post` when the program returns.
def Crash (crash : List ℓ → σ → Prop) (post : α → List ℓ → σ → Prop) :
    Prog σ ℓ α → List ℓ → σ → Prop
  | ret a, past, s => crash past s ∧ post a past s
  | panic _, past, s => crash past s
  | act lbl upd next, past, s =>
    crash past s ∧ ∀ t, upd s = some t → Crash crash post (next s) (past ++ [lbl]) t

variable {crash : List ℓ → σ → Prop} {post : α → List ℓ → σ → Prop}

theorem Crash.now {p : Prog σ ℓ α} {past : List ℓ} {s : σ} (h : p.Crash crash post past s) :
    crash past s := by
  cases p with
  | ret a => exact h.1
  | panic msg => exact h
  | act lbl upd next => exact h.1

theorem Crash.exec {p q : Prog σ ℓ α} {past : List ℓ} {s t : σ} {trace : List (ℓ × σ)}
    (h : p.Crash crash post past s) (he : Exec p s trace q t) :
    q.Crash crash post (past ++ trace.map Prod.fst) t := by
  induction he generalizing past with
  | refl p s => simpa using h
  | step ht _ ih => simpa using ih (h.2 _ ht)

theorem Crash.stopped {p q : Prog σ ℓ α} {s t : σ} {trace : List (ℓ × σ)}
    (h : p.Crash crash post [] s) (he : Exec p s trace q t) : crash (trace.map Prod.fst) t := by
  simpa using (h.exec he).now

theorem Crash.returned {p : Prog σ ℓ α} {s t : σ} {a : α} (h : p.Crash crash post [] s)
    (hr : p.run s = .done t a) : post a ((p.trace s).map Prod.fst) t := by
  simpa using (h.exec (exec_of_run hr)).2

theorem Crash.mono {crash' : List ℓ → σ → Prop} {post' : α → List ℓ → σ → Prop}
    {p : Prog σ ℓ α} {past : List ℓ} {s : σ} (h : p.Crash crash post past s)
    (hc : ∀ past s, crash past s → crash' past s)
    (hp : ∀ a past s, post a past s → post' a past s) : p.Crash crash' post' past s := by
  induction p generalizing past s with
  | ret a => exact ⟨hc _ _ h.1, hp _ _ _ h.2⟩
  | panic msg => exact hc _ _ h
  | act lbl upd next ih => exact ⟨hc _ _ h.1, fun t ht => ih s (h.2 t ht)⟩

theorem Crash.bind {p : Prog σ ℓ α} {k : α → Prog σ ℓ β} {past : List ℓ} {s : σ}
    {post : β → List ℓ → σ → Prop}
    (h : p.Crash crash (fun a past t => (k a).Crash crash post past t) past s) :
    (p >>= k).Crash crash post past s := by
  induction p generalizing past s with
  | ret a => exact h.2
  | panic msg => exact h
  | act lbl upd next ih => exact ⟨h.1, fun t ht => ih s (h.2 t ht)⟩

theorem Crash.modify {lbl : ℓ} {f : σ → σ} {past : List ℓ} {s : σ}
    {post : Unit → List ℓ → σ → Prop} (hs : crash past s)
    (ht : crash (past ++ [lbl]) (f s)) (hp : post () (past ++ [lbl]) (f s)) :
    (Prog.modify lbl f).Crash crash post past s := by
  refine ⟨hs, fun t h => ?_⟩
  cases h
  exact ⟨ht, hp⟩

theorem Crash.look {lbl : ℓ} {f : σ → α} {past : List ℓ} {s : σ} (hs : crash past s)
    (ht : crash (past ++ [lbl]) s) (hp : post (f s) (past ++ [lbl]) s) :
    (Prog.look lbl f).Crash crash post past s := by
  refine ⟨hs, fun t h => ?_⟩
  cases h
  exact ⟨ht, hp⟩

end Xv6.Lib.Prog
