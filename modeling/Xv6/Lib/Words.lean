import Mathlib.Data.List.TakeWhile

namespace Xv6.Lib

variable {α : Type} {p : α → Bool} {w l m : List α} {x : α}

-- The maximal runs of elements that are not separators.
def words (p : α → Bool) (l : List α) : List (List α) := (l.splitOnP p).filter fun w => !w.isEmpty

theorem splitInduction {motive : List α → Prop} (p : α → Bool)
    (run : ∀ w, (∀ y ∈ w, p y = false) → motive w)
    (sep : ∀ w x l, (∀ y ∈ w, p y = false) → p x = true → motive l → motive (w ++ x :: l))
    (l : List α) : motive l := by
  induction hn : l.length using Nat.strongRecOn generalizing l with
  | ind n ih =>
    have hw : ∀ y ∈ l.takeWhile (fun y => !p y), p y = false := fun y hy => by
      simpa using List.mem_takeWhile_imp hy
    cases hd : l.dropWhile (fun y => !p y) with
    | nil =>
      have hl := List.takeWhile_append_dropWhile (p := fun y => !p y) (l := l)
      rw [hd, List.append_nil] at hl
      rw [← hl]
      exact run _ hw
    | cons x r =>
      have hl := List.takeWhile_append_dropWhile (p := fun y => !p y) (l := l)
      have hx : p x = true := by
        have hne : l.dropWhile (fun y => !p y) ≠ [] := by simp [hd]
        have hhead := List.head_dropWhile_not (fun y => !p y) hne
        simpa [hd] using hhead
      rw [hd] at hl
      have hlen := congrArg List.length hl
      rw [List.length_append, List.length_cons] at hlen
      rw [← hl]
      exact sep _ x r hw hx (ih r.length (by omega) r rfl)

theorem words_run (hw : ∀ y ∈ w, p y = false) (hne : w ≠ []) : words p w = [w] := by
  rw [words, List.splitOnP_eq_singleton hw]
  simp [hne]

@[simp] theorem words_nil : words p [] = [] := by
  simp [words]

theorem words_sep (hw : ∀ y ∈ w, p y = false) (hx : p x = true) :
    words p (w ++ x :: l) = words p w ++ words p l := by
  rw [words, List.splitOnP_append_cons_of_forall_mem hw _ hx, words, List.splitOnP_eq_singleton hw,
    words, ← List.filter_append]
  rfl

theorem words_cons_sep (hx : p x = true) (l : List α) : words p (x :: l) = words p l := by
  have h := words_sep (w := []) (l := l) (fun y hy => by cases hy) hx
  rwa [words_nil, List.nil_append, List.nil_append] at h

theorem words_dropWhile (l : List α) : words p (l.dropWhile p) = words p l := by
  induction l with
  | nil => rfl
  | cons x l ih =>
    by_cases hx : p x = true
    · rw [List.dropWhile_cons_of_pos hx, ih, words_cons_sep hx]
    · rw [List.dropWhile_cons_of_neg hx]

theorem words_cons (hx : p x = false) (l : List α) :
    words p (x :: l) = (x :: l).takeWhile (fun y => !p y) ::
      words p ((x :: l).dropWhile fun y => !p y) := by
  have hsplit := List.takeWhile_append_dropWhile (p := fun y => !p y) (l := x :: l)
  have hfree : ∀ y ∈ (x :: l).takeWhile (fun y => !p y), p y = false := fun y hy => by
    simpa using List.mem_takeWhile_imp hy
  have hne : (x :: l).takeWhile (fun y => !p y) ≠ [] := by
    simp [hx]
  generalize hw : (x :: l).takeWhile (fun y => !p y) = w at hsplit hfree hne ⊢
  cases hr : (x :: l).dropWhile fun y => !p y with
  | nil =>
    rw [hr, List.append_nil] at hsplit
    rw [← hsplit, words_run hfree hne, words_nil]
  | cons y r =>
    have hy : p y = true := by
      have hdrop : (x :: l).dropWhile (fun y => !p y) ≠ [] := by
        rw [hr]
        simp
      have hhead := List.head_dropWhile_not (fun y => !p y) hdrop
      simp only [hr, List.head_cons] at hhead
      simpa using hhead
    rw [hr] at hsplit
    rw [← hsplit, words_sep hfree hy, words_run hfree hne, words_cons_sep hy]
    rfl

theorem words_append (hx : p x = true) (l m : List α) :
    words p (l ++ x :: m) = words p (l ++ [x]) ++ words p m := by
  induction l using splitInduction p with
  | run w hw => simp [words_sep hw hx]
  | sep w y l hw hy ih =>
    rw [List.append_assoc, List.cons_append, words_sep hw hy, ih, List.append_assoc,
      List.cons_append, words_sep hw hy, List.append_assoc]

theorem nil_notMem_words (l : List α) : [] ∉ words p l := by
  simp [words]

theorem exists_word (hw : ∀ y ∈ w, p y = false) (hne : w ≠ []) (l m : List α) :
    ∃ v ∈ words p (l ++ w ++ m), w <:+: v := by
  induction l using splitInduction p with
  | run u hu =>
    have huw : ∀ y ∈ u ++ w, p y = false := fun y hy => (List.mem_append.mp hy).elim (hu y) (hw y)
    induction m using splitInduction p with
    | run v hv =>
      refine ⟨u ++ w ++ v, ?_, ⟨u, v, rfl⟩⟩
      rw [words_run (fun y hy => (List.mem_append.mp hy).elim (huw y) (hv y)) (by simp [hne])]
      exact List.mem_singleton.mpr rfl
    | sep v x m hv hx _ =>
      have huwv : ∀ y ∈ u ++ w ++ v, p y = false := fun y hy =>
        (List.mem_append.mp hy).elim (huw y) (hv y)
      refine ⟨u ++ w ++ v, ?_, ⟨u, v, rfl⟩⟩
      rw [← List.append_assoc, words_sep huwv hx, words_run huwv (by simp [hne])]
      exact List.mem_append_left _ (List.mem_singleton.mpr rfl)
  | sep u x l hu hx ih =>
    obtain ⟨v, hv, hin⟩ := ih
    refine ⟨v, ?_, hin⟩
    rw [List.append_assoc, List.append_assoc, List.cons_append, words_sep hu hx,
      ← List.append_assoc]
    exact List.mem_append_right _ hv

theorem length_flatten_words (l : List α) :
    (words p l).flatten.length = l.countP fun y => !p y := by
  have hrun : ∀ w : List α, (∀ y ∈ w, p y = false) →
      (words p w).flatten.length = w.countP fun y => !p y := by
    intro w hw
    rw [List.countP_eq_length.mpr fun y hy => by simp [hw y hy]]
    by_cases hne : w = []
    · simp [hne]
    · simp [words_run hw hne]
  induction l using splitInduction p with
  | run w hw => exact hrun w hw
  | sep w x l hw hx ih =>
    rw [words_sep hw hx, List.flatten_append, List.length_append, hrun w hw, ih,
      List.countP_append, List.countP_cons]
    simp [hx]

end Xv6.Lib
