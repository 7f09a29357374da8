import Mathlib.Algebra.Order.Ring.Int
import Xv6.Grep

namespace Xv6.Grep

-- What a pattern consists of, read from left to right.
inductive Item where
  | char (c : UInt8)
  | star (c : UInt8)
  | eol
  deriving DecidableEq

def parse : List UInt8 → List Item
  | [] => []
  | [c] => if c = DOLLAR then [.eol] else [.char c]
  | c :: d :: re => if d = STAR then .star c :: parse re else .char c :: parse (d :: re)

-- The character c of a pattern matches the character t.
def Fits (c t : UInt8) : Prop := c = DOT ∨ c = t

-- The items match the text w, which is followed by rest.
inductive Matches : List Item → List UInt8 → List UInt8 → Prop
  | nil (rest : List UInt8) : Matches [] [] rest
  | char {c t : UInt8} {items : List Item} {w rest : List UInt8} (hc : Fits c t)
      (h : Matches items w rest) : Matches (.char c :: items) (t :: w) rest
  | star {c : UInt8} {items : List Item} {u w rest : List UInt8} (hc : ∀ t ∈ u, Fits c t)
      (h : Matches items w rest) : Matches (.star c :: items) (u ++ w) rest
  | eol : Matches [.eol] [] []

-- Some first part of the text matches.
def Starts (items : List Item) (text : List UInt8) : Prop :=
  ∃ w rest, text = w ++ rest ∧ Matches items w rest

-- The meaning of a pattern: some part of the text matches, at its start after a '^'.
def Means (re text : List UInt8) : Prop :=
  if re.head? = some CARET then Starts (parse re.tail) text
  else ∃ pre post, text = pre ++ post ∧ Starts (parse re) post

theorem starts_nil (text : List UInt8) : Starts [] text := ⟨[], text, rfl, .nil text⟩

theorem starts_eol {text : List UInt8} : Starts [.eol] text ↔ text = [] := by
  constructor
  · rintro ⟨w, rest, rfl, h⟩
    cases h
    rfl
  · rintro rfl
    exact ⟨[], [], rfl, .eol⟩

theorem not_starts_char_nil {c : UInt8} {items : List Item} : ¬Starts (.char c :: items) [] := by
  rintro ⟨w, rest, heq, h⟩
  cases h
  cases heq

theorem starts_char_cons {c t : UInt8} {items : List Item} {text : List UInt8} :
    Starts (.char c :: items) (t :: text) ↔ Fits c t ∧ Starts items text := by
  constructor
  · rintro ⟨w, rest, heq, h⟩
    cases h with
    | char hc h =>
      cases heq
      exact ⟨hc, _, rest, rfl, h⟩
  · rintro ⟨hc, w, rest, rfl, h⟩
    exact ⟨t :: w, rest, rfl, .char hc h⟩

theorem Starts.star {c : UInt8} {items : List Item} {text : List UInt8} (h : Starts items text) :
    Starts (.star c :: items) text := by
  obtain ⟨w, rest, rfl, h⟩ := h
  exact ⟨w, rest, rfl, .star (List.forall_mem_nil _) h⟩

theorem starts_star_nil {c : UInt8} {items : List Item} :
    Starts (.star c :: items) [] ↔ Starts items [] := by
  refine ⟨?_, Starts.star⟩
  rintro ⟨w, rest, heq, h⟩
  cases h with
  | star hc h =>
    obtain ⟨hw, rfl⟩ := List.append_eq_nil_iff.mp heq.symm
    obtain ⟨rfl, rfl⟩ := List.append_eq_nil_iff.mp hw
    exact ⟨[], [], rfl, h⟩

theorem starts_star_cons {c t : UInt8} {items : List Item} {text : List UInt8} :
    Starts (.star c :: items) (t :: text) ↔
      Starts items (t :: text) ∨ Fits c t ∧ Starts (.star c :: items) text := by
  constructor
  · rintro ⟨w, rest, heq, h⟩
    cases h with
    | star hc h =>
      rename_i u w
      cases u with
      | nil => exact .inl ⟨w, rest, heq, h⟩
      | cons a u =>
        cases heq
        rw [List.forall_mem_cons] at hc
        exact .inr ⟨hc.1, u ++ w, rest, rfl, .star hc.2 h⟩
  · rintro (h | ⟨hc, w, rest, rfl, h⟩)
    · exact h.star
    · cases h with
      | star hu h =>
        rename_i u w
        refine ⟨t :: (u ++ w), rest, rfl, ?_⟩
        rw [← List.cons_append]
        exact .star (List.forall_mem_cons.mpr ⟨hc, hu⟩) h

theorem parse_cons (c : UInt8) (re : List UInt8) :
    parse (c :: re) =
      if re.head? = some STAR then .star c :: parse re.tail
      else if c = DOLLAR ∧ re = [] then [.eol]
      else .char c :: parse re := by
  cases re with
  | nil => by_cases hc : c = DOLLAR <;> simp [parse, hc]
  | cons d re => by_cases hd : d = STAR <;> simp [parse, hd]

theorem matchstar_iff {re : List UInt8}
    (hre : ∀ text, matchhere re text = true ↔ Starts (parse re) text) (c : UInt8)
    (text : List UInt8) : matchstar c re text = true ↔ Starts (.star c :: parse re) text := by
  induction text with
  | nil =>
    rw [matchstar.eq_def, starts_star_nil, ← hre]
    simp
  | cons t text ih =>
    have hfits : t = c ∨ c = DOT ↔ Fits c t := by rw [Fits, or_comm, @eq_comm _ t c]
    rw [matchstar.eq_def, starts_star_cons, ← hre, ← ih, ← hfits]
    by_cases hhere : matchhere re (t :: text) = true
    · simp [hhere]
    · by_cases hc : t = c ∨ c = DOT <;> simp [hhere, hc]

theorem matchhere_iff (re text : List UInt8) :
    matchhere re text = true ↔ Starts (parse re) text := by
  cases re with
  | nil => simp [matchhere.eq_def, parse, starts_nil]
  | cons c re =>
    rw [matchhere.eq_def, parse_cons]
    by_cases hstar : re.head? = some STAR
    · simp only [if_pos hstar]
      exact matchstar_iff (fun text => matchhere_iff re.tail text) c text
    simp only [if_neg hstar]
    by_cases hend : c = DOLLAR ∧ re = []
    · simp only [if_pos hend, starts_eol]
      exact List.isEmpty_iff
    simp only [if_neg hend]
    cases text with
    | nil => simp [not_starts_char_nil]
    | cons t text =>
      rw [starts_char_cons, ← matchhere_iff re text]
      by_cases hc : c = DOT ∨ c = t <;> simp [hc, Fits]
termination_by re.length

theorem matchfrom_iff (re text : List UInt8) :
    matchfrom re text = true ↔ ∃ pre post, text = pre ++ post ∧ Starts (parse re) post := by
  induction text with
  | nil =>
    rw [matchfrom, matchhere_iff]
    refine ⟨fun h => ⟨[], [], rfl, h⟩, ?_⟩
    rintro ⟨pre, post, heq, h⟩
    obtain ⟨-, rfl⟩ := List.append_eq_nil_iff.mp heq.symm
    exact h
  | cons t text ih =>
    rw [matchfrom]
    split
    · rename_i hhere
      exact ⟨fun _ => ⟨[], _, rfl, (matchhere_iff _ _).mp hhere⟩, fun _ => rfl⟩
    · rename_i hhere
      rw [ih]
      constructor
      · rintro ⟨pre, post, rfl, h⟩
        exact ⟨t :: pre, post, rfl, h⟩
      · rintro ⟨pre, post, heq, h⟩
        cases pre with
        | nil =>
          rw [List.nil_append] at heq
          exact absurd ((matchhere_iff _ _).mpr (heq ▸ h)) hhere
        | cons a pre =>
          cases heq
          exact ⟨pre, post, rfl, h⟩

theorem matchText_iff (re text : List UInt8) : matchText re text = true ↔ Means re text := by
  unfold matchText Means
  split
  · exact matchhere_iff _ _
  · exact matchfrom_iff _ _

end Xv6.Grep
