import Mathlib.Data.List.TakeWhile
import Xv6.Grep

namespace Xv6.Grep

variable {pattern : List UInt8}

-- A line without its newline.
structure Line (l : List UInt8) : Prop where
  nul : (0 : UInt8) ∉ l
  newline : NEWLINE ∉ l

-- The text of lines that end with a newline each.
def unlines (ls : List (List UInt8)) : List UInt8 := ls.flatMap fun l => l ++ [NEWLINE]

-- The lines of at most 1022 bytes.
def short (l : List UInt8) : Bool := l.length ≤ 1022

-- The lines that match accepts, as they are to be written.
def accepted (pattern : List UInt8) (ls : List (List UInt8)) : List (List UInt8) :=
  (ls.filter (matchText pattern)).map fun l => l ++ [NEWLINE]

theorem strchr_eq_none {s : List UInt8} (hs : NEWLINE ∉ s) : strchr NEWLINE s = none := by
  induction s with
  | nil => rfl
  | cons a s ih =>
    rw [List.mem_cons, not_or] at hs
    simp [strchr, ih hs.2, Ne.symm hs.1]

theorem strchr_line {l s : List UInt8} (hl : Line l) :
    strchr NEWLINE (l ++ NEWLINE :: s) = some l.length := by
  obtain ⟨hnul, hnl⟩ := hl
  induction l with
  | nil => rfl
  | cons a l ih =>
    rw [List.mem_cons, not_or] at hnul hnl
    simp [strchr, Ne.symm hnul.1, Ne.symm hnl.1, ih hnul.2 hnl.2]

theorem lines_of_none {p : List UInt8} (h : strchr NEWLINE p = none) :
    lines pattern p = ([], p) := by
  rw [lines.eq_def]
  split
  · rfl
  · rename_i hq
    rw [h] at hq
    cases hq

theorem lines_line {l s : List UInt8} (hl : Line l) :
    lines pattern (l ++ NEWLINE :: s) =
      (accepted pattern [l] ++ (lines pattern s).1, (lines pattern s).2) := by
  have hq := strchr_line (s := s) hl
  have hassoc : l ++ NEWLINE :: s = (l ++ [NEWLINE]) ++ s := List.append_cons ..
  have htake : (l ++ NEWLINE :: s).take (l.length + 1) = l ++ [NEWLINE] := by
    rw [hassoc]
    exact List.take_left' (by simp)
  have hdrop : (l ++ NEWLINE :: s).drop (l.length + 1) = s := by
    rw [hassoc]
    exact List.drop_left' (by simp)
  rw [lines.eq_def]
  split
  · rename_i hnone
    rw [hq] at hnone
    cases hnone
  · rename_i q hsome
    rw [hq] at hsome
    cases hsome
    rw [htake, hdrop, List.take_left]
    by_cases hm : matchText pattern l <;> simp [hm, accepted]

theorem first_line {l p rest text : List UInt8} (hl : Line l)
    (h : p ++ rest = l ++ NEWLINE :: text) :
    (NEWLINE ∉ p ∧ p <+: l) ∨ ∃ p', p = l ++ NEWLINE :: p' ∧ p' ++ rest = text := by
  rcases List.append_eq_append_iff.mp h with ⟨u, rfl, -⟩ | ⟨u, rfl, hu⟩
  · exact .inl ⟨fun hmem => hl.newline (List.mem_append_left u hmem), List.prefix_append ..⟩
  · cases u with
    | nil =>
      rw [List.append_nil]
      exact .inl ⟨hl.newline, List.prefix_rfl⟩
    | cons a u =>
      cases hu
      exact .inr ⟨u, rfl, rfl⟩

theorem unlines_cons (l : List UInt8) (ls : List (List UInt8)) (t : List UInt8) :
    unlines (l :: ls) ++ t = l ++ NEWLINE :: (unlines ls ++ t) := by
  simp [unlines]

theorem lines_spec {ls : List (List UInt8)} {t p rest : List UInt8} (hls : ∀ l ∈ ls, Line l)
    (ht : NEWLINE ∉ t) (h : p ++ rest = unlines ls ++ t) :
    ∃ done later left, ls = done ++ later ∧ lines pattern p = (accepted pattern done, left) ∧
      NEWLINE ∉ left ∧ left ++ rest = unlines later ++ t ∧ p = unlines done ++ left := by
  have hnone : NEWLINE ∉ p → ∃ done later left, ls = done ++ later ∧
      lines pattern p = (accepted pattern done, left) ∧
      NEWLINE ∉ left ∧ left ++ rest = unlines later ++ t ∧ p = unlines done ++ left :=
    fun hp => ⟨[], ls, p, rfl, lines_of_none (strchr_eq_none hp), hp, h, rfl⟩
  induction ls generalizing p with
  | nil =>
    refine hnone fun hmem => ht ?_
    have h : p ++ rest = t := h
    exact h ▸ List.mem_append_left rest hmem
  | cons l ls ih =>
    rw [List.forall_mem_cons] at hls
    rw [unlines_cons] at h
    rcases first_line hls.1 h with ⟨hp, -⟩ | ⟨p', rfl, hp'⟩
    · exact hnone hp
    · obtain ⟨done, later, left, rfl, hlines, hleft, heq, rfl⟩ := ih hls.2 hp' fun hp =>
        ⟨[], ls, p', rfl, lines_of_none (strchr_eq_none hp), hp, hp', rfl⟩
      refine ⟨l :: done, later, left, rfl, ?_, hleft, heq, (unlines_cons ..).symm⟩
      rw [lines_line hls.1, hlines]
      simp [accepted, List.filter_cons]
      split <;> simp

theorem length_le_unlines {l : List UInt8} {ls : List (List UInt8)} (hl : l ∈ ls) :
    l.length + 1 ≤ (unlines ls).length := by
  obtain ⟨pre, post, rfl⟩ := List.append_of_mem hl
  simp [unlines]
  omega

-- What grep() writes, for every input and every way in which read() splits it: it stops
-- at the first line that does not fit in buf.
theorem grepFrom_eq {ls : List (List UInt8)} {t buf input : List UInt8} (want : Nat → Nat)
    (i : Nat) (hls : ∀ l ∈ ls, Line l) (ht : NEWLINE ∉ t) (hbuf : NEWLINE ∉ buf)
    (hlen : buf.length < BUF) (h : buf ++ input = unlines ls ++ t) :
    grepFrom pattern want i buf input = accepted pattern (ls.takeWhile short) := by
  rw [grepFrom.eq_def]
  dsimp only
  split
  · rename_i hn
    -- Nothing is read: the input is over, or buf is full.
    have hstop : input = [] ∨ buf.length = 1023 := by
      rw [← List.length_eq_zero_iff]
      simp only [readLen, BUF] at hn hlen
      omega
    cases ls with
    | nil => rfl
    | cons l ls =>
      rw [unlines_cons] at h
      rw [List.forall_mem_cons] at hls
      have hlong : short l = false := by
        rcases first_line hls.1 h with ⟨-, hp⟩ | ⟨p', rfl, -⟩
        · rcases hstop with rfl | hfull
          · rw [List.append_nil] at h
            exact absurd (h ▸ by simp) hbuf
          · have hle := hp.length_le
            simp only [short, decide_eq_false_iff_not]
            omega
        · exact absurd (by simp) hbuf
      rw [List.takeWhile_cons_of_neg (by simp [hlong])]
      rfl
  · rename_i hn
    generalize hr : readLen (want i) (BUF - buf.length - 1) input.length = n at hn
    have hle : n ≤ input.length ∧ buf.length + n < BUF := by
      simp only [readLen, BUF] at hr hlen ⊢
      omega
    have hcut : buf ++ input.take n ++ input.drop n = unlines ls ++ t := by
      rw [List.append_assoc, List.take_append_drop, h]
    obtain ⟨done, later, left, rfl, hlines, hleft, heq, hp⟩ := lines_spec hls ht hcut
    have hlen' : (buf ++ input.take n).length < BUF := by
      rw [List.length_append, List.length_take]
      omega
    rw [hp, List.length_append] at hlen'
    have hshort : ∀ l ∈ done, short l = true := by
      intro l hl
      have hle := length_le_unlines hl
      simp only [short, decide_eq_true_eq, BUF] at hlen' ⊢
      omega
    rw [hlines]
    dsimp only
    rw [grepFrom_eq want (i + 1) (fun l hl => hls l (List.mem_append_right _ hl)) ht hleft
      (by omega) heq, List.takeWhile_append_of_pos hshort]
    simp [accepted]
termination_by input.length
decreasing_by
  simp only [List.length_drop]
  omega

theorem grep_eq {ls : List (List UInt8)} {t : List UInt8} (want : Nat → Nat)
    (hls : ∀ l ∈ ls, Line l) (ht : NEWLINE ∉ t) :
    grep pattern want (unlines ls ++ t) = accepted pattern (ls.takeWhile short) :=
  grepFrom_eq want 0 hls ht List.not_mem_nil (by decide) rfl

theorem grep_writes_matches (pattern : List UInt8) (want : Nat → Nat) (ls : List (List UInt8))
    (hls : ∀ l ∈ ls, Line l ∧ l.length ≤ 1022) :
    grep pattern want (unlines ls) = accepted pattern ls := by
  have heq : grep pattern want (unlines ls ++ []) = accepted pattern (ls.takeWhile short) :=
    grep_eq want (fun l hl => (hls l hl).1) List.not_mem_nil
  rw [List.append_nil] at heq
  have hall : ∀ l ∈ ls, short l = true := fun l hl => decide_eq_true (hls l hl).2
  rw [heq, List.takeWhile_eq_self_iff.mpr hall]

theorem grep_writes_matches_ab :
    grep [97] (fun _ => 3) (unlines [[97, 98], [98], [98, 97]]) =
      accepted [97] [[97, 98], [98], [98, 97]] :=
  grep_writes_matches [97] (fun _ => 3) _ (by
    intro l hl
    have hall : ∀ l ∈ [[97, 98], [98], [98, 97]],
        (0 : UInt8) ∉ l ∧ NEWLINE ∉ l ∧ l.length ≤ 1022 := by decide
    obtain ⟨hnul, hnl, hlen⟩ := hall l hl
    exact ⟨⟨hnul, hnl⟩, hlen⟩)

theorem grep_complete_iff (pattern : List UInt8) (want : Nat → Nat) (ls : List (List UInt8))
    (t : List UInt8) (hls : ∀ l ∈ ls, Line l) (ht : Line t) :
    grep pattern want (unlines ls ++ t) = accepted pattern (ls.filter short) ↔
      ∀ l ∈ ls.dropWhile short, l.length ≤ 1022 → matchText pattern l = false := by
  have hsplit : ls.filter short = ls.takeWhile short ++ (ls.dropWhile short).filter short := by
    conv_lhs => rw [← List.takeWhile_append_dropWhile (p := short) (l := ls), List.filter_append]
    rw [List.filter_eq_self.mpr fun l hl => List.mem_takeWhile_imp hl]
  rw [grep_eq want hls ht.newline, hsplit]
  simp only [accepted, List.filter_append, List.map_append, List.self_eq_append_right,
    List.map_eq_nil_iff, List.filter_eq_nil_iff, List.mem_filter, short, decide_eq_true_eq]
  constructor
  · intro h l hl hle
    simpa using h l ⟨hl, hle⟩
  · intro h l hl
    simp [h l hl.1 hl.2]

theorem grep_complete_iff_ab :
    grep [97] (fun _ => 3) (unlines [[97]] ++ [98]) = accepted [97] ([[97]].filter short) ↔
      ∀ l ∈ [[97]].dropWhile short, l.length ≤ 1022 → matchText [97] l = false :=
  grep_complete_iff [97] (fun _ => 3) [[97]] [98]
    (fun l hl => by
      rw [List.mem_singleton.mp hl]
      exact ⟨by decide, by decide⟩)
    ⟨by decide, by decide⟩

-- A line of 1023 bytes.
def longLine : List UInt8 := List.replicate 1023 98

theorem short_longLine : short longLine = false := by
  rw [short, longLine, List.length_replicate]
  rfl

theorem line_longLine : Line longLine := by
  constructor <;>
  · intro h
    cases List.eq_of_mem_replicate h

theorem grep_stops_early :
    grep [97] (fun _ => 512) (unlines [longLine, [97]]) = [] ∧
      accepted [97] ([longLine, [97]].filter short) = [[97, NEWLINE]] := by
  have hls : ∀ l ∈ [longLine, [97]], Line l := by
    intro l hl
    rcases List.mem_pair.mp hl with rfl | rfl
    · exact line_longLine
    · exact ⟨by decide, by decide⟩
  have hlong : ¬short longLine = true := by
    rw [short_longLine]
    decide
  have hmatch : matchText [97] [97] = true := by
    simp [matchText, matchfrom, matchhere, CARET, DOLLAR]
  constructor
  · rw [← List.append_nil (unlines _), grep_eq _ hls List.not_mem_nil,
      List.takeWhile_cons_of_neg hlong]
    rfl
  · rw [List.filter_cons_of_neg hlong]
    simp [accepted, short, hmatch]

end Xv6.Grep
