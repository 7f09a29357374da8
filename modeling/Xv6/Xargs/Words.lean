import Xv6.Xargs

namespace Xv6.Xargs

open Lib

-- Bytes of a word.
abbrev Free (w : List UInt8) : Prop := ∀ y ∈ w, isDelimiter y = false

variable {w c l r : List UInt8} {x past : UInt8} {st : State} {b : Bool}

theorem takeWhile_free (hw : Free w) (h : ∀ y ∈ r.head?, isDelimiter y = true) :
    (w ++ r).takeWhile (fun y => !isDelimiter y) = w := by
  rw [List.takeWhile_append_of_pos fun y hy => by simp [hw y hy]]
  cases r with
  | nil => simp
  | cons y r => simp [h y rfl]

theorem word_run (hw : Free w) : word w.length (w ++ r) = w := by
  rw [word, List.take_left]
  simpa using takeWhile_free (r := []) hw (by simp)

theorem word_sep (hw : Free w) (hx : isDelimiter x = true) :
    word (w ++ x :: l).length (w ++ x :: l ++ r) = w := by
  rw [word, List.take_left]
  exact takeWhile_free hw (by simpa using hx)

theorem next_run (hw : Free w) : next past w.length (w ++ r) = r.headD past := by
  rw [next, word_run hw, List.drop_left]

theorem next_sep (hw : Free w) (hx : isDelimiter x = true) :
    next past (w ++ x :: l).length (w ++ x :: l ++ r) = x := by
  rw [next, word_sep hw hx, List.append_assoc, List.drop_left]
  rfl

-- The words of a chunk that end in it, and what comes after its last delimiter.
def whole (c : List UInt8) : List (List UInt8) := (c.splitOnP isDelimiter).dropLast

def last (c : List UInt8) : List UInt8 := (c.splitOnP isDelimiter).getLastD []

theorem whole_run (hw : Free w) : whole w = [] := by
  rw [whole, List.splitOnP_eq_singleton hw]
  rfl

theorem last_run (hw : Free w) : last w = w := by
  rw [last, List.splitOnP_eq_singleton hw]
  rfl

theorem whole_sep (hw : Free w) (hx : isDelimiter x = true) :
    whole (w ++ x :: l) = w :: whole l := by
  rw [whole, List.splitOnP_append_cons_of_forall_mem hw _ hx, whole]
  cases hl : l.splitOnP isDelimiter with
  | nil => exact absurd hl (List.splitOnP_ne_nil _ _)
  | cons v vs => simp

theorem last_sep (hw : Free w) (hx : isDelimiter x = true) : last (w ++ x :: l) = last l := by
  rw [last, List.splitOnP_append_cons_of_forall_mem hw _ hx, last]
  cases hl : l.splitOnP isDelimiter with
  | nil => exact absurd hl (List.splitOnP_ne_nil _ _)
  | cons v vs => simp

-- What is run for a chunk, if a delimiter follows it in buf (b) or not, and what is
-- left of it for later.
def ran (b : Bool) (c : List UInt8) : List (List UInt8) :=
  whole c ++ if b then words isDelimiter (last c) else []

def left (b : Bool) (c : List UInt8) : List UInt8 := if b then [] else last c

theorem ran_run (hw : Free w) : ran b w = if b then words isDelimiter w else [] := by
  rw [ran, whole_run hw, last_run hw, List.nil_append]

theorem left_run (hw : Free w) : left b w = if b then [] else w := by
  rw [left, last_run hw]

theorem ran_sep (hw : Free w) (hx : isDelimiter x = true) :
    ran b (w ++ x :: l) = w :: ran b l := by
  rw [ran, whole_sep hw hx, last_sep hw hx, ran, List.cons_append]

theorem left_sep (hw : Free w) (hx : isDelimiter x = true) :
    left b (w ++ x :: l) = left b l := by
  rw [left, last_sep hw hx, left]

-- The words that a text has are words that fit in arg.
def Short (l : List UInt8) : Prop := ∀ w, Free w → w <:+: l → w.length < ARG

theorem Short.of_infix (h : Short l) (hc : c <:+: l) : Short c :=
  fun w hw hin => h w hw (hin.trans hc)

theorem short_of_words (h : ∀ w ∈ words isDelimiter l, w.length < ARG) : Short l := by
  intro w hw hin
  by_cases hne : w = []
  · rw [hne]
    decide
  · obtain ⟨u, m, rfl⟩ := hin
    obtain ⟨v, hv, hwv⟩ := exists_word hw hne u m
    exact lt_of_le_of_lt hwv.length_le (h v hv)

@[simp] theorem scan_zero (fuel : Nat) : scan past fuel 0 r st = st := by
  cases fuel with
  | zero => rfl
  | succ fuel => simp [scan]

-- A chunk that is read when nothing is left from before.
theorem scan_clean {fuel : Nat} {buf : List UInt8} {args : List (List UInt8)}
    (hfuel : c.length ≤ fuel) (hshort : Short c) :
    scan past fuel c.length (c ++ r) ⟨buf, [], false, args⟩ =
      ⟨buf, left (isDelimiter (r.headD past)) c, false,
        args ++ ran (isDelimiter (r.headD past)) c⟩ := by
  induction c using splitInduction isDelimiter generalizing fuel args with
  | run w hw =>
    rw [ran_run hw, left_run hw]
    by_cases hne : w = []
    · subst hne
      cases isDelimiter (r.headD past) <;> simp
    · cases fuel with
      | zero => exact absurd (List.length_eq_zero_iff.mp (Nat.le_zero.mp hfuel)) hne
      | succ fuel =>
        have hlen : ¬ ARG ≤ w.length := not_le.mpr (hshort w hw (List.infix_refl w))
        have hpos : w.length ≠ 0 := fun hz => hne (List.length_eq_zero_iff.mp hz)
        rw [scan, if_neg hpos]
        simp only [round, word_run hw, next_run hw, List.isEmpty_nil, Bool.and_true,
          if_neg hlen]
        cases isDelimiter (r.headD past) <;> simp [words_run hw hne]
  | sep w x l hw hx ih =>
    rw [ran_sep hw hx, left_sep hw hx]
    cases fuel with
    | zero => simp at hfuel
    | succ fuel =>
      have hlen : ¬ ARG ≤ w.length := not_le.mpr (hshort w hw ⟨[], x :: l, rfl⟩)
      have hpos : (w ++ x :: l).length ≠ 0 := by simp
      have hrest : (w ++ x :: l).length - (w.length + 1) = l.length := by
        rw [List.length_append, List.length_cons]
        omega
      have hdrop : (w ++ x :: l ++ r).drop (w.length + 1) = l ++ r := by
        rw [List.append_assoc, ← List.drop_drop, List.drop_left]
        rfl
      have hfuel : l.length ≤ fuel := by
        rw [List.length_append, List.length_cons] at hfuel
        omega
      rw [scan, if_neg hpos]
      simp only [round, word_sep hw hx, next_sep hw hx, hx, List.isEmpty_nil, Bool.and_true,
        if_true, if_neg hlen, Bool.false_eq_true, if_false, hrest, hdrop]
      rw [ih hfuel (hshort.of_infix ⟨w ++ [x], [], by simp⟩), List.append_assoc]
      rfl

-- A chunk that is read when something is left from before: the first delimiter is
-- taken for an error.
theorem scan_dirty (past : UInt8) (r buf : List UInt8) {fuel : Nat} {prev : List UInt8}
    {args : List (List UInt8)} (hfuel : c.length ≤ fuel) (hne : c ≠ []) (hfree : Free prev) (hprev : prev ≠ [])
    (hshort : Short (prev ++ c)) :
    (scan past fuel c.length (c ++ r) ⟨buf, prev, false, args⟩).args = args ∧
      ((scan past fuel c.length (c ++ r) ⟨buf, prev, false, args⟩).error = false → Free c ∧
        (scan past fuel c.length (c ++ r) ⟨buf, prev, false, args⟩).prev = c) := by
  have hempty : prev.isEmpty = false := by simpa using hprev
  obtain ⟨fuel, rfl⟩ : ∃ k, fuel = k + 1 :=
    Nat.exists_eq_succ_of_ne_zero fun hz =>
      hne (List.length_eq_zero_iff.mp (Nat.le_zero.mp (hz ▸ hfuel)))
  have hpos : c.length ≠ 0 := fun hz => hne (List.length_eq_zero_iff.mp hz)
  rw [scan, if_neg hpos]
  induction c using splitInduction isDelimiter with
  | run w hw =>
    have hlen : w.length + prev.length < ARG := by
      have h := hshort (prev ++ w)
        (fun y hy => (List.mem_append.mp hy).elim (hfree y) (hw y)) (List.infix_refl _)
      rw [List.length_append] at h
      omega
    simp only [round, word_run hw, next_run hw, hempty, Bool.and_false, Bool.false_eq_true,
      if_false, if_pos hlen]
    cases isDelimiter (r.headD past) with
    | false => simpa using hw
    | true => simp
  | sep w x l hw hx _ =>
    have hlen : w.length + prev.length < ARG := by
      have h := hshort (prev ++ w)
        (fun y hy => (List.mem_append.mp hy).elim (hfree y) (hw y)) ⟨[], x :: l, by simp⟩
      rw [List.length_append] at h
      omega
    simp only [round, word_sep hw hx, next_sep hw hx, hx, hempty, Bool.and_false,
      Bool.false_eq_true, if_false, if_true, if_pos hlen]
    simp

-- All the bytes that are read, and the runs of read() that return something.
def stream (reads : List (List UInt8 × UInt8)) : List UInt8 := (reads.map Prod.fst).flatten

variable {reads : List (List UInt8 × UInt8)}

theorem loop_dirty {buf prev : List UInt8} {args : List (List UInt8)}
    (hne : ∀ x ∈ reads, x.1 ≠ []) (hfree : Free prev) (hprev : prev ≠ [])
    (hshort : Short (prev ++ stream reads)) :
    (loop reads ⟨buf, prev, false, args⟩).args = args := by
  induction reads generalizing buf prev with
  | nil => rfl
  | cons x reads ih =>
    obtain ⟨c, past⟩ := x
    have hc : c ≠ [] := hne (c, past) (List.mem_cons_self ..)
    have hstream : stream ((c, past) :: reads) = c ++ stream reads := rfl
    rw [hstream] at hshort
    obtain ⟨hargs, hleft⟩ := scan_dirty past (buf.drop c.length) (fill c buf)
      (le_refl c.length) hc hfree hprev (hshort.of_infix ⟨[], stream reads, by simp⟩)
    rw [loop, if_neg Bool.false_ne_true]
    simp only
    rw [fill] at hargs hleft ⊢
    generalize hst : scan past c.length c.length (c ++ buf.drop c.length)
      ⟨c ++ buf.drop c.length, prev, false, args⟩ = st at hargs hleft ⊢
    obtain ⟨buf', prev', error, args'⟩ := st
    simp only at hargs hleft
    subst hargs
    cases error with
    | true => cases reads <;> simp [loop]
    | false =>
      obtain ⟨hcfree, rfl⟩ := hleft rfl
      exact ih (fun y hy => hne y (List.mem_cons_of_mem _ hy)) hcfree hc
        (hshort.of_infix ⟨prev, [], by simp⟩)

-- Whether a delimiter follows the bytes of a chunk in buf.
def follows (c : List UInt8) (past : UInt8) (buf : List UInt8) : Bool :=
  isDelimiter ((buf.drop c.length).headD past)

-- The words that are run, from the buffer that the reads find on.
def out : List UInt8 → List (List UInt8 × UInt8) → List (List UInt8)
  | _, [] => []
  | buf, (c, past) :: reads =>
    ran (follows c past buf) c ++
      if left (follows c past buf) c = [] then out (fill c buf) reads else []

theorem left_infix (b : Bool) (c : List UInt8) : Free (left b c) ∧ left b c <:+ c := by
  induction c using splitInduction isDelimiter with
  | run w hw =>
    rw [left_run hw]
    cases b with
    | false => exact ⟨hw, List.suffix_refl w⟩
    | true => exact ⟨(fun y hy => by cases hy), List.nil_suffix⟩
  | sep w x l hw hx ih =>
    rw [left_sep hw hx]
    exact ⟨ih.1, ih.2.trans ⟨w ++ [x], by simp⟩⟩

theorem args_loop (buf : List UInt8) (args : List (List UInt8)) (hne : ∀ x ∈ reads, x.1 ≠ [])
    (hshort : Short (stream reads)) :
    (loop reads ⟨buf, [], false, args⟩).args = args ++ out buf reads := by
  induction reads generalizing buf args with
  | nil => simp [loop, out]
  | cons x reads ih =>
    obtain ⟨c, past⟩ := x
    have hstream : stream ((c, past) :: reads) = c ++ stream reads := rfl
    rw [hstream] at hshort
    have hne' : ∀ y ∈ reads, y.1 ≠ [] := fun y hy => hne y (List.mem_cons_of_mem _ hy)
    rw [loop, if_neg Bool.false_ne_true]
    simp only
    rw [fill, scan_clean le_rfl (hshort.of_infix ⟨[], stream reads, by simp⟩), out, fill]
    by_cases hleft : left (follows c past buf) c = []
    · rw [if_pos hleft, ← List.append_assoc]
      unfold follows at hleft ⊢
      rw [hleft]
      exact ih _ _ hne' (hshort.of_infix ⟨c, [], by simp⟩)
    · obtain ⟨hfree, d, hd⟩ := left_infix (follows c past buf) c
      rw [if_neg hleft, List.append_nil]
      refine loop_dirty hne' hfree hleft (hshort.of_infix ⟨d, [], ?_⟩)
      rw [List.append_nil, ← List.append_assoc]
      exact congrArg (· ++ stream reads) hd

-- Every delimiter of the chunk comes after a byte of a word.
def Neat (c : List UInt8) : Prop :=
  ∀ l x m, c = l ++ x :: m → isDelimiter x = true → ∃ y, l.getLast? = some y ∧ isDelimiter y = false

def Ends (c : List UInt8) : Prop := ∃ x, c.getLast? = some x ∧ isDelimiter x = true

-- The reads that xargs can cope with. Every chunk begins with a word and has one
-- delimiter between two words. Every chunk but the last one ends with a delimiter,
-- and so does the last one, unless buf has a delimiter after it.
def Tidy : List UInt8 → List (List UInt8 × UInt8) → Prop
  | _, [] => True
  | buf, [(c, past)] => Neat c ∧ (Ends c ∨ follows c past buf = true)
  | buf, (c, _) :: reads => Neat c ∧ Ends c ∧ Tidy (fill c buf) reads

theorem neat_run (hw : Free w) : Neat w := by
  rintro l x m rfl hx
  rw [hw x (by simp)] at hx
  cases hx

theorem neat_sep (hw : Free w) (hx : isDelimiter x = true) :
    Neat (w ++ x :: l) ↔ w ≠ [] ∧ Neat l := by
  constructor
  · intro h
    refine ⟨?_, ?_⟩
    · rintro rfl
      obtain ⟨y, hy, -⟩ := h [] x l rfl hx
      cases hy
    · rintro u y m rfl hy
      obtain ⟨z, hz, hzfree⟩ := h (w ++ x :: u) y m (by simp) hy
      rcases List.eq_nil_or_concat u with rfl | ⟨u, v, rfl⟩
      · rw [List.getLast?_concat] at hz
        cases hz
        rw [hx] at hzfree
        cases hzfree
      · refine ⟨z, ?_, hzfree⟩
        rw [List.concat_eq_append] at hz ⊢
        rw [← List.cons_append, ← List.append_assoc, List.getLast?_concat] at hz
        rw [List.getLast?_concat]
        exact hz
  · rintro ⟨hne, hl⟩ u y m heq hy
    rcases List.append_eq_append_iff.mp heq with ⟨v, rfl, hv⟩ | ⟨v, rfl, hv⟩
    · cases v with
      | nil =>
        obtain ⟨z, hz⟩ : ∃ z, w.getLast? = some z := by
          rw [← Option.isSome_iff_exists]
          simpa using hne
        exact ⟨z, by simpa using hz, hw z (List.mem_of_getLast? hz)⟩
      | cons v vs =>
        rw [List.cons_append] at hv
        injection hv with hxv hvs
        obtain ⟨z, hz, hzfree⟩ := hl vs y m hvs hy
        refine ⟨z, ?_, hzfree⟩
        simp [List.getLast?_append, List.getLast?_cons, hz]
    · cases v with
      | nil =>
        obtain ⟨z, hz⟩ : ∃ z, u.getLast? = some z := by
          rw [← Option.isSome_iff_exists]
          simpa using hne
        exact ⟨z, hz, hw z (by simpa using List.mem_of_getLast? hz)⟩
      | cons v vs =>
        rw [List.cons_append] at hv
        injection hv with hyv hvs
        rw [hw y (by simp [hyv])] at hy
        cases hy

theorem ends_sep (w : List UInt8) (hx : isDelimiter x = true) :
    Ends (w ++ x :: l) ↔ l = [] ∨ Ends l := by
  unfold Ends
  rcases List.eq_nil_or_concat l with rfl | ⟨u, v, rfl⟩
  · simp [hx]
  · rw [List.concat_eq_append, ← List.cons_append, ← List.append_assoc, List.getLast?_concat,
      List.getLast?_concat]
    simp

theorem left_eq_nil (hne : c ≠ []) : left b c = [] ↔ Ends c ∨ b = true := by
  induction c using splitInduction isDelimiter with
  | run w hw =>
    rw [left_run hw]
    have hends : ¬ Ends w := by
      rintro ⟨x, hx, hd⟩
      rw [hw x (List.mem_of_getLast? hx)] at hd
      cases hd
    cases b <;> simp [hends, hne]
  | sep w x l hw hx ih =>
    rw [left_sep hw hx, ends_sep w hx]
    by_cases hl : l = []
    · subst hl
      simp [left, last]
    · simp [ih hl, hl]

theorem mem_ran_nil : [] ∉ ran b c ↔ Neat c := by
  induction c using splitInduction isDelimiter with
  | run w hw =>
    rw [ran_run hw]
    refine ⟨fun _ => neat_run hw, fun _ hmem => ?_⟩
    cases b with
    | false => cases hmem
    | true => exact nil_notMem_words w hmem
  | sep w x l hw hx ih =>
    rw [ran_sep hw hx, neat_sep hw hx, List.mem_cons, not_or, ih, eq_comm]

theorem ran_eq_words (hleft : left b c = []) (hneat : Neat c) : ran b c = words isDelimiter c := by
  induction c using splitInduction isDelimiter with
  | run w hw =>
    rw [left_run hw] at hleft
    rw [ran_run hw]
    cases b with
    | false =>
      rw [if_neg Bool.false_ne_true] at hleft
      simp [hleft]
    | true => rfl
  | sep w x l hw hx ih =>
    rw [left_sep hw hx] at hleft
    obtain ⟨hne, hl⟩ := (neat_sep hw hx).mp hneat
    rw [ran_sep hw hx, words_sep hw hx, words_run hw hne, ih hleft hl]
    rfl

theorem length_ran (b : Bool) (c : List UInt8) :
    (ran b c).flatten.length + (left b c).length = c.countP fun y => !isDelimiter y := by
  induction c using splitInduction isDelimiter with
  | run w hw =>
    rw [ran_run hw, left_run hw]
    cases b with
    | false =>
      rw [List.countP_eq_length.mpr fun y hy => by simp [hw y hy]]
      simp
    | true =>
      rw [if_pos rfl, if_pos rfl, length_flatten_words]
      rfl
  | sep w x l hw hx ih =>
    rw [ran_sep hw hx, left_sep hw hx, List.countP_append, List.countP_cons, ← ih,
      List.countP_eq_length.mpr fun y hy => by simp [hw y hy]]
    simp [hx]
    omega

-- A word that goes on in the next chunk is run too soon.
theorem ran_not_prefix {y : UInt8} (hy : isDelimiter y = false) (hne : c ≠ []) (hends : ¬ Ends c)
    (hneat : Neat c) (l : List UInt8) (rest : List (List UInt8)) :
    ran true c ++ rest ≠ words isDelimiter (c ++ y :: l) := by
  induction c using splitInduction isDelimiter with
  | run w hw =>
    rw [ran_run hw, if_pos rfl, words_run hw hne]
    have hwy : Free (w ++ [y]) := fun z hz =>
      (List.mem_append.mp hz).elim (hw z) fun hz => List.mem_singleton.mp hz ▸ hy
    rw [show w ++ y :: l = w ++ [y] ++ l by simp]
    intro heq
    have hlong : ∀ v ∈ (words isDelimiter (w ++ [y] ++ l)).head?, w.length < v.length := by
      induction l using splitInduction isDelimiter with
      | run v hv =>
        rw [words_run (fun z hz => (List.mem_append.mp hz).elim (hwy z) (hv z)) (by simp)]
        simp
      | sep v x l hv hx _ =>
        have hwyv : Free (w ++ [y] ++ v) :=
          fun z hz => (List.mem_append.mp hz).elim (hwy z) (hv z)
        rw [← List.append_assoc, words_sep hwyv hx, words_run hwyv (by simp)]
        simp
    rw [← heq] at hlong
    exact lt_irrefl _ (hlong w rfl)
  | sep w x c hw hx ih =>
    obtain ⟨hwne, hc⟩ := (neat_sep hw hx).mp hneat
    rw [ends_sep w hx, not_or] at hends
    rw [ran_sep hw hx, List.append_assoc, List.cons_append, List.cons_append, words_sep hw hx,
      words_run hw hwne]
    intro heq
    injection heq with _ heq
    exact ih hends.1 hends.2 hc heq

theorem tidy_cons {buf : List UInt8} (hne : reads ≠ []) :
    Tidy buf ((c, past) :: reads) ↔ Neat c ∧ Ends c ∧ Tidy (fill c buf) reads := by
  cases reads with
  | nil => exact absurd rfl hne
  | cons x reads => rfl

theorem out_cons_of_ends {m : List UInt8} {rest : List (List UInt8)}
    (hends : Ends c) (hleft : left b c = []) :
    ran b c ++ rest = words isDelimiter (c ++ m) ↔ Neat c ∧ rest = words isDelimiter m := by
  obtain ⟨x, hlast, hx⟩ := hends
  obtain ⟨u, rfl⟩ := List.getLast?_eq_some_iff.mp hlast
  have hwords : words isDelimiter (u ++ [x] ++ m) =
      words isDelimiter (u ++ [x]) ++ words isDelimiter m := by
    rw [← words_append hx, List.append_assoc]
    rfl
  rw [hwords]
  constructor
  · intro heq
    have hneat : Neat (u ++ [x]) := by
      refine mem_ran_nil (b := b).mp fun hmem => ?_
      have hmem' := List.mem_append_left rest hmem
      rw [heq, ← hwords] at hmem'
      exact nil_notMem_words _ hmem'
    rw [ran_eq_words hleft hneat] at heq
    exact ⟨hneat, List.append_cancel_left heq⟩
  · rintro ⟨hneat, rfl⟩
    rw [ran_eq_words hleft hneat]

theorem out_cons_of_not_ends {buf : List UInt8} {d : List UInt8} {past' : UInt8}
    (hne : c ≠ []) (hd : d ≠ []) (hends : ¬ Ends c) (reads : List (List UInt8 × UInt8)) :
    ran true c ++ out buf ((d, past') :: reads) ≠
      words isDelimiter (c ++ stream ((d, past') :: reads)) := by
  intro heq
  have hnil : [] ∉ ran true c ++ out buf ((d, past') :: reads) := by
    rw [heq]
    exact nil_notMem_words _
  rw [List.mem_append, not_or] at hnil
  have hneat : Neat c := mem_ran_nil.mp hnil.1
  obtain ⟨y, d, rfl⟩ := List.exists_cons_of_ne_nil hd
  by_cases hy : isDelimiter y = true
  · -- The delimiter that ends the word is taken for an empty word.
    refine hnil.2 (List.mem_append_left _ ?_)
    have hsep := ran_sep (b := follows (y :: d) past' buf) (l := d) (w := [])
      (fun z hz => by cases hz) hy
    rw [List.nil_append] at hsep
    rw [hsep]
    exact List.mem_cons_self ..
  · exact ran_not_prefix (Bool.eq_false_iff.mpr hy) hne hends hneat _ _ heq

theorem out_eq_words (buf : List UInt8) (hne : ∀ x ∈ reads, x.1 ≠ []) :
    out buf reads = words isDelimiter (stream reads) ↔ Tidy buf reads := by
  induction reads generalizing buf with
  | nil => simp [out, stream, Tidy]
  | cons x reads ih =>
    obtain ⟨c, past⟩ := x
    have hc : c ≠ [] := hne (c, past) (List.mem_cons_self ..)
    have hstream : stream ((c, past) :: reads) = c ++ stream reads := rfl
    have hih := ih (fill c buf) fun y hy => hne y (List.mem_cons_of_mem _ hy)
    rw [hstream, out]
    by_cases hleft : left (follows c past buf) c = []
    · rw [if_pos hleft]
      rcases (left_eq_nil hc).mp hleft with hends | hfollows
      · rw [out_cons_of_ends hends hleft, hih]
        cases reads with
        | nil => simp [Tidy, hends]
        | cons y reads => simp [Tidy, hends]
      · cases reads with
        | nil =>
          have hneat := mem_ran_nil (b := follows c past buf) (c := c)
          simp only [out, stream, List.map_nil, List.flatten_nil, List.append_nil, Tidy,
            hfollows, or_true, and_true]
          rw [hfollows] at hleft hneat
          refine ⟨fun heq => hneat.mp ?_, ran_eq_words hleft⟩
          rw [heq]
          exact nil_notMem_words c
        | cons y reads =>
          have hmore : y :: reads ≠ [] := by simp
          by_cases hends : Ends c
          · rw [out_cons_of_ends hends hleft, hih, tidy_cons hmore]
            simp [hends]
          · rw [tidy_cons hmore, hfollows]
            refine ⟨fun heq => absurd heq ?_, fun h => absurd h.2.1 hends⟩
            exact out_cons_of_not_ends hc (hne y (by simp)) hends reads
    · rw [if_neg hleft, List.append_nil]
      have hends : ¬ (Ends c ∨ follows c past buf = true) := fun h => hleft ((left_eq_nil hc).mpr h)
      rw [not_or] at hends
      refine ⟨fun heq => ?_, fun htidy => ?_⟩
      · -- What is left is not run any more.
        have hcount := length_ran (follows c past buf) c
        rw [heq, length_flatten_words, List.countP_append] at hcount
        have hpos : 0 < (left (follows c past buf) c).length := List.length_pos_iff.mpr hleft
        omega
      · cases reads with
        | nil => exact absurd htidy.2 (not_or.mpr hends)
        | cons y reads => exact absurd htidy.2.1 hends.1

-- The commands are those of the words exactly if the reads are tidy.
theorem runs_words_iff_tidy (argv : List (List UInt8)) (hargv : 2 ≤ argv.length)
    (reads : List (List UInt8 × UInt8)) (hne : ∀ x ∈ reads, x.1 ≠ [] ∧ x.1.length ≤ BUF)
    (hshort : ∀ w ∈ words isDelimiter (stream reads), w.length ≤ 127) :
    main argv reads = (words isDelimiter (stream reads)).map (fun w => argv.tail ++ [w]) ↔
      Tidy start.buf reads := by
  have hshort' : Short (stream reads) :=
    short_of_words fun w hw => Nat.lt_succ_of_le (hshort w hw)
  have hne' : ∀ x ∈ reads, x.1 ≠ [] := fun x hx => (hne x hx).1
  have hargs : (loop reads start).args = out start.buf reads := by
    have h := args_loop start.buf [] hne' hshort'
    rwa [List.nil_append] at h
  have hinj : ∀ v w : List UInt8, argv.tail ++ [v] = argv.tail ++ [w] → v = w := fun v w h => by
    simpa using h
  rw [main, if_neg (by omega), hargs, ← out_eq_words _ hne']
  exact List.map_inj_right hinj

-- "a b\n" in one chunk.
theorem runs_words_one_line :
    main [[120], [101]] [([97, 32, 98, 10], 0)] = [[[101], [97]], [[101], [98]]] ∧
      Tidy start.buf [([97, 32, 98, 10], 0)] := by
  have hmain : main [[120], [101]] [([97, 32, 98, 10], 0)] = [[[101], [97]], [[101], [98]]] := by
    decide
  refine ⟨hmain, (runs_words_iff_tidy [[120], [101]] (by decide) _ (by decide) ?_).mp ?_⟩
  · decide
  · rw [hmain]
    decide

-- "ab" and "cd\n", one word that two reads return, is run as two words.
theorem split_word_runs_twice :
    main [[120], [101]] [([97, 98], 0), ([99, 100, 10], 0)] = [[[101], [97, 98]], [[101], [99, 100]]] ∧
      words isDelimiter (stream [([97, 98], 0), ([99, 100, 10], 0)]) = [[97, 98, 99, 100]] := by
  decide

end Xv6.Xargs
