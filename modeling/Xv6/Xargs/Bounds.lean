import Mathlib.Data.List.Basic
import Xv6.Xargs.Words

namespace Xv6.Xargs

open Lib

-- The arrays of main() that the loop reads and writes.
inductive Arr where
  | buf
  | arg
  | prev
  deriving DecidableEq

def Arr.size : Arr → Nat
  | buf => BUF
  | arg | prev => ARG

structure Access where
  arr : Arr
  index : Nat
  deriving DecidableEq

def Access.Inside (a : Access) : Prop := a.index < a.arr.size

instance (a : Access) : Decidable a.Inside := inferInstanceAs (Decidable (_ < _))

-- The bytes of arr that a loop or memmove() goes through.
def span (arr : Arr) (start len : Nat) : List Access :=
  (List.range len).map fun k => ⟨arr, start + k⟩

-- A round of the inner loop: what it starts with.
structure Turn where
  past : UInt8
  n : Nat
  rest : List UInt8
  st : State

namespace Turn

variable (t : Turn)

def len : Nat := (word t.n t.rest).length

-- i at the start of the round.
def start : Nat := BUF - t.rest.length

def ends : Bool := isDelimiter (next t.past t.n t.rest)

-- What the round reads and writes: the word and the byte after it, and then the arrays
-- that its branch copies.
def accesses : List Access :=
  span .buf t.start t.len ++ ⟨.buf, t.start + t.len⟩ ::
    if t.ends && t.st.prev.isEmpty then
      if ARG ≤ t.len then []
      else span .buf t.start t.len ++ span .arg 0 t.len ++ [⟨.arg, t.len⟩]
    else if t.ends then
      if t.len + t.st.prev.length < ARG then []
      else span .prev 0 t.st.prev.length ++ span .arg 0 t.st.prev.length ++
        span .buf t.start t.len ++ span .arg t.st.prev.length t.len ++
        [⟨.arg, t.len + t.st.prev.length⟩]
    else span .buf t.start t.len ++ span .prev 0 t.len

-- The word does not go to the end of buf, a word that began in an earlier read is
-- refused, and what is kept for the next read fits.
structure Fits : Prop where
  buf : t.len < t.rest.length
  joined : t.ends = true → t.st.prev ≠ [] → t.len + t.st.prev.length < ARG
  kept : t.ends = false → t.len ≤ ARG

end Turn

-- The rounds of scan().
def turns (past : UInt8) : Nat → Nat → List UInt8 → State → List Turn
  | 0, _, _, _ => []
  | fuel + 1, n, rest, st =>
    if n = 0 then []
    else
      ⟨past, n, rest, st⟩ ::
        if (round past n rest st).error then []
        else
          let len := (word n rest).length + 1
          turns past fuel (n - len) (rest.drop len) (round past n rest st)

-- The rounds of loop().
def loopTurns : List (List UInt8 × UInt8) → State → List Turn
  | [], _ => []
  | (chunk, past) :: reads, st =>
    if st.error then []
    else
      let buf := fill chunk st.buf
      let st := { st with buf := buf }
      turns past chunk.length chunk.length buf st ++
        loopTurns reads (scan past chunk.length chunk.length buf st)

-- The state that a round leaves.
def Turn.after (t : Turn) : State := round t.past t.n t.rest t.st

-- They are the rounds that scan() and loop() make: each one starts where the one before ends.
theorem scan_eq_turns (past : UInt8) (fuel n : Nat) (rest : List UInt8) (st : State) :
    scan past fuel n rest st = ((turns past fuel n rest st).map Turn.after).getLastD st := by
  induction fuel generalizing n rest st with
  | zero => rfl
  | succ fuel ih =>
    rw [scan, turns]
    split
    · rfl
    · dsimp only
      rw [List.map_cons, List.getLastD_cons]
      split
      · rfl
      · exact ih ..

-- All accesses of a run: those of the loop, and of the copy after it.
def accesses (reads : List (List UInt8 × UInt8)) : List Access :=
  (loopTurns reads start).flatMap Turn.accesses ++
    let prev := (loop reads start).prev
    if prev.isEmpty then []
    else span .prev 0 prev.length ++ span .arg 0 prev.length ++ [⟨.arg, prev.length⟩]

theorem inside_span {arr : Arr} {start len : Nat} :
    (∀ a ∈ span arr start len, a.Inside) ↔ len = 0 ∨ start + len ≤ arr.size := by
  simp only [span, List.mem_map, List.mem_range, forall_exists_index, and_imp,
    forall_apply_eq_imp_iff₂, Access.Inside]
  constructor
  · intro h
    by_cases hz : len = 0
    · exact .inl hz
    · have hlast := h (len - 1) (by omega)
      omega
  · intro h k hk
    omega

theorem Turn.len_le (t : Turn) : t.len ≤ t.rest.length := by
  have htake : t.len ≤ (t.rest.take t.n).length := (List.takeWhile_prefix _).length_le
  rw [List.length_take] at htake
  omega

-- A round stays inside the arrays exactly if its word fits.
theorem Turn.inside_iff {t : Turn} (hrest : t.rest.length ≤ BUF) :
    (∀ a ∈ t.accesses, a.Inside) ↔ t.Fits := by
  have hle := t.len_le
  have hbuf : ∀ a ∈ span .buf t.start t.len, a.Inside := by
    rw [inside_span]
    simp only [Turn.start, Arr.size]
    omega
  have hnext : Access.Inside ⟨.buf, t.start + t.len⟩ ↔ t.len < t.rest.length := by
    simp only [Access.Inside, Turn.start, Arr.size]
    omega
  rw [Turn.accesses, List.forall_mem_append, List.forall_mem_cons, hnext, and_iff_right hbuf]
  have hfits : t.Fits ↔ t.len < t.rest.length ∧
      (t.ends = true → t.st.prev ≠ [] → t.len + t.st.prev.length < ARG) ∧
      (t.ends = false → t.len ≤ ARG) :=
    ⟨fun h => ⟨h.1, h.2, h.3⟩, fun h => ⟨h.1, h.2.1, h.2.2⟩⟩
  rw [hfits]
  refine and_congr_right fun _ => ?_
  cases hends : t.ends with
  | false =>
    simp only [Bool.false_and, Bool.false_eq_true, if_false, List.forall_mem_append, inside_span,
      Arr.size, false_implies, true_and, true_implies]
    rw [inside_span] at hbuf
    simp only [Arr.size] at hbuf
    omega
  | true =>
    by_cases hprev : t.st.prev = []
    · simp only [hprev, List.isEmpty_nil, Bool.and_self, if_true]
      split
      · simp
      · rw [inside_span] at hbuf
        simp only [List.forall_mem_append, inside_span, List.forall_mem_singleton]
        simp only [Access.Inside, Arr.size] at hbuf ⊢
        simp
        omega
    · have hempty : t.st.prev.isEmpty = false := by simpa using hprev
      simp only [hempty, Bool.and_false, Bool.false_eq_true, if_false, if_true]
      split
      · rename_i hlt
        simp [hlt]
      · rename_i hlt
        simp only [List.forall_mem_append, List.forall_mem_singleton, Access.Inside, Arr.size]
        simp [hprev]
        omega

theorem length_fill {chunk buf : List UInt8} (hbuf : buf.length = BUF)
    (hchunk : chunk.length ≤ BUF) : (fill chunk buf).length = BUF := by
  rw [fill, List.length_append, List.length_drop]
  omega

theorem rest_le_of_mem_turns {past : UInt8} {fuel n : Nat} {rest : List UInt8} {st : State}
    {t : Turn} (ht : t ∈ turns past fuel n rest st) : t.rest.length ≤ rest.length := by
  induction fuel generalizing n rest st with
  | zero => cases ht
  | succ fuel ih =>
    simp only [turns] at ht
    split at ht
    · cases ht
    · rcases List.mem_cons.mp ht with rfl | ht
      · exact Nat.le_refl _
      · split at ht
        · cases ht
        · have hle := ih ht
          rw [List.length_drop] at hle
          omega

theorem buf_round (past : UInt8) (n : Nat) (rest : List UInt8) (st : State) :
    (round past n rest st).buf = st.buf := by
  unfold round
  dsimp only
  split_ifs <;> rfl

theorem buf_scan (past : UInt8) (fuel n : Nat) (rest : List UInt8) (st : State) :
    (scan past fuel n rest st).buf = st.buf := by
  induction fuel generalizing n rest st with
  | zero => rfl
  | succ fuel ih =>
    simp only [scan]
    split
    · rfl
    split
    · exact buf_round ..
    · rw [ih, buf_round]

theorem rest_le_of_mem_loopTurns {reads : List (List UInt8 × UInt8)} {st : State}
    (hreads : ∀ r ∈ reads, r.1.length ≤ BUF) (hbuf : st.buf.length = BUF) {t : Turn}
    (ht : t ∈ loopTurns reads st) : t.rest.length ≤ BUF := by
  induction reads generalizing st with
  | nil => cases ht
  | cons r reads ih =>
    rw [List.forall_mem_cons] at hreads
    have hfill := length_fill hbuf hreads.1
    simp only [loopTurns] at ht
    split at ht
    · cases ht
    · rcases List.mem_append.mp ht with ht | ht
      · exact hfill ▸ rest_le_of_mem_turns ht
      · refine ih hreads.2 ?_ ht
        rw [buf_scan]
        exact hfill

theorem accesses_iff_turns (reads : List (List UInt8 × UInt8))
    (hreads : ∀ r ∈ reads, r.1.length ≤ BUF) :
    (∀ a ∈ accesses reads, a.Inside) ↔
      (∀ t ∈ loopTurns reads start, t.Fits) ∧ (loop reads start).prev.length < ARG := by
  have hstart : start.buf.length = BUF := List.length_replicate ..
  have hturns : (∀ a ∈ (loopTurns reads start).flatMap Turn.accesses, a.Inside) ↔
      ∀ t ∈ loopTurns reads start, t.Fits := by
    simp only [List.mem_flatMap, forall_exists_index, and_imp]
    constructor
    · intro h t ht
      exact (Turn.inside_iff (rest_le_of_mem_loopTurns hreads hstart ht)).mp fun a => h a t ht
    · intro h a t ht
      exact (Turn.inside_iff (rest_le_of_mem_loopTurns hreads hstart ht)).mpr (h t ht) a
  rw [accesses, List.forall_mem_append, hturns]
  refine and_congr_right fun _ => ?_
  by_cases hprev : (loop reads start).prev = []
  · simp [hprev, ARG]
  · have hempty : (loop reads start).prev.isEmpty = false := by simpa using hprev
    simp only [hempty, Bool.false_eq_true, if_false, List.forall_mem_append, inside_span,
      List.forall_mem_singleton]
    simp only [Access.Inside, Arr.size]
    omega

-- With p bytes pending from the read before, no word of the chunk c is refused before what
-- comes after the last delimiter of c.
def Reaches (p : Nat) (c : List UInt8) : Prop :=
  if p = 0 then ∀ w ∈ whole c, w.length < ARG else whole c = []

-- The chunk c, which a delimiter follows in buf or not (b), with p bytes pending. A word
-- that began in the read before is short, so that it is refused. What comes after the last
-- delimiter does not fill buf, and if it is to wait for the next read it fits.
structure ChunkFits (p : Nat) (b : Bool) (c : List UInt8) : Prop where
  joined : p ≠ 0 → ∀ w ∈ (whole c).head?, w.length + p < ARG
  buf : Reaches p c → last c ≠ [] → c.length < BUF
  ended : Reaches p c → last c ≠ [] → b = true → p ≠ 0 → (last c).length + p < ARG
  kept : Reaches p c → last c ≠ [] → b = false → (last c).length ≤ ARG

-- No word is refused.
def Passes (p : Nat) (b : Bool) (c : List UInt8) : Prop :=
  Reaches p c ∧ (last c ≠ [] → b = true → p = 0 ∧ (last c).length < ARG)

-- The condition on the reads, from the bytes that are in buf and the number of bytes that are
-- pending on.
def ReadsFit : List UInt8 → Nat → List (List UInt8 × UInt8) → Prop
  | _, p, [] => p < ARG
  | buf, p, (c, past) :: reads =>
    ChunkFits p (follows c past buf) c ∧
      (Passes p (follows c past buf) c →
        ReadsFit (fill c buf) (left (follows c past buf) c).length reads)

section Chunk

variable {c r w l buf prev : List UInt8} {args : List (List UInt8)} {x past : UInt8} {fuel : Nat}
  {st : State}

theorem turn_sep_fits (hw : Free w) (hx : isDelimiter x = true) :
    Turn.Fits ⟨past, (w ++ x :: l).length, w ++ x :: l ++ r, st⟩ ↔
      (st.prev ≠ [] → w.length + st.prev.length < ARG) := by
  have hends : Turn.ends ⟨past, (w ++ x :: l).length, w ++ x :: l ++ r, st⟩ = true := by
    rw [Turn.ends, next_sep hw hx, hx]
  have hlen : Turn.len ⟨past, (w ++ x :: l).length, w ++ x :: l ++ r, st⟩ = w.length := by
    rw [Turn.len, word_sep hw hx]
  refine ⟨fun h => hlen ▸ h.joined hends, fun h => ⟨?_, fun _ => hlen.symm ▸ h, fun hf => ?_⟩⟩
  · rw [hlen]
    simp
  · rw [hends] at hf
    cases hf

theorem turn_run_fits (hw : Free w) :
    Turn.Fits ⟨past, w.length, w ++ r, st⟩ ↔ r ≠ [] ∧
      (isDelimiter (r.headD past) = true → st.prev ≠ [] → w.length + st.prev.length < ARG) ∧
      (isDelimiter (r.headD past) = false → w.length ≤ ARG) := by
  have hends : Turn.ends ⟨past, w.length, w ++ r, st⟩ = isDelimiter (r.headD past) := by
    rw [Turn.ends, next_run hw]
  have hlen : Turn.len ⟨past, w.length, w ++ r, st⟩ = w.length := by rw [Turn.len, word_run hw]
  have hbuf : w.length < (w ++ r).length ↔ r ≠ [] := by
    rw [List.length_append, ← List.length_pos_iff]
    omega
  refine ⟨fun h => ?_, fun h => ⟨?_, ?_, ?_⟩⟩
  · exact ⟨hbuf.mp (hlen ▸ h.buf), fun he => hlen ▸ h.joined (hends.trans he),
      fun he => hlen ▸ h.kept (hends.trans he)⟩
  · rw [hlen]
    exact hbuf.mpr h.1
  · rw [hlen, hends]
    exact h.2.1
  · rw [hlen, hends]
    exact h.2.2

@[simp] theorem turns_zero : turns past fuel 0 r st = [] := by
  cases fuel with
  | zero => rfl
  | succ fuel => simp [turns]

theorem step_run (hw : Free w) (hne : w ≠ []) :
    turns past (fuel + 1) w.length (w ++ r) st = [⟨past, w.length, w ++ r, st⟩] ∧
      scan past (fuel + 1) w.length (w ++ r) st = round past w.length (w ++ r) st := by
  have hpos : w.length ≠ 0 := fun hz => hne (List.length_eq_zero_iff.mp hz)
  have hend : w.length - (w.length + 1) = 0 := by omega
  simp only [turns, scan, if_neg hpos, word_run hw, hend, turns_zero, scan_zero, ite_self, and_self]

theorem step_sep (hw : Free w) (hx : isDelimiter x = true) :
    let st' := round past (w ++ x :: l).length (w ++ x :: l ++ r) st
    turns past (fuel + 1) (w ++ x :: l).length (w ++ x :: l ++ r) st =
        ⟨past, (w ++ x :: l).length, w ++ x :: l ++ r, st⟩ ::
          (if st'.error then [] else turns past fuel l.length (l ++ r) st') ∧
      scan past (fuel + 1) (w ++ x :: l).length (w ++ x :: l ++ r) st =
        if st'.error then st' else scan past fuel l.length (l ++ r) st' := by
  have hpos : (w ++ x :: l).length ≠ 0 := by simp
  have hsub : (w ++ x :: l).length - (w.length + 1) = l.length := by
    rw [List.length_append, List.length_cons]
    omega
  have hdrop : (w ++ x :: l ++ r).drop (w.length + 1) = l ++ r := by
    rw [List.append_assoc, ← List.drop_drop, List.drop_left]
    rfl
  simp only [turns, scan, if_neg hpos, word_sep hw hx, hsub, hdrop, and_self]

variable (r buf args past)

-- A chunk with nothing pending.
theorem clean_chunk (hfuel : c.length ≤ fuel) :
    ((∀ t ∈ turns past fuel c.length (c ++ r) ⟨buf, [], false, args⟩, t.Fits) ↔
      (Reaches 0 c → last c ≠ [] →
        r ≠ [] ∧ (isDelimiter (r.headD past) = false → (last c).length ≤ ARG))) ∧
    ((scan past fuel c.length (c ++ r) ⟨buf, [], false, args⟩).error = false ↔
      Passes 0 (isDelimiter (r.headD past)) c) ∧
    (scan past fuel c.length (c ++ r) ⟨buf, [], false, args⟩).prev =
      if (scan past fuel c.length (c ++ r) ⟨buf, [], false, args⟩).error then []
      else left (isDelimiter (r.headD past)) c := by
  induction c using splitInduction isDelimiter generalizing fuel args with
  | run w hw =>
    simp only [Passes, Reaches, whole_run hw, last_run hw, left_run hw, if_true]
    by_cases hne : w = []
    · subst hne
      simp
    · obtain ⟨fuel, rfl⟩ : ∃ k, fuel = k + 1 := Nat.exists_eq_succ_of_ne_zero fun hz =>
        hne (List.length_eq_zero_iff.mp (Nat.le_zero.mp (hz ▸ hfuel)))
      rw [(step_run hw hne).1, (step_run hw hne).2]
      simp only [List.forall_mem_singleton, turn_run_fits hw, round, word_run hw, next_run hw,
        List.isEmpty_nil, Bool.and_true]
      cases isDelimiter (r.headD past) <;> by_cases hlen : ARG ≤ w.length <;>
        simp [hne, hlen, Nat.not_le.mp]
  | sep w x l hw hx ih =>
    obtain ⟨fuel, rfl⟩ : ∃ k, fuel = k + 1 := Nat.exists_eq_succ_of_ne_zero fun hz => by
      simp [hz] at hfuel
    have hfuel : l.length ≤ fuel := by
      rw [List.length_append, List.length_cons] at hfuel
      omega
    rw [(step_sep hw hx).1, (step_sep hw hx).2]
    simp only [List.forall_mem_cons, turn_sep_fits hw hx, round, word_sep hw hx, next_sep hw hx, hx,
      List.isEmpty_nil, Bool.and_true, if_true, Passes, Reaches, whole_sep hw hx, last_sep hw hx,
      left_sep hw hx]
    by_cases hlen : ARG ≤ w.length
    · have hnot : ¬w.length < ARG := Nat.not_lt.mpr hlen
      simp [hlen, hnot]
    · have hlt : w.length < ARG := Nat.not_le.mp hlen
      have hl := ih (args ++ [w]) hfuel
      simp only [Passes, Reaches, if_true] at hl
      simpa [hlen, hlt] using hl

-- A chunk with something pending: the first word that ends is refused.
theorem dirty_chunk (hfuel : c.length ≤ fuel) (hne : c ≠ []) (hprev : prev ≠ []) :
    ((∀ t ∈ turns past fuel c.length (c ++ r) ⟨buf, prev, false, args⟩, t.Fits) ↔
      (∀ w ∈ (whole c).head?, w.length + prev.length < ARG) ∧
      (whole c = [] → r ≠ [] ∧
        (isDelimiter (r.headD past) = true → (last c).length + prev.length < ARG) ∧
        (isDelimiter (r.headD past) = false → (last c).length ≤ ARG))) ∧
    ((∀ t ∈ turns past fuel c.length (c ++ r) ⟨buf, prev, false, args⟩, t.Fits) →
      ((scan past fuel c.length (c ++ r) ⟨buf, prev, false, args⟩).error = false ↔
        whole c = [] ∧ isDelimiter (r.headD past) = false) ∧
      (scan past fuel c.length (c ++ r) ⟨buf, prev, false, args⟩).prev =
        if (scan past fuel c.length (c ++ r) ⟨buf, prev, false, args⟩).error then prev else c) := by
  have hempty : prev.isEmpty = false := by simpa using hprev
  obtain ⟨fuel, rfl⟩ : ∃ k, fuel = k + 1 := Nat.exists_eq_succ_of_ne_zero fun hz =>
    hne (List.length_eq_zero_iff.mp (Nat.le_zero.mp (hz ▸ hfuel)))
  induction c using splitInduction isDelimiter with
  | run w hw =>
    rw [(step_run hw hne).1, (step_run hw hne).2]
    simp only [List.forall_mem_singleton, turn_run_fits hw, round, word_run hw, next_run hw, hempty,
      Bool.and_false, Bool.false_eq_true, if_false, whole_run hw, last_run hw]
    cases isDelimiter (r.headD past) <;> by_cases hlen : w.length + prev.length < ARG <;>
      simp [hprev, hlen]
  | sep w x l hw hx _ =>
    rw [(step_sep hw hx).1, (step_sep hw hx).2]
    simp only [List.forall_mem_cons, turn_sep_fits hw hx, round, word_sep hw hx, next_sep hw hx, hx,
      hempty, Bool.and_false, Bool.false_eq_true, if_false, if_true, whole_sep hw hx]
    by_cases hlen : w.length + prev.length < ARG <;> simp [hprev, hlen]

end Chunk

theorem last_of_whole {c : List UInt8} (h : whole c = []) : last c = c := by
  induction c using splitInduction isDelimiter with
  | run w hw => exact last_run hw
  | sep w x l hw hx _ =>
    rw [whole_sep hw hx] at h
    cases h

theorem loop_error {st : State} (h : st.error = true) (reads : List (List UInt8 × UInt8)) :
    loop reads st = st ∧ loopTurns reads st = [] := by
  cases reads with
  | nil => exact ⟨rfl, rfl⟩
  | cons r reads => simp [loop, loopTurns, h]

theorem loop_fits_iff {reads : List (List UInt8 × UInt8)} {st : State}
    (hreads : ∀ r ∈ reads, r.1 ≠ [] ∧ r.1.length ≤ BUF) (hbuf : st.buf.length = BUF)
    (herror : st.error = false) :
    (∀ t ∈ loopTurns reads st, t.Fits) ∧ (loop reads st).prev.length < ARG ↔
      ReadsFit st.buf st.prev.length reads := by
  induction reads generalizing st with
  | nil => simp [loopTurns, loop, ReadsFit]
  | cons r reads ih =>
    obtain ⟨c, past⟩ := r
    obtain ⟨buf, prev, error, args⟩ := st
    obtain rfl : error = false := herror
    rw [List.forall_mem_cons] at hreads
    obtain ⟨⟨hne, hle⟩, hreads⟩ := hreads
    dsimp only at hne hle hbuf
    have hroom : buf.drop c.length ≠ [] ↔ c.length < BUF := by
      rw [← List.length_pos_iff, List.length_drop]
      omega
    have hfill : fill c buf = c ++ buf.drop c.length := rfl
    rw [loopTurns, loop, if_neg Bool.false_ne_true, if_neg Bool.false_ne_true, ReadsFit]
    simp only [List.forall_mem_append]
    have hlen := length_fill hbuf hle
    have hscan := buf_scan past c.length c.length (fill c buf) ⟨fill c buf, prev, false, args⟩
    by_cases hprev : prev = []
    · subst hprev
      obtain ⟨hturns, hpass, hleft⟩ := clean_chunk (buf.drop c.length) (fill c buf) args past
        (le_refl c.length)
      rw [← hfill] at hturns hpass hleft
      have hchunk : ChunkFits 0 (follows c past buf) c ↔ (Reaches 0 c → last c ≠ [] →
          c.length < BUF ∧ (follows c past buf = false → (last c).length ≤ ARG)) :=
        ⟨fun h hr hl => ⟨h.buf hr hl, h.kept hr hl⟩, fun h => ⟨fun h0 => absurd rfl h0,
          fun hr hl => (h hr hl).1, fun _ _ _ h0 => absurd rfl h0, fun hr hl => (h hr hl).2⟩⟩
      rw [hturns, hroom, List.length_nil, hchunk]
      unfold follows
      rw [and_assoc]
      refine and_congr_right fun _ => ?_
      by_cases hgo : Passes 0 (isDelimiter ((buf.drop c.length).headD past)) c
      · have hfalse := hpass.mpr hgo
        rw [ih hreads (by rw [hscan]; exact hlen) hfalse, hscan, hleft, hfalse, if_neg Bool.false_ne_true]
        exact ⟨fun h _ => h, fun h => h hgo⟩
      · have htrue := Bool.of_not_eq_false (mt hpass.mp hgo)
        rw [(loop_error htrue reads).1, (loop_error htrue reads).2, hleft, htrue, if_pos rfl]
        exact iff_of_true ⟨(fun t ht => by cases ht), by decide⟩ fun h => absurd h hgo
    · have hp : prev.length ≠ 0 := fun hz => hprev (List.length_eq_zero_iff.mp hz)
      obtain ⟨hturns, hafter⟩ := dirty_chunk (buf.drop c.length) (fill c buf) args past
        (le_refl c.length) hne hprev
      rw [← hfill] at hturns hafter
      have hchunk : ChunkFits prev.length (follows c past buf) c ↔
          (∀ w ∈ (whole c).head?, w.length + prev.length < ARG) ∧ (whole c = [] → c.length < BUF ∧
            (follows c past buf = true → (last c).length + prev.length < ARG) ∧
            (follows c past buf = false → (last c).length ≤ ARG)) := by
        have hr : Reaches prev.length c ↔ whole c = [] := by rw [Reaches, if_neg hp]
        refine ⟨fun h => ⟨h.joined hp, fun hw => ?_⟩, fun h => ⟨fun _ => h.1, ?_, ?_, ?_⟩⟩
        · have hl : last c ≠ [] := by rwa [last_of_whole hw]
          exact ⟨h.buf (hr.mpr hw) hl, fun hb => h.ended (hr.mpr hw) hl hb hp,
            h.kept (hr.mpr hw) hl⟩
        · exact fun hw _ => (h.2 (hr.mp hw)).1
        · exact fun hw _ hb _ => (h.2 (hr.mp hw)).2.1 hb
        · exact fun hw _ => (h.2 (hr.mp hw)).2.2
      rw [hroom] at hturns
      rw [hchunk]
      unfold follows
      rw [← hturns, and_assoc]
      refine and_congr_right fun hfit => ?_
      obtain ⟨hpass, hleft⟩ := hafter hfit
      have hgoes : Passes prev.length (isDelimiter ((buf.drop c.length).headD past)) c ↔
          whole c = [] ∧ isDelimiter ((buf.drop c.length).headD past) = false := by
        rw [Passes, Reaches, if_neg hp]
        refine and_congr_right fun hw => ?_
        rw [last_of_whole hw]
        cases isDelimiter ((buf.drop c.length).headD past) <;> simp [hne, hp]
      by_cases hgo : whole c = [] ∧ isDelimiter ((buf.drop c.length).headD past) = false
      · have hfalse := hpass.mpr hgo
        rw [ih hreads (by rw [hscan]; exact hlen) hfalse, hscan, hleft, hfalse, if_neg Bool.false_ne_true]
        have hall : left (isDelimiter ((buf.drop c.length).headD past)) c = c := by
          rw [left, hgo.2, if_neg Bool.false_ne_true, last_of_whole hgo.1]
        rw [hall]
        exact ⟨fun h _ => h, fun h => h (hgoes.mpr hgo)⟩
      · have htrue := Bool.of_not_eq_false (mt hpass.mp hgo)
        rw [(loop_error htrue reads).1, (loop_error htrue reads).2, hleft, htrue, if_pos rfl]
        have hshort : prev.length < ARG := by
          obtain ⟨hhead, hlast'⟩ := hturns.mp hfit
          cases hw : whole c with
          | nil =>
            rw [hw] at hgo
            have hb := Bool.of_not_eq_false fun hb => hgo ⟨rfl, hb⟩
            have := (hlast' hw).2.1 hb
            omega
          | cons w ws =>
            rw [hw] at hhead
            have := hhead w rfl
            omega
        exact iff_of_true ⟨(fun t ht => by cases ht), hshort⟩ fun h => absurd (hgoes.mp h) hgo

-- All accesses are inside the arrays exactly if the reads fit.
theorem accesses_inside_iff (reads : List (List UInt8 × UInt8))
    (hreads : ∀ r ∈ reads, r.1 ≠ [] ∧ r.1.length ≤ BUF) :
    (∀ a ∈ accesses reads, a.Inside) ↔ ReadsFit (List.replicate BUF 0) 0 reads := by
  rw [accesses_iff_turns reads fun r hr => (hreads r hr).2]
  have hbuf : start.buf.length = BUF := List.length_replicate ..
  exact loop_fits_iff hreads hbuf rfl

-- Two reads, with a word that ends with the first one.
theorem accesses_inside_iff_lines :
    ReadsFit (List.replicate BUF 0) 0 [([97, 32, 98, 10], 0), ([99, 10], 0)] ∧
    ∀ a ∈ accesses [([97, 32, 98, 10], 0), ([99, 10], 0)], a.Inside := by
  have hin : ∀ a ∈ accesses [([97, 32, 98, 10], 0), ([99, 10], 0)], a.Inside := by
    decide +kernel
  exact ⟨(accesses_inside_iff _ (by decide)).mp hin, hin⟩

theorem word_full (k : Nat) : word k (List.replicate k 97) = List.replicate k 97 := by
  rw [word, List.take_of_length_le (by simp), List.takeWhile_eq_self_iff.mpr]
  intro c hc
  rw [List.eq_of_mem_replicate hc]
  decide

theorem full_read_looks_past_buf :
    ⟨.buf, BUF⟩ ∈ accesses [(List.replicate BUF 97, 0)] ∧ ¬Access.Inside ⟨.buf, BUF⟩ := by
  refine ⟨List.mem_append_left _ ?_, by decide⟩
  have hfill : fill (List.replicate BUF 97) start.buf = List.replicate BUF 97 := by
    rw [fill, start, List.length_replicate, List.drop_of_length_le (by simp), List.append_nil]
  refine List.mem_flatMap.mpr ⟨⟨0, BUF, List.replicate BUF 97,
    { start with buf := List.replicate BUF 97 }⟩, ?_, ?_⟩
  · simp only [loopTurns, hfill, List.length_replicate]
    exact List.mem_append_left _ List.mem_cons_self
  · refine List.mem_append_right _ (List.mem_cons.mpr (.inl ?_))
    simp only [Turn.start, Turn.len, word_full, List.length_replicate, Nat.sub_self, Nat.zero_add]

end Xv6.Xargs
