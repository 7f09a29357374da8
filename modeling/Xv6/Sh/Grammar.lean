import Xv6.Sh
import Mathlib.Data.List.DropRight

namespace Xv6.Sh

-- The tokens of a line, where ">" and ">>" are gt and gtgt.
inductive Token where
  | word (w : List UInt8)
  | lt
  | gt
  | gtgt
  | bar
  | amp
  | semi
  | lparen
  | rparen
  deriving DecidableEq

-- The tokens that are one character, apart from ">".
def symbol (c : UInt8) : Option Token :=
  if c = 124 then some .bar
  else if c = 40 then some .lparen
  else if c = 41 then some .rparen
  else if c = 59 then some .semi
  else if c = 38 then some .amp
  else if c = 60 then some .lt
  else none

-- A word is a maximal run of characters that are neither whitespace nor symbols.
def lex : Nat → List UInt8 → List Token
  | 0, _ => []
  | fuel + 1, s =>
    match skip s with
    | [] => []
    | c :: rest =>
      if c = 62 then
        if rest.head? = some 62 then .gtgt :: lex fuel rest.tail else .gt :: lex fuel rest
      else
        match symbol c with
        | some t => t :: lex fuel rest
        | none => .word ((c :: rest).takeWhile isWord) :: lex fuel ((c :: rest).dropWhile isWord)

def tokens (s : List UInt8) : List Token := lex s.length s

def Token.redir : Token → Option (Nat × Nat)
  | .lt => some (O_RDONLY, 0)
  | .gt => some (Fs.O_WRONLY ||| Fs.O_CREATE ||| Fs.O_TRUNC, 1)
  | .gtgt => some (Fs.O_WRONLY ||| Fs.O_CREATE, 1)
  | _ => none

-- redir*
inductive Redirs : List Token → List (Redir (List UInt8)) → Prop
  | nil : Redirs [] []
  | cons {t : Token} {file : List UInt8} {mode fd : Nat} {ts : List Token}
      {rs : List (Redir (List UInt8))} (ht : t.redir = some (mode, fd)) (h : Redirs ts rs) :
      Redirs (t :: .word file :: ts) (⟨file, mode, fd⟩ :: rs)

-- (word redir*)*
inductive Args : List Token → List (List UInt8) → List (Redir (List UInt8)) → Prop
  | nil : Args [] [] []
  | cons {w : List UInt8} {ts ts' : List Token} {ws : List (List UInt8)}
      {rs rs' : List (Redir (List UInt8))} (hr : Redirs ts rs) (h : Args ts' ws rs') :
      Args (.word w :: (ts ++ ts')) (w :: ws) (rs ++ rs')

def backs {α : Type} : Nat → Cmd α → Cmd α
  | 0, cmd => cmd
  | n + 1, cmd => backs n (.back cmd)

mutual

-- line := pipe '&'* [';' line]
inductive Line : List Token → Cmd (List UInt8) → Prop
  | one {ts : List Token} {cmd : Cmd (List UInt8)} (h : Pipe ts cmd) (n : Nat) :
      Line (ts ++ List.replicate n .amp) (backs n cmd)
  | seq {ts ts' : List Token} {cmd right : Cmd (List UInt8)} (h : Pipe ts cmd) (n : Nat)
      (h' : Line ts' right) :
      Line (ts ++ List.replicate n .amp ++ .semi :: ts') (.list (backs n cmd) right)

-- pipe := exec ['|' pipe]
inductive Pipe : List Token → Cmd (List UInt8) → Prop
  | one {ts : List Token} {cmd : Cmd (List UInt8)} (h : Exec ts cmd) : Pipe ts cmd
  | pipe {ts ts' : List Token} {cmd right : Cmd (List UInt8)} (h : Exec ts cmd)
      (h' : Pipe ts' right) : Pipe (ts ++ .bar :: ts') (.pipe cmd right)

-- exec := '(' line ')' redir* | redir* (word redir*)*
inductive Exec : List Token → Cmd (List UInt8) → Prop
  | block {ts ts' : List Token} {cmd : Cmd (List UInt8)} {rs : List (Redir (List UInt8))}
      (h : Line ts cmd) (hr : Redirs ts' rs) :
      Exec (.lparen :: (ts ++ .rparen :: ts')) (cmd.redirs rs)
  | args {ts ts' : List Token} {ws : List (List UInt8)} {rs rs' : List (Redir (List UInt8))}
      (hr : Redirs ts rs) (ha : Args ts' ws rs') (hlen : ws.length ≤ MAXARGS - 1) :
      Exec (ts ++ ts') ((Cmd.exec ws).redirs (rs ++ rs'))

end

variable {s ps ps' : List UInt8} {t : Token} {ts rest : List Token} {span : Span} {fuel : Nat}
  {toks : List UInt8}

theorem skip_skip (s : List UInt8) : skip (skip s) = skip s :=
  List.dropWhile_idempotent _ s

theorem length_skip (s : List UInt8) : (skip s).length ≤ s.length :=
  (List.dropWhile_suffix _).length_le

theorem length_dropWhile_isWord {c : UInt8} (rest : List UInt8) (hc : isWord c = true) :
    ((c :: rest).dropWhile isWord).length ≤ rest.length := by
  rw [List.dropWhile_cons_of_pos hc]
  exact (List.dropWhile_suffix _).length_le

theorem isWord_of_symbol {c : UInt8} (hc : c ∉ whitespace) (hgt : c ≠ 62)
    (hsymbol : symbol c = none) : isWord c = true := by
  refine decide_eq_true ⟨hc, fun hmem => ?_⟩
  unfold symbol at hsymbol
  simp only [symbols, List.mem_cons, List.not_mem_nil, or_false] at hmem
  rcases hmem with rfl | rfl | rfl | rfl | rfl | rfl | rfl <;> first | exact hgt rfl | cases hsymbol

theorem notMem_of_skip {c : UInt8} {rest : List UInt8} (h : skip s = c :: rest) :
    c ∉ whitespace := by
  have hne : s.dropWhile (fun c => decide (c ∈ whitespace)) ≠ [] := by
    show skip s ≠ []
    rw [h]
    simp
  have hhead := List.head_dropWhile_not (fun c => decide (c ∈ whitespace)) hne
  have heq : (s.dropWhile fun c => decide (c ∈ whitespace)) = c :: rest := h
  simp only [heq, List.head_cons] at hhead
  exact of_decide_eq_false hhead

theorem lex_eq {fuel' : Nat} (h : s.length ≤ fuel) (h' : s.length ≤ fuel') :
    lex fuel s = lex fuel' s := by
  induction fuel generalizing s fuel' with
  | zero =>
    rw [List.length_eq_zero_iff.mp (Nat.le_zero.mp h)]
    cases fuel' <;> rfl
  | succ fuel ih =>
    cases fuel' with
    | zero =>
      rw [List.length_eq_zero_iff.mp (Nat.le_zero.mp h')]
      rfl
    | succ fuel' =>
      rw [lex, lex]
      have hlen := length_skip s
      cases hs : skip s with
      | nil => rfl
      | cons c rest =>
        rw [hs, List.length_cons] at hlen
        have htail : rest.tail.length ≤ rest.length := by
          rw [List.length_tail]
          omega
        have hsame : ∀ l : List UInt8, l.length ≤ rest.length →
            lex fuel l = lex fuel' l := fun l hl => ih (by omega) (by omega)
        dsimp only
        split
        · split
          · rw [hsame _ htail]
          · rw [hsame _ le_rfl]
        · rename_i hgt
          cases hsymbol : symbol c with
          | some t => rw [hsame _ le_rfl]
          | none =>
            have hword := length_dropWhile_isWord rest
              (isWord_of_symbol (notMem_of_skip hs) hgt hsymbol)
            dsimp only
            rw [hsame _ hword]

theorem lex_eq_tokens (h : s.length ≤ fuel) : lex fuel s = tokens s := lex_eq h le_rfl

theorem tokens_skip (s : List UInt8) : tokens (skip s) = tokens s := by
  have hlen := length_skip s
  calc tokens (skip s)
      = lex (s.length + 1) (skip s) := (lex_eq_tokens (by omega)).symm
    _ = lex (s.length + 1) s := by rw [lex, lex, skip_skip]
    _ = tokens s := lex_eq_tokens (by omega)

-- What gettoken() returns for a token.
def Token.ret : Token → UInt8
  | .word _ => 97
  | .lt => 60
  | .gt => 62
  | .gtgt => 43
  | .bar => 124
  | .amp => 38
  | .semi => 59
  | .lparen => 40
  | .rparen => 41

-- The first character of a token that is not a word.
def Token.first : Token → Option UInt8
  | .word _ => none
  | .gtgt => some 62
  | t => some t.ret

theorem ret_of_symbol {c : UInt8} (h : symbol c = some t) :
    c ∈ ([124, 40, 41, 59, 38, 60] : List UInt8) ∧ t.ret = c ∧ t.first = some c ∧
      ∀ w, t ≠ .word w := by
  unfold symbol at h
  repeat' split at h
  all_goals cases h
  all_goals
    rename_i hc
    subst hc
    exact ⟨by decide, rfl, rfl, fun _ h => by cases h⟩

theorem notMem_of_symbol {c : UInt8} (h : symbol c = none) :
    c ∉ ([124, 40, 41, 59, 38, 60] : List UInt8) := by
  intro hmem
  simp only [List.mem_cons, List.not_mem_nil, or_false] at hmem
  rcases hmem with rfl | rfl | rfl | rfl | rfl | rfl <;> cases h

-- A span of w, up to the character after it.
structure Span.Is (span : Span) (w : List UInt8) : Prop where
  q : span.q = w ++ span.eq
  word : ∀ c ∈ w, isWord c = true
  eq : ∀ c ∈ span.eq.head?, isWord c = false

theorem tokens_nil (h : skip s = []) : tokens s = [] := by
  rw [← lex_eq_tokens (Nat.le_succ s.length), lex, h]

theorem tokens_gtgt {s' : List UInt8} (h : skip s = 62 :: s') (hnext : s'.head? = some 62) :
    tokens s = .gtgt :: tokens s'.tail := by
  have hlen := length_skip s
  rw [h, List.length_cons] at hlen
  rw [← lex_eq_tokens (Nat.le_succ s.length), lex, h]
  dsimp only
  rw [if_pos rfl, if_pos hnext, lex_eq_tokens]
  rw [List.length_tail]
  omega

theorem tokens_gt {s' : List UInt8} (h : skip s = 62 :: s') (hnext : s'.head? ≠ some 62) :
    tokens s = .gt :: tokens s' := by
  have hlen := length_skip s
  rw [h, List.length_cons] at hlen
  rw [← lex_eq_tokens (Nat.le_succ s.length), lex, h]
  dsimp only
  rw [if_pos rfl, if_neg hnext, lex_eq_tokens (by omega)]

theorem tokens_symbol {c : UInt8} {s' : List UInt8} (h : skip s = c :: s')
    (hc : symbol c = some t) : tokens s = t :: tokens s' := by
  have hlen := length_skip s
  rw [h, List.length_cons] at hlen
  have hgt : c ≠ 62 := by
    rintro rfl
    cases hc
  rw [← lex_eq_tokens (Nat.le_succ s.length), lex, h]
  dsimp only
  rw [if_neg hgt, hc, lex_eq_tokens (by omega)]

theorem tokens_word {c : UInt8} {s' : List UInt8} (h : skip s = c :: s') (hgt : c ≠ 62)
    (hc : symbol c = none) :
    tokens s = .word ((c :: s').takeWhile isWord) :: tokens ((c :: s').dropWhile isWord) := by
  have hlen := length_skip s
  have hword := length_dropWhile_isWord s'
    (isWord_of_symbol (notMem_of_skip h) hgt hc)
  rw [h, List.length_cons] at hlen
  rw [← lex_eq_tokens (Nat.le_succ s.length), lex, h]
  dsimp only
  rw [if_neg hgt, hc]
  dsimp only
  rw [lex_eq_tokens (by omega)]

theorem isWord_head_dropWhile {c : UInt8} (h : c ∈ (s.dropWhile isWord).head?) :
    isWord c = false := by
  cases hd : s.dropWhile isWord with
  | nil => simp [hd] at h
  | cons c' s' =>
    have hne : s.dropWhile isWord ≠ [] := by simp [hd]
    have hhead := List.head_dropWhile_not isWord hne
    simp only [hd, List.head_cons] at hhead
    simp only [hd, List.head?_cons, Option.mem_def, Option.some.injEq] at h
    rw [← h]
    exact hhead

theorem Span.is_takeWhile (s : List UInt8) :
    (Span.mk s (s.dropWhile isWord)).Is (s.takeWhile isWord) :=
  ⟨List.takeWhile_append_dropWhile.symm, fun _ hc => List.mem_takeWhile_imp hc,
    fun _ hc => isWord_head_dropWhile hc⟩

-- What a call of gettoken() does to the tokens of the line.
structure Gets (ps : List UInt8) (t : Token) (ts : List Token) : Prop where
  ret : (gettoken ps).1 = t.ret
  tokens : tokens (gettoken ps).2.2 = ts
  span : ∀ w, t = .word w → (gettoken ps).2.1.Is w

theorem skip_of_tokens_nil (h : tokens ps = []) : skip ps = [] := by
  cases hs : skip ps with
  | nil => rfl
  | cons c s' =>
    exfalso
    by_cases hgt : c = 62
    · subst hgt
      by_cases hnext : s'.head? = some 62
      · rw [tokens_gtgt hs hnext] at h
        cases h
      · rw [tokens_gt hs hnext] at h
        cases h
    · cases hc : symbol c with
      | some t =>
        rw [tokens_symbol hs hc] at h
        cases h
      | none =>
        rw [tokens_word hs hgt hc] at h
        cases h

theorem gettoken_nil (h : tokens ps = []) : (gettoken ps).1 = 0 ∧ (gettoken ps).2.2 = [] := by
  simp [gettoken, skip_of_tokens_nil h]

theorem gets (h : tokens ps = t :: ts) : Gets ps t ts := by
  cases hs : skip ps with
  | nil =>
    rw [tokens_nil hs] at h
    cases h
  | cons c s' =>
    by_cases hgt : c = 62
    · subst hgt
      by_cases hnext : s'.head? = some 62
      · rw [tokens_gtgt hs hnext] at h
        cases h
        have heq : gettoken ps = (43, ⟨skip ps, s'.tail⟩, skip s'.tail) := by
          simp [gettoken, hs, hnext]
        exact ⟨by rw [heq]; rfl, by rw [heq, tokens_skip], fun _ hw => by cases hw⟩
      · rw [tokens_gt hs hnext] at h
        cases h
        have heq : gettoken ps = (62, ⟨skip ps, s'⟩, skip s') := by
          simp [gettoken, hs, hnext]
        exact ⟨by rw [heq]; rfl, by rw [heq, tokens_skip], fun _ hw => by cases hw⟩
    · cases hc : symbol c with
      | some t' =>
        rw [tokens_symbol hs hc] at h
        cases h
        obtain ⟨hmem, hret, -, hword⟩ := ret_of_symbol hc
        have heq : gettoken ps = (c, ⟨skip ps, s'⟩, skip s') := by
          simp only [gettoken, hs]
          rw [if_pos hmem]
        exact ⟨by rw [heq, hret], by rw [heq, tokens_skip], fun w hw => absurd hw (hword w)⟩
      | none =>
        rw [tokens_word hs hgt hc] at h
        cases h
        have heq : gettoken ps =
            (97, ⟨c :: s', (c :: s').dropWhile isWord⟩, skip ((c :: s').dropWhile isWord)) := by
          simp only [gettoken, hs]
          rw [if_neg (notMem_of_symbol hc), if_neg hgt]
        refine ⟨by rw [heq]; rfl, by rw [heq, tokens_skip], fun w hw => ?_⟩
        cases hw
        rw [heq]
        exact Span.is_takeWhile _

theorem gettoken_skip (ps : List UInt8) : gettoken (skip ps) = gettoken ps := by
  simp only [gettoken, skip_skip]

theorem gettoken_suffix (ps : List UInt8) : (gettoken ps).2.2 <:+ ps := by
  have hskip : ∀ l : List UInt8, skip l <:+ l := fun l => List.dropWhile_suffix _
  have hps := hskip ps
  unfold gettoken
  cases hs : skip ps with
  | nil => exact List.nil_suffix
  | cons c s' =>
    rw [hs] at hps
    have hs' : s' <:+ ps := (List.suffix_cons c s').trans hps
    dsimp only
    split
    · exact (hskip s').trans hs'
    · split
      · split
        · exact (hskip _).trans ((List.tail_suffix s').trans hs')
        · exact (hskip s').trans hs'
      · exact (hskip _).trans ((List.dropWhile_suffix isWord).trans hps)

theorem gettoken_q_suffix (ps : List UInt8) : (gettoken ps).2.1.q <:+ ps := by
  have hps : skip ps <:+ ps := List.dropWhile_suffix _
  unfold gettoken
  cases hs : skip ps with
  | nil => exact List.nil_suffix
  | cons c s' =>
    rw [hs] at hps
    dsimp only
    repeat' split
    all_goals exact hps

theorem peek_eq (htoks : ∀ c ∈ toks, c ∈ symbols) :
    peek ps toks =
      ((tokens ps).head?.any fun t => t.first.any fun c => decide (c ∈ toks), skip ps) := by
  refine Prod.ext ?_ rfl
  show (skip ps).head?.any (fun c => decide (c ∈ toks)) = _
  cases hs : skip ps with
  | nil =>
    rw [tokens_nil hs]
    rfl
  | cons c s' =>
    by_cases hgt : c = 62
    · subst hgt
      by_cases hnext : s'.head? = some 62
      · rw [tokens_gtgt hs hnext]
        rfl
      · rw [tokens_gt hs hnext]
        rfl
    · cases hc : symbol c with
      | some t =>
        rw [tokens_symbol hs hc]
        simp only [List.head?_cons, Option.any_some, (ret_of_symbol hc).2.2.1]
      | none =>
        -- A word does not begin with a symbol.
        have hword := of_decide_eq_true (isWord_of_symbol (notMem_of_skip hs) hgt hc)
        have hnot : c ∉ toks := fun hmem => hword.2 (htoks c hmem)
        rw [tokens_word hs hgt hc]
        simp [Token.first, hnot]

theorem peek_symbol {c : UInt8} (hc : symbol c = some t) :
    peek ps [c] = (decide ((tokens ps).head? = some t), skip ps) := by
  unfold symbol at hc
  repeat' split at hc
  all_goals cases hc
  all_goals
    rename_i hc
    subst hc
    rw [peek_eq (by simp [symbols])]
    cases tokens ps with
    | nil => rfl
    | cons t ts => cases t <;> rfl

theorem peek_bar : peek ps [124] = (decide ((tokens ps).head? = some .bar), skip ps) :=
  peek_symbol rfl

theorem peek_lparen : peek ps [40] = (decide ((tokens ps).head? = some .lparen), skip ps) :=
  peek_symbol rfl

theorem peek_rparen : peek ps [41] = (decide ((tokens ps).head? = some .rparen), skip ps) :=
  peek_symbol rfl

theorem peek_semi : peek ps [59] = (decide ((tokens ps).head? = some .semi), skip ps) :=
  peek_symbol rfl

theorem peek_amp : peek ps [38] = (decide ((tokens ps).head? = some .amp), skip ps) :=
  peek_symbol rfl

theorem peek_redir :
    peek ps [60, 62] = ((tokens ps).head?.any fun t => t.redir.isSome, skip ps) := by
  rw [peek_eq (by simp [symbols])]
  cases tokens ps with
  | nil => rfl
  | cons t ts => cases t <;> rfl

theorem peek_args :
    peek ps [124, 41, 38, 59] =
      ((tokens ps).head?.any fun t => decide (t ∈ [Token.bar, .rparen, .amp, .semi]), skip ps) := by
  rw [peek_eq (by simp [symbols])]
  cases tokens ps with
  | nil => rfl
  | cons t ts => cases t <;> rfl

end Xv6.Sh
