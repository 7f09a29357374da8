import Xv6.Sh.Grammar
import Mathlib.Data.List.Forall2

namespace Xv6.Sh

variable {s ps ps' : List UInt8} {t : Token} {ts ts' rest : List Token} {span : Span}
  {w : List UInt8} {fuel : Nat} {cmd : Cmd Span} {c : Cmd (List UInt8)} {α : Type}

theorem length_tokens (s : List UInt8) : (tokens s).length ≤ s.length := by
  suffices h : ∀ fuel s, (lex fuel s).length ≤ fuel from h s.length s
  intro fuel
  induction fuel with
  | zero => exact fun s => Nat.le_refl 0
  | succ fuel ih =>
    grind [lex]

-- A cursor into a string, with the tokens that are left.
structure At (ps : List UInt8) (ts : List Token) : Prop where
  tokens : tokens ps = ts
  nul : 0 ∉ ps

structure Span.Names (span : Span) (w : List UInt8) : Prop extends span.Is w where
  nul : 0 ∉ w

theorem At.skip (h : At ps ts) : At (skip ps) ts :=
  ⟨(tokens_skip ps).trans h.tokens, fun hmem => h.nul ((List.dropWhile_suffix _).subset hmem)⟩

theorem At.next (h : At ps (t :: ts)) : At (gettoken ps).2.2 ts :=
  ⟨(gets h.tokens).tokens, fun hmem => h.nul ((gettoken_suffix ps).subset hmem)⟩

theorem At.ret (h : At ps (t :: ts)) : (gettoken ps).1 = t.ret := (gets h.tokens).ret

theorem At.names (h : At ps (.word w :: ts)) : (gettoken ps).2.1.Names w := by
  have hspan := (gets h.tokens).span w rfl
  refine ⟨hspan, fun hmem => h.nul ((gettoken_q_suffix ps).subset ?_)⟩
  rw [hspan.q]
  exact List.mem_append_left _ hmem

structure Redir.Names (r : Redir Span) (r' : Redir (List UInt8)) : Prop where
  file : r.file.Names r'.file
  mode : r.mode = r'.mode
  fd : r.fd = r'.fd

-- A command whose spans are the strings of the other one.
inductive Cmd.Spells : Cmd Span → Cmd (List UInt8) → Prop
  | exec {argv : List Span} {ws : List (List UInt8)} (h : List.Forall₂ Span.Names argv ws) :
      Spells (.exec argv) (.exec ws)
  | redir {cmd : Cmd Span} {c : Cmd (List UInt8)} {file : Span} {w : List UInt8} {mode fd : Nat}
      (h : Spells cmd c) (hfile : file.Names w) :
      Spells (.redir cmd file mode fd) (.redir c w mode fd)
  | pipe {left right : Cmd Span} {l r : Cmd (List UInt8)} (hl : Spells left l)
      (hr : Spells right r) : Spells (.pipe left right) (.pipe l r)
  | list {left right : Cmd Span} {l r : Cmd (List UInt8)} (hl : Spells left l)
      (hr : Spells right r) : Spells (.list left right) (.list l r)
  | back {cmd : Cmd Span} {c : Cmd (List UInt8)} (h : Spells cmd c) : Spells (.back cmd) (.back c)

theorem Cmd.Spells.redirs {rs : List (Redir Span)} {rs' : List (Redir (List UInt8))}
    (h : cmd.Spells c) (hrs : List.Forall₂ Redir.Names rs rs') :
    (cmd.redirs rs).Spells (c.redirs rs') := by
  induction hrs generalizing cmd c with
  | nil => exact h
  | @cons r r' rs rs' hr _ ih =>
    obtain ⟨file, mode, fd⟩ := r
    obtain ⟨hfile, rfl, rfl⟩ := hr
    exact ih (.redir h hfile)

theorem Cmd.Spells.backs {n : Nat} (h : cmd.Spells c) : (backs n cmd).Spells (backs n c) := by
  induction n generalizing cmd c with
  | zero => exact h
  | succ n ih => exact ih (.back h)

-- A parse that has enough fuel, with what holds of its result.
def Ends (post : α → Prop) : Except Stop α → Prop
  | .ok a => post a
  | .error e => e ≠ .fuel

theorem redir_eq {mode fd : Nat} (file : Span) (h : t.redir = some (mode, fd)) :
    redir t.ret file = [⟨file, mode, fd⟩] := by
  cases t <;> cases h <;> rfl

theorem ret_eq_97 (h : t.ret = 97) : ∃ w, t = .word w := by
  cases t with
  | word w => exact ⟨w, rfl⟩
  | _ => exact absurd h (by decide)

theorem ret_ne_zero (t : Token) : t.ret ≠ 0 := by
  cases t with
  | word w => exact (by decide : (97 : UInt8) ≠ 0)
  | _ => decide

theorem parseredirs_done {rs : List (Redir Span)} (h : At ps ts)
    (hnone : ∀ t ∈ ts.head?, t.redir = none) :
    parseredirs (fuel + 1) rs ps = .ok (rs, skip ps) := by
  have hfalse : (ts.head?.any fun t => t.redir.isSome) = false := by
    cases ts with
    | nil => rfl
    | cons t ts => simp [hnone t rfl]
  simp only [parseredirs, peek_redir, h.tokens, hfalse, Bool.false_eq_true, if_false]

theorem parseredirs_file (fuel : Nat) (rs : List (Redir Span)) {mode fd : Nat}
    (h : At ps (t :: .word w :: ts))
    (ht : t.redir = some (mode, fd)) :
    ∃ file ps', parseredirs (fuel + 1) rs ps = parseredirs fuel (rs ++ [⟨file, mode, fd⟩]) ps' ∧
      file.Names w ∧ At ps' ts := by
  refine ⟨_, _, ?_, h.next.names, h.next.next⟩
  have hkind : (gettoken (gettoken ps).2.2).1 = 97 := h.next.ret
  simp only [parseredirs, peek_redir, h.tokens, gettoken_skip, List.head?_cons, Option.any_some, ht,
    Option.isSome_some, if_true, hkind, ne_eq, not_true, if_false, h.ret, redir_eq _ ht]

theorem parseredirs_missing {rs : List (Redir Span)} (h : At ps (t :: ts))
    (ht : t.redir.isSome = true) (hword : ∀ w ts', ts ≠ .word w :: ts') :
    parseredirs (fuel + 1) rs ps = .error (.panic "missing file for redirection") := by
  have hkind : (gettoken (gettoken ps).2.2).1 ≠ 97 := by
    cases ts with
    | nil =>
      rw [(gettoken_nil h.next.tokens).1]
      decide
    | cons t' ts' =>
      rw [h.next.ret]
      grind [ret_eq_97]
  simp only [parseredirs, peek_redir, h.tokens, gettoken_skip, List.head?_cons, Option.any_some, ht,
    if_true, hkind, ne_eq, not_false_iff]

-- The redirections that parseredirs() adds are those of a derivation.
theorem parseredirs_sound (rs : List (Redir Span)) (h : At ps ts) (hfuel : ts.length < fuel) :
    Ends (fun r => ∃ ts' rest added rs', ts = ts' ++ rest ∧ At r.2 rest ∧ r.1 = rs ++ added ∧
      Redirs ts' rs' ∧ List.Forall₂ Redir.Names added rs') (parseredirs fuel rs ps) := by
  induction fuel generalizing rs ps ts with
  | zero => omega
  | succ fuel ih =>
    by_cases hnone : ∀ t ∈ ts.head?, t.redir = none
    · rw [parseredirs_done h hnone]
      exact ⟨[], ts, [], [], rfl, h.skip, (List.append_nil rs).symm, .nil, .nil⟩
    · cases ts with
      | nil => simp at hnone
      | cons t ts =>
        have ht : t.redir.isSome = true := by
          rw [Option.isSome_iff_ne_none]
          intro hn
          exact hnone (by simpa using hn)
        by_cases hword : ∃ w ts', ts = .word w :: ts'
        · obtain ⟨w, ts', rfl⟩ := hword
          obtain ⟨⟨mode, fd⟩, hmode⟩ := Option.isSome_iff_exists.mp ht
          obtain ⟨file, ps', heq, hnames, hat⟩ := parseredirs_file fuel rs h hmode
          rw [heq]
          simp only [List.length_cons] at hfuel
          have hrec := ih (rs ++ [⟨file, mode, fd⟩]) hat (by omega)
          cases hr : parseredirs fuel (rs ++ [⟨file, mode, fd⟩]) ps' with
          | error e =>
            rw [hr] at hrec
            exact hrec
          | ok r =>
            rw [hr] at hrec
            obtain ⟨ts₁, rest, added, rs', rfl, hat', hadded, hredirs, hall⟩ := hrec
            refine ⟨t :: .word w :: ts₁, rest, ⟨file, mode, fd⟩ :: added,
              ⟨w, mode, fd⟩ :: rs', rfl, hat', ?_, .cons hmode hredirs,
              .cons ⟨hnames, rfl, rfl⟩ hall⟩
            rw [hadded]
            simp
        · rw [parseredirs_missing h ht (fun w ts' heq => hword ⟨w, ts', heq⟩)]
          exact fun hf => by cases hf

theorem parseredirs_complete (rs : List (Redir Span)) {rs' : List (Redir (List UInt8))}
    (hredirs : Redirs ts rs') (h : At ps (ts ++ rest)) (hnone : ∀ t ∈ rest.head?, t.redir = none)
    (hfuel : ts.length < fuel) :
    ∃ added ps', parseredirs fuel rs ps = .ok (rs ++ added, ps') ∧ At ps' rest ∧
      List.Forall₂ Redir.Names added rs' := by
  induction hredirs generalizing fuel rs ps with
  | nil =>
    cases fuel with
    | zero => omega
    | succ fuel =>
      refine ⟨[], skip ps, ?_, h.skip, .nil⟩
      rw [parseredirs_done h hnone, List.append_nil]
  | @cons t file mode fd ts rs' ht _ ih =>
    simp only [List.length_cons] at hfuel
    cases fuel with
    | zero => omega
    | succ fuel =>
      obtain ⟨span, ps', heq, hnames, hat⟩ := parseredirs_file fuel rs h ht
      have hlt : ts.length < fuel := by omega
      obtain ⟨added, ps'', hok, hat', hall⟩ := ih (rs ++ [⟨span, mode, fd⟩]) hat hlt
      refine ⟨⟨span, mode, fd⟩ :: added, ps'', ?_, hat', .cons ⟨hnames, rfl, rfl⟩ hall⟩
      rw [heq, hok]
      simp

theorem parseargs_done (fuel : Nat) (argv : List Span) (rs : List (Redir Span)) (h : At ps ts)
    (hstop : ∀ t ∈ ts.head?, t ∈ [Token.bar, .rparen, .amp, .semi]) :
    ∃ ps', parseargs (fuel + 1) argv rs ps = .ok ((Cmd.exec argv).redirs rs, ps') ∧ At ps' ts := by
  cases ts with
  | nil =>
    refine ⟨(gettoken ps).2.2, ?_, ?_⟩
    · simp [parseargs, peek_args, h.tokens, gettoken_skip, (gettoken_nil h.tokens).1]
    · rw [(gettoken_nil h.tokens).2]
      exact ⟨rfl, List.not_mem_nil⟩
  | cons t ts =>
    refine ⟨skip ps, ?_, h.skip⟩
    simp only [parseargs, peek_args, h.tokens, List.head?_cons, Option.any_some, hstop t rfl,
      decide_true, if_true]

theorem parseargs_many {argv : List Span} (rs : List (Redir Span)) (h : At ps (.word w :: ts))
    (hargc : MAXARGS ≤ argv.length + 1) :
    parseargs (fuel + 1) argv rs ps = .error (.panic "too many args") := by
  have htok : (gettoken ps).1 = 97 := h.ret
  simp [parseargs, peek_args, h.tokens, gettoken_skip, htok, hargc]

theorem parseargs_error {argv : List Span} {rs : List (Redir Span)} {e : Stop}
    (h : At ps (.word w :: ts)) (hargc : argv.length + 1 < MAXARGS)
    (hredirs : parseredirs fuel rs (gettoken ps).2.2 = .error e) :
    parseargs (fuel + 1) argv rs ps = .error e := by
  have htok : (gettoken ps).1 = 97 := h.ret
  simp [parseargs, peek_args, h.tokens, gettoken_skip, htok, Nat.not_le.mpr hargc, hredirs]

theorem parseargs_next {argv : List Span} {rs rs' : List (Redir Span)}
    (h : At ps (.word w :: ts)) (hargc : argv.length + 1 < MAXARGS)
    (hredirs : parseredirs fuel rs (gettoken ps).2.2 = .ok (rs', ps')) :
    parseargs (fuel + 1) argv rs ps = parseargs fuel (argv ++ [(gettoken ps).2.1]) rs' ps' := by
  have htok : (gettoken ps).1 = 97 := h.ret
  simp [parseargs, peek_args, h.tokens, gettoken_skip, htok, Nat.not_le.mpr hargc, hredirs]

theorem parseargs_unexpected (argv : List Span) (rs : List (Redir Span)) (h : At ps (t :: ts))
    (hstop : t ∉ [Token.bar, .rparen, .amp, .semi]) (hword : ∀ w, t ≠ .word w) :
    parseargs (fuel + 1) argv rs ps = .error (.panic "syntax") := by
  have htok : (gettoken ps).1 ≠ 97 := by
    rw [h.ret]
    grind [ret_eq_97]
  have hzero : (gettoken ps).1 ≠ 0 := h.ret ▸ ret_ne_zero t
  simp only [parseargs, peek_args, h.tokens, gettoken_skip, List.head?_cons, Option.any_some, hstop,
    decide_false, Bool.false_eq_true, if_false, hzero, htok, ne_eq, not_false_iff, if_true]

theorem parseargs_sound (argv : List Span) (rs : List (Redir Span)) (h : At ps ts)
    (hargc : argv.length < MAXARGS) (hfuel : ts.length < fuel) :
    Ends (fun r => ∃ ts' rest words ws added rs', ts = ts' ++ rest ∧ At r.2 rest ∧
      r.1 = (Cmd.exec (argv ++ words)).redirs (rs ++ added) ∧ Args ts' ws rs' ∧
      List.Forall₂ Span.Names words ws ∧ List.Forall₂ Redir.Names added rs' ∧
      (argv ++ words).length < MAXARGS) (parseargs fuel argv rs ps) := by
  induction fuel generalizing argv rs ps ts with
  | zero => omega
  | succ fuel ih =>
    by_cases hstop : ∀ t ∈ ts.head?, t ∈ [Token.bar, .rparen, .amp, .semi]
    · obtain ⟨ps', heq, hat⟩ := parseargs_done fuel argv rs h hstop
      rw [heq]
      refine ⟨[], ts, [], [], [], [], rfl, hat, ?_, .nil, .nil, .nil, ?_⟩
      · simp only [List.append_nil]
      · rwa [List.append_nil]
    · cases ts with
      | nil => simp at hstop
      | cons t ts =>
        simp only [List.head?_cons, Option.mem_def, Option.some.injEq, forall_eq'] at hstop
        by_cases hword : ∃ w, t = .word w
        · obtain ⟨w, rfl⟩ := hword
          rw [List.length_cons] at hfuel
          by_cases hmany : MAXARGS ≤ argv.length + 1
          · rw [parseargs_many rs h hmany]
            exact fun hf => by cases hf
          · have hlt := Nat.not_le.mp hmany
            have hless : ts.length < fuel := by omega
            have hredirs := parseredirs_sound rs h.next hless
            cases hr : parseredirs fuel rs (gettoken ps).2.2 with
            | error e =>
              rw [hr] at hredirs
              rw [parseargs_error h hlt hr]
              exact hredirs
            | ok r =>
              rw [hr] at hredirs
              obtain ⟨rs₁, ps₁⟩ := r
              obtain ⟨ts₁, rest₁, added₁, rs₁', rfl, hat₁, rfl, hder₁, hall₁⟩ := hredirs
              rw [List.length_append] at hfuel
              rw [parseargs_next h hlt hr]
              have hargc' : (argv ++ [(gettoken ps).2.1]).length < MAXARGS := by
                grind
              have hrec := ih _ (rs ++ added₁) hat₁ hargc' (by omega)
              cases hp : parseargs fuel (argv ++ [(gettoken ps).2.1]) (rs ++ added₁) ps₁ with
              | error e =>
                rw [hp] at hrec
                exact hrec
              | ok r =>
                rw [hp] at hrec
                obtain ⟨ts₂, rest, words, ws, added₂, rs₂', rfl, hat, hcmd, hargs, hws, hrs,
                  hlen⟩ := hrec
                refine ⟨.word w :: (ts₁ ++ ts₂), rest, (gettoken ps).2.1 :: words, w :: ws,
                  added₁ ++ added₂, rs₁' ++ rs₂', ?_, hat, ?_, .cons hder₁ hargs,
                  .cons h.names hws, List.rel_append hall₁ hrs, ?_⟩
                · simp
                · rw [hcmd]
                  simp
                · simpa using hlen
        · rw [parseargs_unexpected argv rs h hstop (fun w heq => hword ⟨w, heq⟩)]
          exact fun hf => by cases hf

theorem redir_none_of_stop (h : ∀ t ∈ rest.head?, t ∈ [Token.bar, .rparen, .amp, .semi]) :
    ∀ t ∈ rest.head?, t.redir = none := by
  intro t ht
  have hmem := h t ht
  simp only [List.mem_cons, List.not_mem_nil, or_false] at hmem
  rcases hmem with rfl | rfl | rfl | rfl <;> rfl

theorem Args.redir_none {ws : List (List UInt8)} {rs : List (Redir (List UInt8))}
    (h : Args ts ws rs) (hnone : ∀ t ∈ rest.head?, t.redir = none) :
    ∀ t ∈ (ts ++ rest).head?, t.redir = none := by
  cases h with
  | nil => exact hnone
  | cons hr h =>
    intro t ht
    simp only [List.cons_append, List.head?_cons, Option.mem_def, Option.some.injEq] at ht
    rw [← ht]
    rfl

theorem parseargs_complete (argv : List Span) (rs : List (Redir Span)) {ws : List (List UInt8)}
    {rs' : List (Redir (List UInt8))} (hargs : Args ts ws rs') (h : At ps (ts ++ rest))
    (hstop : ∀ t ∈ rest.head?, t ∈ [Token.bar, .rparen, .amp, .semi])
    (hargc : argv.length + ws.length < MAXARGS) (hfuel : ts.length < fuel) :
    ∃ words added ps', parseargs fuel argv rs ps =
        .ok ((Cmd.exec (argv ++ words)).redirs (rs ++ added), ps') ∧ At ps' rest ∧
      List.Forall₂ Span.Names words ws ∧ List.Forall₂ Redir.Names added rs' := by
  induction hargs generalizing fuel argv rs ps with
  | nil =>
    cases fuel with
    | zero => omega
    | succ fuel =>
      obtain ⟨ps', heq, hat⟩ := parseargs_done fuel argv rs h hstop
      refine ⟨[], [], ps', ?_, hat, .nil, .nil⟩
      simpa only [List.append_nil] using heq
  | @cons w ts ts' ws rs₁ rs₂ hr hrest ih =>
    simp only [List.length_cons, List.length_append] at hfuel hargc
    cases fuel with
    | zero => omega
    | succ fuel =>
      have hat : At ps (.word w :: (ts ++ (ts' ++ rest))) := by
        simpa only [List.cons_append, List.append_assoc] using h
      have hlt : ts.length < fuel := by omega
      obtain ⟨added₁, ps₁, hok, hat₁, hall₁⟩ := parseredirs_complete rs hr hat.next
        (hrest.redir_none (redir_none_of_stop hstop)) hlt
      have hargc' : (argv ++ [(gettoken ps).2.1]).length + ws.length < MAXARGS := by
        simp only [List.length_append, List.length_singleton]
        omega
      have hlt' : ts'.length < fuel := by omega
      obtain ⟨words, added₂, ps', hok', hat', hws, hrs⟩ := ih _ (rs ++ added₁) hat₁ hargc' hlt'
      refine ⟨(gettoken ps).2.1 :: words, added₁ ++ added₂, ps', ?_, hat', .cons hat.names hws,
        List.rel_append hall₁ hrs⟩
      rw [parseargs_next hat (by omega) hok, hok']
      simp

theorem parsebacks_done (cmd : Cmd Span) (h : At ps ts) (hhead : ts.head? ≠ some .amp) :
    parsebacks (fuel + 1) cmd ps = .ok (cmd, skip ps) := by
  simp [parsebacks, peek_amp, h.tokens, hhead]

theorem parsebacks_amp (cmd : Cmd Span) (h : At ps (.amp :: ts)) :
    parsebacks (fuel + 1) cmd ps = parsebacks fuel (.back cmd) (gettoken ps).2.2 := by
  simp [parsebacks, peek_amp, h.tokens, gettoken_skip]

theorem parsebacks_sound (cmd : Cmd Span) (h : At ps ts) (hfuel : ts.length < fuel) :
    Ends (fun r => ∃ n rest, ts = List.replicate n .amp ++ rest ∧ At r.2 rest ∧
      r.1 = backs n cmd) (parsebacks fuel cmd ps) := by
  induction fuel generalizing cmd ps ts with
  | zero => omega
  | succ fuel ih =>
    by_cases hhead : ts.head? = some .amp
    · obtain ⟨ts', rfl⟩ := List.head?_eq_some_iff.mp hhead
      rw [parsebacks_amp cmd h]
      rw [List.length_cons] at hfuel
      have hrec := ih (.back cmd) h.next (by omega)
      cases hr : parsebacks fuel (.back cmd) (gettoken ps).2.2 with
      | error e =>
        rw [hr] at hrec
        exact hrec
      | ok r =>
        rw [hr] at hrec
        obtain ⟨n, rest, rfl, hat, hcmd⟩ := hrec
        exact ⟨n + 1, rest, rfl, hat, hcmd⟩
    · rw [parsebacks_done cmd h hhead]
      exact ⟨0, ts, rfl, h.skip, rfl⟩

theorem parsebacks_complete (cmd : Cmd Span) {n : Nat} (h : At ps (List.replicate n .amp ++ rest))
    (hhead : rest.head? ≠ some .amp) (hfuel : n < fuel) :
    ∃ ps', parsebacks fuel cmd ps = .ok (backs n cmd, ps') ∧ At ps' rest := by
  induction n generalizing cmd ps fuel with
  | zero =>
    cases fuel with
    | zero => omega
    | succ fuel => exact ⟨skip ps, parsebacks_done cmd h hhead, h.skip⟩
  | succ n ih =>
    cases fuel with
    | zero => omega
    | succ fuel =>
      rw [List.replicate_succ, List.cons_append] at h
      rw [parsebacks_amp cmd h]
      exact ih (.back cmd) h.next (by omega)

-- What a parse reads is a phrase of the grammar, and the command is that of the phrase.
def Derives (phrase : List Token → Cmd (List UInt8) → Prop) (ts : List Token)
    (r : Cmd Span × List UInt8) : Prop :=
  ∃ ts' rest c, ts = ts' ++ rest ∧ At r.2 rest ∧ phrase ts' c ∧ r.1.Spells c

structure Sound (fuel : Nat) : Prop where
  line : ∀ {ps ts}, At ps ts → 5 * ts.length + 4 ≤ fuel → Ends (Derives Line ts) (parseline fuel ps)
  pipe : ∀ {ps ts}, At ps ts → 5 * ts.length + 3 ≤ fuel → Ends (Derives Pipe ts) (parsepipe fuel ps)
  exec : ∀ {ps ts}, At ps ts → 5 * ts.length + 2 ≤ fuel → Ends (Derives Exec ts) (parseexec fuel ps)
  block : ∀ {ps ts}, At ps ts → ts.head? = some .lparen → 5 * ts.length + 1 ≤ fuel →
    Ends (Derives Exec ts) (parseblock fuel ps)

theorem parseline_sound (ih : Sound fuel) (h : At ps ts) (hfuel : 5 * ts.length + 3 ≤ fuel) :
    Ends (Derives Line ts) (parseline (fuel + 1) ps) := by
  rw [parseline]
  have hpipe := ih.pipe h hfuel
  cases hp : parsepipe fuel ps with
  | error e =>
    rw [hp] at hpipe
    exact hpipe
  | ok r =>
    rw [hp] at hpipe
    obtain ⟨cmd, ps₁⟩ := r
    obtain ⟨ts₁, rest₁, c, rfl, hat₁, hder, hspells⟩ := hpipe
    rw [List.length_append] at hfuel
    have hless : rest₁.length < fuel := by omega
    have hbacks := parsebacks_sound cmd hat₁ hless
    dsimp only
    cases hb : parsebacks fuel cmd ps₁ with
    | error e =>
      rw [hb] at hbacks
      exact hbacks
    | ok r =>
      rw [hb] at hbacks
      obtain ⟨cmd₂, ps₂⟩ := r
      obtain ⟨n, rest₂, rfl, hat₂, rfl⟩ := hbacks
      dsimp only
      rw [peek_semi, hat₂.tokens]
      dsimp only
      by_cases hsemi : rest₂.head? = some .semi
      · rw [if_pos (decide_eq_true hsemi), gettoken_skip]
        obtain ⟨rest₃, rfl⟩ := List.head?_eq_some_iff.mp hsemi
        simp only [List.length_append, List.length_replicate, List.length_cons] at hfuel
        have hline := ih.line hat₂.next (by omega)
        cases hl : parseline fuel (gettoken ps₂).2.2 with
        | error e =>
          rw [hl] at hline
          exact hline
        | ok r =>
          rw [hl] at hline
          obtain ⟨right, ps₃⟩ := r
          obtain ⟨ts₃, rest, c', rfl, hat, hder', hspells'⟩ := hline
          refine ⟨ts₁ ++ List.replicate n .amp ++ .semi :: ts₃, rest, _, ?_, hat,
            .seq hder n hder', .list hspells.backs hspells'⟩
          simp
      · rw [if_neg (by simp [hsemi])]
        refine ⟨ts₁ ++ List.replicate n .amp, rest₂, _, ?_, hat₂.skip, .one hder n, hspells.backs⟩
        simp

theorem parsepipe_sound (ih : Sound fuel) (h : At ps ts) (hfuel : 5 * ts.length + 2 ≤ fuel) :
    Ends (Derives Pipe ts) (parsepipe (fuel + 1) ps) := by
  rw [parsepipe]
  have hexec := ih.exec h hfuel
  cases hp : parseexec fuel ps with
  | error e =>
    rw [hp] at hexec
    exact hexec
  | ok r =>
    rw [hp] at hexec
    obtain ⟨cmd, ps₁⟩ := r
    obtain ⟨ts₁, rest₁, c, rfl, hat₁, hder, hspells⟩ := hexec
    dsimp only
    rw [peek_bar, hat₁.tokens]
    dsimp only
    by_cases hbar : rest₁.head? = some .bar
    · rw [if_pos (decide_eq_true hbar), gettoken_skip]
      obtain ⟨rest₂, rfl⟩ := List.head?_eq_some_iff.mp hbar
      simp only [List.length_append, List.length_cons] at hfuel
      have hpipe := ih.pipe hat₁.next (by omega)
      cases hl : parsepipe fuel (gettoken ps₁).2.2 with
      | error e =>
        rw [hl] at hpipe
        exact hpipe
      | ok r =>
        rw [hl] at hpipe
        obtain ⟨right, ps₂⟩ := r
        obtain ⟨ts₂, rest, c', rfl, hat, hder', hspells'⟩ := hpipe
        refine ⟨ts₁ ++ .bar :: ts₂, rest, _, ?_, hat, .pipe hder hder', .pipe hspells hspells'⟩
        simp
    · rw [if_neg (by simp [hbar])]
      exact ⟨ts₁, rest₁, c, rfl, hat₁.skip, .one hder, hspells⟩

theorem parseblock_sound (ih : Sound fuel) (h : At ps ts) (hhead : ts.head? = some .lparen)
    (hfuel : 5 * ts.length ≤ fuel) : Ends (Derives Exec ts) (parseblock (fuel + 1) ps) := by
  obtain ⟨ts, rfl⟩ := List.head?_eq_some_iff.mp hhead
  rw [parseblock, peek_lparen, h.tokens]
  dsimp only
  rw [if_pos (decide_eq_true hhead), gettoken_skip]
  rw [List.length_cons] at hfuel
  have hline := ih.line h.next (by omega)
  cases hl : parseline fuel (gettoken ps).2.2 with
  | error e =>
    rw [hl] at hline
    exact hline
  | ok r =>
    rw [hl] at hline
    obtain ⟨cmd, ps₁⟩ := r
    obtain ⟨ts₁, rest₁, c, rfl, hat₁, hder, hspells⟩ := hline
    dsimp only
    rw [peek_rparen, hat₁.tokens]
    dsimp only
    by_cases hclose : rest₁.head? = some .rparen
    · rw [if_pos (decide_eq_true hclose), gettoken_skip]
      obtain ⟨rest₂, rfl⟩ := List.head?_eq_some_iff.mp hclose
      simp only [List.length_append, List.length_cons] at hfuel
      have hless : rest₂.length < fuel := by omega
      have hredirs := parseredirs_sound [] hat₁.next hless
      cases hr : parseredirs fuel [] (gettoken ps₁).2.2 with
      | error e =>
        rw [hr] at hredirs
        exact hredirs
      | ok r =>
        rw [hr] at hredirs
        obtain ⟨rs, ps₂⟩ := r
        obtain ⟨ts₂, rest, added, rs', rfl, hat, rfl, hder', hall⟩ := hredirs
        refine ⟨.lparen :: (ts₁ ++ .rparen :: ts₂), rest, _, ?_, hat, .block hder hder',
          hspells.redirs hall⟩
        simp
    · rw [if_neg (by simp [hclose])]
      exact fun hf => by cases hf

theorem parseexec_sound (ih : Sound fuel) (h : At ps ts) (hfuel : 5 * ts.length + 1 ≤ fuel) :
    Ends (Derives Exec ts) (parseexec (fuel + 1) ps) := by
  rw [parseexec, peek_lparen, h.tokens]
  dsimp only
  by_cases hhead : ts.head? = some .lparen
  · rw [if_pos (decide_eq_true hhead)]
    exact ih.block h.skip hhead hfuel
  · rw [if_neg (by simp [hhead])]
    have hless : ts.length < fuel := by omega
    have hredirs := parseredirs_sound [] h.skip hless
    cases hr : parseredirs fuel [] (skip ps) with
    | error e =>
      rw [hr] at hredirs
      exact hredirs
    | ok r =>
      rw [hr] at hredirs
      obtain ⟨rs, ps₁⟩ := r
      obtain ⟨ts₁, rest₁, added, rs₁, rfl, hat₁, rfl, hder₁, hall₁⟩ := hredirs
      rw [List.length_append] at hless
      have hless' : rest₁.length < fuel := by omega
      have hargs := parseargs_sound [] rs hat₁ (by decide) hless'
      dsimp only
      cases ha : parseargs fuel [] rs ps₁ with
      | error e =>
        rw [ha] at hargs
        exact hargs
      | ok r =>
        rw [ha] at hargs
        obtain ⟨ts₂, rest, words, ws, added₂, rs₂, rfl, hat, hcmd, hder₂, hws, hall₂, hlen⟩ := hargs
        have hws' : ws.length ≤ MAXARGS - 1 := by
          rw [← hws.length_eq]
          exact Nat.le_pred_of_lt hlen
        refine ⟨ts₁ ++ ts₂, rest, _, ?_, hat, .args hder₁ hder₂ hws', ?_⟩
        · simp
        · rw [hcmd]
          exact (Cmd.Spells.exec hws).redirs (List.rel_append hall₁ hall₂)

theorem sound (fuel : Nat) : Sound fuel := by
  induction fuel with
  | zero =>
    exact ⟨fun _ h => absurd h (by omega), fun _ h => absurd h (by omega),
      fun _ h => absurd h (by omega), fun _ _ h => absurd h (by omega)⟩
  | succ fuel ih =>
    exact ⟨fun h hfuel => parseline_sound ih h (by omega),
      fun h hfuel => parsepipe_sound ih h (by omega),
      fun h hfuel => parseexec_sound ih h (by omega),
      fun h hhead hfuel => parseblock_sound ih h hhead (by omega)⟩

-- What may come after a line, a pipe and an exec.
def lineEnds : List Token := [.rparen]

def pipeEnds : List Token := [.amp, .semi, .rparen]

def execEnds : List Token := [.bar, .amp, .semi, .rparen]

structure Complete (fuel : Nat) : Prop where
  line : ∀ {ps ts rest c}, Line ts c → At ps (ts ++ rest) → (∀ t ∈ rest.head?, t ∈ lineEnds) →
    5 * ts.length + 4 ≤ fuel → ∃ cmd ps', parseline fuel ps = .ok (cmd, ps') ∧ At ps' rest ∧
      cmd.Spells c
  pipe : ∀ {ps ts rest c}, Pipe ts c → At ps (ts ++ rest) → (∀ t ∈ rest.head?, t ∈ pipeEnds) →
    5 * ts.length + 3 ≤ fuel → ∃ cmd ps', parsepipe fuel ps = .ok (cmd, ps') ∧ At ps' rest ∧
      cmd.Spells c
  exec : ∀ {ps ts rest c}, Exec ts c → At ps (ts ++ rest) → (∀ t ∈ rest.head?, t ∈ execEnds) →
    5 * ts.length + 2 ≤ fuel → ∃ cmd ps', parseexec fuel ps = .ok (cmd, ps') ∧ At ps' rest ∧
      cmd.Spells c
  block : ∀ {ps ts ts' rest c rs}, Line ts c → Redirs ts' rs →
    At ps (.lparen :: (ts ++ .rparen :: (ts' ++ rest))) → (∀ t ∈ rest.head?, t ∈ execEnds) →
    5 * (ts.length + ts'.length + 2) + 1 ≤ fuel →
    ∃ cmd ps', parseblock fuel ps = .ok (cmd, ps') ∧ At ps' rest ∧ cmd.Spells (c.redirs rs)

theorem pipeEnds_replicate (n : Nat) (h : ∀ t ∈ rest.head?, t ∈ pipeEnds) :
    ∀ t ∈ (List.replicate n Token.amp ++ rest).head?, t ∈ pipeEnds := by
  cases n with
  | zero => exact h
  | succ n =>
    intro t ht
    cases ht
    decide

theorem head_ne (h : ∀ t ∈ rest.head?, t ∈ ts) (ht : t ∉ ts) : rest.head? ≠ some t :=
  fun hhead => ht (h t hhead)

theorem parseline_complete (ih : Complete fuel) (hder : Line ts c) (h : At ps (ts ++ rest))
    (hrest : ∀ t ∈ rest.head?, t ∈ lineEnds) (hfuel : 5 * ts.length + 3 ≤ fuel) :
    ∃ cmd ps', parseline (fuel + 1) ps = .ok (cmd, ps') ∧ At ps' rest ∧ cmd.Spells c := by
  cases hder with
  | @one ts c hpipe n =>
    simp only [List.length_append, List.length_replicate] at hfuel
    rw [List.append_assoc] at h
    have hpipeEnds : ∀ t ∈ rest.head?, t ∈ pipeEnds := fun t ht => by
      have hmem := hrest t ht
      simp only [lineEnds, List.mem_singleton] at hmem
      rw [hmem]
      decide
    obtain ⟨cmd, ps₁, hp, hat₁, hspells⟩ :=
      ih.pipe hpipe h (pipeEnds_replicate n hpipeEnds) (by omega)
    have hless : n < fuel := by omega
    obtain ⟨ps₂, hb, hat₂⟩ := parsebacks_complete cmd hat₁ (head_ne hrest (by decide)) hless
    refine ⟨_, _, ?_, hat₂.skip, hspells.backs⟩
    have hsemi : rest.head? ≠ some .semi := head_ne hrest (by decide)
    simp only [parseline, hp, hb, peek_semi, hat₂.tokens, hsemi, decide_false, Bool.false_eq_true,
      if_false]
  | @seq ts ts' c c' hpipe n hline =>
    simp only [List.length_append, List.length_replicate, List.length_cons] at hfuel
    have hat : At ps (ts ++ (List.replicate n .amp ++ .semi :: (ts' ++ rest))) := by
      simpa only [List.append_assoc, List.cons_append] using h
    obtain ⟨cmd, ps₁, hp, hat₁, hspells⟩ := ih.pipe hpipe hat
      (pipeEnds_replicate n (fun t ht => by cases ht; decide)) (by omega)
    have hless : n < fuel := by omega
    obtain ⟨ps₂, hb, hat₂⟩ := parsebacks_complete cmd hat₁ (by simp) hless
    obtain ⟨right, ps₃, hl, hat₃, hspells'⟩ := ih.line hline hat₂.next hrest (by omega)
    refine ⟨_, _, ?_, hat₃, .list hspells.backs hspells'⟩
    simp only [parseline, hp, hb, peek_semi, hat₂.tokens, List.head?_cons, decide_true, if_true,
      gettoken_skip, hl]

theorem parsepipe_complete (ih : Complete fuel) (hder : Pipe ts c) (h : At ps (ts ++ rest))
    (hrest : ∀ t ∈ rest.head?, t ∈ pipeEnds) (hfuel : 5 * ts.length + 2 ≤ fuel) :
    ∃ cmd ps', parsepipe (fuel + 1) ps = .ok (cmd, ps') ∧ At ps' rest ∧ cmd.Spells c := by
  cases hder with
  | one hexec =>
    have hexecEnds : ∀ t ∈ rest.head?, t ∈ execEnds := fun t ht =>
      List.mem_cons_of_mem _ (hrest t ht)
    obtain ⟨cmd, ps₁, hp, hat₁, hspells⟩ := ih.exec hexec h hexecEnds hfuel
    refine ⟨_, _, ?_, hat₁.skip, hspells⟩
    have hbar : rest.head? ≠ some .bar := head_ne hrest (by decide)
    simp only [parsepipe, hp, peek_bar, hat₁.tokens, hbar, decide_false, Bool.false_eq_true,
      if_false]
  | @pipe ts ts' c c' hexec hpipe =>
    simp only [List.length_append, List.length_cons] at hfuel
    have hat : At ps (ts ++ .bar :: (ts' ++ rest)) := by
      grind
    obtain ⟨cmd, ps₁, hp, hat₁, hspells⟩ := ih.exec hexec hat
      (fun t ht => by cases ht; decide) (by omega)
    obtain ⟨right, ps₂, hl, hat₂, hspells'⟩ := ih.pipe hpipe hat₁.next hrest (by omega)
    refine ⟨_, _, ?_, hat₂, .pipe hspells hspells'⟩
    simp only [parsepipe, hp, peek_bar, hat₁.tokens, List.head?_cons, decide_true, if_true,
      gettoken_skip, hl]

theorem redir_none_of_execEnds (h : ∀ t ∈ rest.head?, t ∈ execEnds) :
    ∀ t ∈ rest.head?, t.redir = none := by
  intro t ht
  have hmem := h t ht
  simp only [execEnds, List.mem_cons, List.not_mem_nil, or_false] at hmem
  rcases hmem with rfl | rfl | rfl | rfl <;> rfl

theorem parseblock_complete {rs : List (Redir (List UInt8))} (ih : Complete fuel)
    (hline : Line ts c) (hredirs : Redirs ts' rs)
    (h : At ps (.lparen :: (ts ++ .rparen :: (ts' ++ rest))))
    (hrest : ∀ t ∈ rest.head?, t ∈ execEnds) (hfuel : 5 * (ts.length + ts'.length + 2) ≤ fuel) :
    ∃ cmd ps', parseblock (fuel + 1) ps = .ok (cmd, ps') ∧ At ps' rest ∧
      cmd.Spells (c.redirs rs) := by
  obtain ⟨cmd, ps₁, hl, hat₁, hspells⟩ := ih.line hline h.next
    (fun t ht => by cases ht; decide) (by omega)
  have hless : ts'.length < fuel := by omega
  obtain ⟨added, ps₂, hr, hat₂, hall⟩ :=
    parseredirs_complete [] hredirs hat₁.next (redir_none_of_execEnds hrest) hless
  refine ⟨_, _, ?_, hat₂, hspells.redirs hall⟩
  simp only [parseblock, peek_lparen, h.tokens, List.head?_cons, decide_true, if_true,
    gettoken_skip, hl, peek_rparen, hat₁.tokens, hr, List.nil_append]

theorem head_redirs_ne {rs : List (Redir (List UInt8))} (h : Redirs ts rs) (hrest : rest.head? ≠ some .lparen) :
    (ts ++ rest).head? ≠ some .lparen := by
  cases h with
  | nil => exact hrest
  | cons ht h =>
    intro hhead
    cases hhead
    cases ht

theorem head_args_ne {ws : List (List UInt8)} {rs : List (Redir (List UInt8))} (h : Args ts ws rs)
    (hrest : rest.head? ≠ some .lparen) : (ts ++ rest).head? ≠ some .lparen := by
  cases h with
  | nil => exact hrest
  | cons hr h => exact fun hhead => by cases hhead

theorem parseexec_complete (ih : Complete fuel) (hder : Exec ts c) (h : At ps (ts ++ rest))
    (hrest : ∀ t ∈ rest.head?, t ∈ execEnds) (hfuel : 5 * ts.length + 1 ≤ fuel) :
    ∃ cmd ps', parseexec (fuel + 1) ps = .ok (cmd, ps') ∧ At ps' rest ∧ cmd.Spells c := by
  cases hder with
  | @block ts ts' c rs hline hredirs =>
    simp only [List.length_cons, List.length_append] at hfuel
    have hat : At (skip ps) (.lparen :: (ts ++ .rparen :: (ts' ++ rest))) := by
      simpa only [List.append_assoc, List.cons_append] using h.skip
    obtain ⟨cmd, ps₁, hb, hat₁, hspells⟩ := ih.block hline hredirs hat hrest (by omega)
    refine ⟨cmd, ps₁, ?_, hat₁, hspells⟩
    have hhead : (tokens ps).head? = some .lparen := by
      rw [h.tokens]
      rfl
    simp only [parseexec, peek_lparen, hhead, decide_true, if_true, hb]
  | @args ts ts' ws rs rs' hredirs hargs hlen =>
    rw [List.length_append] at hfuel
    rw [List.append_assoc] at h
    have hstop : ∀ t ∈ rest.head?, t ∈ [Token.bar, .rparen, .amp, .semi] := fun t ht => by
      grind [execEnds]
    have hhead : (tokens ps).head? ≠ some .lparen := by
      rw [h.tokens]
      exact head_redirs_ne hredirs (head_args_ne hargs (head_ne hrest (by decide)))
    have hless : ts.length < fuel := by omega
    have hless' : ts'.length < fuel := by omega
    have hargc : ([] : List Span).length + ws.length < MAXARGS := by
      have hmax : MAXARGS = 10 := rfl
      simp only [List.length_nil]
      omega
    obtain ⟨added, ps₁, hr, hat₁, hall₁⟩ := parseredirs_complete [] hredirs h.skip
      (hargs.redir_none (redir_none_of_execEnds hrest)) hless
    obtain ⟨words, added', ps₂, ha, hat₂, hws, hall₂⟩ :=
      parseargs_complete [] added hargs hat₁ hstop hargc hless'
    refine ⟨_, ps₂, ?_, hat₂, (Cmd.Spells.exec hws).redirs (List.rel_append hall₁ hall₂)⟩
    simp only [parseexec, peek_lparen, hhead, decide_false, Bool.false_eq_true, if_false, hr,
      List.nil_append, ha]

theorem complete (fuel : Nat) : Complete fuel := by
  induction fuel with
  | zero =>
    exact ⟨fun _ _ _ h => absurd h (by omega), fun _ _ _ h => absurd h (by omega),
      fun _ _ _ h => absurd h (by omega), fun _ _ _ _ h => absurd h (by omega)⟩
  | succ fuel ih =>
    exact ⟨fun hder h hrest hfuel => parseline_complete ih hder h hrest (by omega),
      fun hder h hrest hfuel => parsepipe_complete ih hder h hrest (by omega),
      fun hder h hrest hfuel => parseexec_complete ih hder h hrest (by omega),
      fun hl hr h hrest hfuel => parseblock_complete ih hl hr h hrest (by omega)⟩

-- The strings of a command in the order in which nulterminate() ends them.
def Cmd.words : Cmd Span → List Span
  | .exec argv => argv
  | .redir cmd file _ _ => cmd.words ++ [file]
  | .pipe left right => left.words ++ right.words
  | .list left right => left.words ++ right.words
  | .back cmd => cmd.words

theorem ends_eq (cmd : Cmd Span) : cmd.ends = cmd.words.map Span.eq := by
  induction cmd with
  | exec argv => rfl
  | redir cmd file mode fd ih => grind [Cmd.ends, Cmd.words]
  | pipe left right ihl ihr => rw [Cmd.ends, Cmd.words, ihl, ihr, List.map_append]
  | list left right ihl ihr => rw [Cmd.ends, Cmd.words, ihl, ihr, List.map_append]
  | back cmd ih => exact ih

theorem Cmd.Spells.names (h : cmd.Spells c) : ∀ word ∈ cmd.words, ∃ w, word.Names w := by
  induction h with
  | @exec argv ws hall =>
    intro word hword
    have hword : word ∈ argv := hword
    induction hall with
    | nil => cases hword
    | @cons _ w _ _ hnames _ ih =>
      rcases List.mem_cons.mp hword with rfl | hmem
      · exact ⟨w, hnames⟩
      · exact ih hmem hmem
  | @redir _ _ _ w _ _ _ hfile ih =>
    intro word hword
    rcases List.mem_append.mp hword with hword | hword
    all_goals grind
  | pipe _ _ ihl ihr =>
    intro word hword
    exact (List.mem_append.mp hword).elim (ihl word) (ihr word)
  | list _ _ ihl ihr =>
    intro word hword
    exact (List.mem_append.mp hword).elim (ihl word) (ihr word)
  | back _ ih => exact ih

theorem Cmd.Spells.isWord_head (h : cmd.Spells c) :
    ∀ e ∈ cmd.ends, ∀ x ∈ e.head?, isWord x = false := by
  intro e he
  rw [ends_eq] at he
  obtain ⟨word, hword, rfl⟩ := List.mem_map.mp he
  obtain ⟨w, hnames⟩ := h.names word hword
  exact hnames.eq

theorem string_eq {e : List UInt8} (hends : ∀ e ∈ cmd.ends, ∀ x ∈ e.head?, isWord x = false)
    (hword : ∀ x ∈ w, isWord x = true) (hnul : 0 ∉ w) (he : e ∈ cmd.ends) :
    string (nulterminate cmd) (w ++ e) = w := by
  induction w with
  | nil =>
    cases e with
    | nil => rfl
    | cons x e =>
      rw [List.nil_append, string, if_pos]
      rw [nulterminate, if_pos he]
  | cons x w ih =>
    have hx : isWord x = true := hword x List.mem_cons_self
    have hnot : x :: (w ++ e) ∉ cmd.ends := fun hmem => by
      rw [hends _ hmem x rfl] at hx
      cases hx
    grind [nulterminate, hnot, string]

theorem map_eq_of_forall₂ {f : Span → List UInt8} {argv : List Span} {ws : List (List UInt8)}
    (h : List.Forall₂ Span.Names argv ws)
    (hf : ∀ span ∈ argv, ∀ w, span.Names w → f span = w) : argv.map f = ws := by
  induction h with
  | nil => rfl
  | cons hnames _ ih =>
    grind

theorem Cmd.Spells.map_eq {f : Span → List UInt8} (h : cmd.Spells c)
    (hf : ∀ word ∈ cmd.words, ∀ w, word.Names w → f word = w) : cmd.map f = c := by
  induction h with
  | exec hall => rw [Cmd.map, map_eq_of_forall₂ hall hf]
  | redir _ hfile ih =>
    rw [Cmd.map, ih fun word hword => hf word (List.mem_append_left _ hword),
      hf _ (List.mem_append_right _ (List.mem_singleton_self _)) _ hfile]
  | pipe _ _ ihl ihr =>
    rw [Cmd.map, ihl fun word hword => hf word (List.mem_append_left _ hword),
      ihr fun word hword => hf word (List.mem_append_right _ hword)]
  | list _ _ ihl ihr =>
    rw [Cmd.map, ihl fun word hword => hf word (List.mem_append_left _ hword),
      ihr fun word hword => hf word (List.mem_append_right _ hword)]
  | back _ ih => rw [Cmd.map, ih hf]

theorem Cmd.Spells.nulterminate (h : cmd.Spells c) :
    (cmd.map fun word => string (nulterminate cmd) word.q) = c := by
  refine h.map_eq fun word hword w hnames => ?_
  have he : word.eq ∈ cmd.ends := by
    rw [ends_eq]
    exact List.mem_map_of_mem hword
  rw [hnames.q]
  exact string_eq h.isWord_head hnames.word hnames.nul he

-- parsecmd() returns the command of the derivation of the line, and where the line has
-- none it panics.
theorem parsecmd_ok_iff_line (s : List UInt8) (hnul : 0 ∉ s) :
    (∀ c, parsecmd s = .ok c ↔ Line (tokens s) c) ∧
      ((∃ c, parsecmd s = .ok c) ∨ ∃ msg, parsecmd s = .error (.panic msg)) := by
  have hlen := length_tokens s
  have hat : At s (tokens s) := ⟨rfl, hnul⟩
  have hsound := (sound (5 * s.length + 5)).line hat (by omega)
  have hcomplete : ∀ c, Line (tokens s) c → parsecmd s = .ok c := by
    intro c hder
    have hatEnd : At s (tokens s ++ []) := by rwa [List.append_nil]
    obtain ⟨cmd, ps', hok, hat', hspells⟩ := (complete (5 * s.length + 5)).line hder hatEnd
      (fun t ht => by cases ht) (by omega)
    have hskip : skip ps' = [] := skip_of_tokens_nil hat'.tokens
    simp [parsecmd, hok, peek, hskip, hspells.nulterminate]
  cases hp : parseline (5 * s.length + 5) s with
  | error e =>
    rw [hp] at hsound
    have herror : parsecmd s = .error e := by simp only [parsecmd, hp]
    refine ⟨fun c => ⟨fun h => ?_, hcomplete c⟩, Or.inr ?_⟩
    · rw [herror] at h
      cases h
    · cases e with
      | panic msg => exact ⟨msg, herror⟩
      | fuel => exact absurd rfl hsound
  | ok r =>
    rw [hp] at hsound
    obtain ⟨cmd, ps'⟩ := r
    obtain ⟨ts, rest, c, hts, hat', hder, hspells⟩ := hsound
    by_cases hskip : skip ps' = []
    · -- The whole line is read.
      have hrest : rest = [] := by rw [← hat'.tokens, tokens_nil hskip]
      rw [hrest, List.append_nil] at hts
      have hok : parsecmd s = .ok c := by simp [parsecmd, hp, peek, hskip, hspells.nulterminate]
      refine ⟨fun c' => ⟨fun h => ?_, hcomplete c'⟩, Or.inl ⟨c, hok⟩⟩
      rw [hok] at h
      cases h
      rw [hts]
      exact hder
    · have herror : parsecmd s = .error (.panic "syntax") := by
        simp [parsecmd, hp, peek, hskip]
      refine ⟨fun c' => ⟨fun h => ?_, hcomplete c'⟩, Or.inr ⟨_, herror⟩⟩
      rw [herror] at h
      cases h

-- (a;b>c)&
theorem parsecmd_ok_iff_line_block :
    Line (tokens [40, 97, 59, 98, 62, 99, 41, 38])
      (.back (.list (.exec [[97]])
        (.redir (.exec [[98]]) [99] (Fs.O_WRONLY ||| Fs.O_CREATE ||| Fs.O_TRUNC) 1))) :=
  ((parsecmd_ok_iff_line [40, 97, 59, 98, 62, 99, 41, 38] (by decide)).1 _).mp (by decide +kernel)

end Xv6.Sh
