import Xv6.Sh.Parse

namespace Xv6.Sh

-- The index in buf of a pointer into the line.
def addr (line s : List UInt8) : Nat := line.length - s.length

-- nulterminate(), which writes to the buffer that the line is in.
def Cmd.nulterminate (line : List UInt8) : Cmd Span → List UInt8 → List UInt8
  | .exec argv, buf => argv.foldl (fun buf word => buf.set (addr line word.eq) 0) buf
  | .redir cmd file _ _, buf => (cmd.nulterminate line buf).set (addr line file.eq) 0
  | .pipe left right, buf => right.nulterminate line (left.nulterminate line buf)
  | .list left right, buf => right.nulterminate line (left.nulterminate line buf)
  | .back cmd, buf => cmd.nulterminate line buf

-- The C string at p.
def cstring (buf : List UInt8) (p : Nat) : List UInt8 := (buf.drop p).takeWhile fun c => decide (c ≠ 0)

-- The command that parsecmd() gives to nulterminate().
def parsetree (s : List UInt8) : Except Stop (Cmd Span) :=
  match parseline (5 * s.length + 5) s with
  | .error e => .error e
  | .ok (cmd, ps) =>
    let (_, ps) := peek ps []
    if ps ≠ [] then .error (.panic "syntax") else .ok cmd

variable {line s ps ps' w : List UInt8} {fuel : Nat} {cmd : Cmd Span} {c : Cmd (List UInt8)}

-- All strings of a command and what is left are in the line.
structure Within (line : List UInt8) (r : Cmd Span × List UInt8) : Prop where
  words : ∀ word ∈ r.1.words, word.q <:+ line
  rest : r.2 <:+ line

theorem peek_rest {toks : List UInt8} {more : Bool} (h : s <:+ line) (hp : peek s toks = (more, ps)) :
    ps <:+ line := by
  cases hp
  exact (List.dropWhile_suffix _).trans h

theorem gettoken_rest (h : s <:+ line) : (gettoken s).2.2 <:+ line := (gettoken_suffix s).trans h

theorem gettoken_word (h : s <:+ line) : (gettoken s).2.1.q <:+ line := (gettoken_q_suffix s).trans h

theorem words_redirs (cmd : Cmd Span) (rs : List (Redir Span)) :
    (cmd.redirs rs).words = cmd.words ++ rs.map Redir.file := by
  induction rs generalizing cmd with
  | nil => simp [Cmd.redirs]
  | cons r rs ih =>
    have h : cmd.redirs (r :: rs) = (Cmd.redir cmd r.file r.mode r.fd).redirs rs := rfl
    rw [h, ih, Cmd.words, List.map_cons, List.append_assoc, List.singleton_append]

theorem within_redirs {rs : List (Redir Span)} (hcmd : ∀ word ∈ cmd.words, word.q <:+ line)
    (hrs : ∀ r ∈ rs, r.file.q <:+ line) : ∀ word ∈ (cmd.redirs rs).words, word.q <:+ line := by
  intro word hword
  rw [words_redirs] at hword
  rcases List.mem_append.mp hword with hword | hword
  · exact hcmd word hword
  · obtain ⟨r, hr, rfl⟩ := List.mem_map.mp hword
    exact hrs r hr

theorem mem_redir {tok : UInt8} {file : Span} {r : Redir Span} (h : r ∈ redir tok file) : r.file = file := by
  unfold redir at h
  split at h
  · rw [List.mem_singleton.mp h]
  · split at h
    · rw [List.mem_singleton.mp h]
    · split at h
      · rw [List.mem_singleton.mp h]
      · cases h

theorem parseredirs_within {rs rs' : List (Redir Span)} (hps : ps <:+ line)
    (hrs : ∀ r ∈ rs, r.file.q <:+ line) (h : parseredirs fuel rs ps = .ok (rs', ps')) :
    (∀ r ∈ rs', r.file.q <:+ line) ∧ ps' <:+ line := by
  induction fuel generalizing rs ps with
  | zero => cases h
  | succ fuel ih =>
    rw [parseredirs] at h
    generalize hp : peek ps [60, 62] = next at h
    have hps := peek_rest hps hp
    dsimp only at h
    split at h
    · have hfile := gettoken_word (gettoken_rest hps)
      split at h
      · cases h
      · refine ih (gettoken_rest (gettoken_rest hps)) (fun r hr => ?_) h
        rcases List.mem_append.mp hr with hr | hr
        · exact hrs r hr
        · rw [mem_redir hr]
          exact hfile
    · cases h
      exact ⟨hrs, hps⟩

theorem parseargs_within {argv : List Span} {rs : List (Redir Span)} {r : Cmd Span × List UInt8}
    (hps : ps <:+ line) (hargv : ∀ word ∈ argv, word.q <:+ line)
    (hrs : ∀ r ∈ rs, r.file.q <:+ line) (h : parseargs fuel argv rs ps = .ok r) : Within line r := by
  induction fuel generalizing argv rs ps with
  | zero => cases h
  | succ fuel ih =>
    rw [parseargs] at h
    generalize hp : peek ps [124, 41, 38, 59] = next at h
    have hps := peek_rest hps hp
    dsimp only at h
    split at h
    · cases h
      exact ⟨within_redirs hargv hrs, hps⟩
    · split at h
      · cases h
        exact ⟨within_redirs hargv hrs, gettoken_rest hps⟩
      · split at h
        · cases h
        · split at h
          · cases h
          · split at h
            · cases h
            · rename_i hredirs
              obtain ⟨hrs', hps'⟩ := parseredirs_within (gettoken_rest hps) hrs hredirs
              refine ih hps' (fun word hword => ?_) hrs' h
              rcases List.mem_append.mp hword with hword | hword
              · exact hargv word hword
              · rw [List.mem_singleton.mp hword]
                exact gettoken_word hps

theorem parsebacks_within {r : Cmd Span × List UInt8} (h₀ : Within line (cmd, ps))
    (h : parsebacks fuel cmd ps = .ok r) : Within line r := by
  induction fuel generalizing cmd ps with
  | zero => cases h
  | succ fuel ih =>
    rw [parsebacks] at h
    generalize hp : peek ps [38] = next at h
    obtain ⟨more, ps₁⟩ := next
    have hps := peek_rest h₀.rest hp
    dsimp only at h
    split at h
    · have hback : Within line (.back cmd, (gettoken ps₁).2.2) := ⟨h₀.words, gettoken_rest hps⟩
      exact ih hback h
    · cases h
      exact ⟨h₀.words, hps⟩

structure Inside (s : List UInt8) (fuel : Nat) : Prop where
  line : ∀ {ps r}, ps <:+ s → parseline fuel ps = .ok r → Within s r
  pipe : ∀ {ps r}, ps <:+ s → parsepipe fuel ps = .ok r → Within s r
  block : ∀ {ps r}, ps <:+ s → parseblock fuel ps = .ok r → Within s r
  exec : ∀ {ps r}, ps <:+ s → parseexec fuel ps = .ok r → Within s r

theorem Within.append {left right : Cmd Span} (hl : Within line (left, ps)) (hr : Within line (right, ps')) :
    ∀ word ∈ left.words ++ right.words, word.q <:+ line := by
  intro word hword
  exact (List.mem_append.mp hword).elim (hl.words word) (hr.words word)

theorem parseline_within {r : Cmd Span × List UInt8} (ih : Inside line fuel) (hps : ps <:+ line)
    (h : parseline (fuel + 1) ps = .ok r) : Within line r := by
  rw [parseline] at h
  split at h
  · cases h
  · rename_i hpipe
    split at h
    · cases h
    · rename_i ps₁ hbacks
      have hcmd := parsebacks_within (ih.pipe hps hpipe) hbacks
      generalize hp : peek ps₁ [59] = next at h
      have hps₂ := peek_rest hcmd.rest hp
      dsimp only at h
      split at h
      · split at h
        · cases h
        · rename_i hline
          cases h
          have hright := ih.line (gettoken_rest hps₂) hline
          exact ⟨hcmd.append hright, hright.rest⟩
      · cases h
        exact ⟨hcmd.words, hps₂⟩

theorem parsepipe_within {r : Cmd Span × List UInt8} (ih : Inside line fuel) (hps : ps <:+ line)
    (h : parsepipe (fuel + 1) ps = .ok r) : Within line r := by
  rw [parsepipe] at h
  split at h
  · cases h
  · rename_i ps₁ hexec
    have hcmd := ih.exec hps hexec
    generalize hp : peek ps₁ [124] = next at h
    have hps₂ := peek_rest hcmd.rest hp
    dsimp only at h
    split at h
    · split at h
      · cases h
      · rename_i hpipe
        cases h
        have hright := ih.pipe (gettoken_rest hps₂) hpipe
        exact ⟨hcmd.append hright, hright.rest⟩
    · cases h
      exact ⟨hcmd.words, hps₂⟩

theorem parseblock_within {r : Cmd Span × List UInt8} (ih : Inside line fuel) (hps : ps <:+ line)
    (h : parseblock (fuel + 1) ps = .ok r) : Within line r := by
  rw [parseblock] at h
  generalize hp : peek ps [40] = next at h
  have hps₁ := peek_rest hps hp
  dsimp only at h
  split at h
  · split at h
    · cases h
    · rename_i ps₂ hline
      have hcmd := ih.line (gettoken_rest hps₁) hline
      generalize hp : peek ps₂ [41] = next at h
      obtain ⟨close, ps₃⟩ := next
      have hps₃ := peek_rest hcmd.rest hp
      dsimp only at h
      split at h
      · split at h
        · cases h
        · rename_i hredirs
          cases h
          obtain ⟨hrs, hrest⟩ := parseredirs_within (gettoken_rest hps₃) (by simp) hredirs
          exact ⟨within_redirs hcmd.words hrs, hrest⟩
      · cases h
  · cases h

theorem parseexec_within {r : Cmd Span × List UInt8} (ih : Inside line fuel) (hps : ps <:+ line)
    (h : parseexec (fuel + 1) ps = .ok r) : Within line r := by
  rw [parseexec] at h
  generalize hp : peek ps [40] = next at h
  have hps₁ := peek_rest hps hp
  dsimp only at h
  split at h
  · exact ih.block hps₁ h
  · split at h
    · cases h
    · rename_i hredirs
      obtain ⟨hrs, hrest⟩ := parseredirs_within hps₁ (by simp) hredirs
      exact parseargs_within hrest (by simp) hrs h

theorem inside (line : List UInt8) (fuel : Nat) : Inside line fuel := by
  induction fuel with
  | zero =>
    exact ⟨fun _ h => by simp [parseline] at h, fun _ h => by simp [parsepipe] at h,
      fun _ h => by simp [parseblock] at h, fun _ h => by simp [parseexec] at h⟩
  | succ fuel ih =>
    exact ⟨parseline_within ih, parsepipe_within ih, parseblock_within ih, parseexec_within ih⟩

-- The stores for a list of strings.
def stores (line : List UInt8) (words : List Span) (buf : List UInt8) : List UInt8 :=
  words.foldl (fun buf word => buf.set (addr line word.eq) 0) buf

theorem nulterminate_eq (line : List UInt8) (cmd : Cmd Span) (buf : List UInt8) :
    cmd.nulterminate line buf = stores line cmd.words buf := by
  induction cmd generalizing buf with
  | exec argv => rfl
  | redir cmd file mode fd ih => rw [Cmd.nulterminate, Cmd.words, ih, stores, stores, List.foldl_append]; rfl
  | pipe left right ihl ihr => rw [Cmd.nulterminate, Cmd.words, ihl, ihr, stores, stores, stores, List.foldl_append]
  | list left right ihl ihr => rw [Cmd.nulterminate, Cmd.words, ihl, ihr, stores, stores, stores, List.foldl_append]
  | back cmd ih => exact ih buf

theorem stores_of_ne {words : List Span} {k : Nat} (h : ∀ word ∈ words, addr line word.eq ≠ k)
    (buf : List UInt8) : (stores line words buf)[k]? = buf[k]? := by
  induction words generalizing buf with
  | nil => rfl
  | cons word words ih =>
    rw [stores, List.foldl_cons, ← stores, ih (fun word hword => h word (List.mem_cons_of_mem _ hword)),
      List.getElem?_set_ne (h word List.mem_cons_self)]

theorem stores_of_mem {words : List Span} {k : Nat} (h : ∃ word ∈ words, addr line word.eq = k)
    {buf : List UInt8} (hlen : k < buf.length) : (stores line words buf)[k]? = some 0 := by
  induction words generalizing buf with
  | nil =>
    obtain ⟨word, hword, -⟩ := h
    cases hword
  | cons word words ih =>
    rw [stores, List.foldl_cons, ← stores]
    by_cases hlater : ∃ word ∈ words, addr line word.eq = k
    · exact ih hlater (by rwa [List.length_set])
    · -- The store is the last one at this index.
      have hk : addr line word.eq = k := by
        obtain ⟨other, hother, hk⟩ := h
        rcases List.mem_cons.mp hother with rfl | hother
        · exact hk
        · exact absurd ⟨other, hother, hk⟩ hlater
      rw [stores_of_ne (fun word hword hk => hlater ⟨word, hword, hk⟩), hk,
        List.getElem?_set_self hlen]

theorem cstring_eq {buf : List UInt8} {p : Nat} (hw : ∀ i < w.length, buf[p + i]? = w[i]?)
    (hnul : 0 ∉ w) (hend : buf[p + w.length]? = some 0) : cstring buf p = w := by
  induction w generalizing p with
  | nil =>
    have hend : buf[p]? = some 0 := hend
    rw [cstring, List.drop_eq_getElem?_toList_append, hend]
    rfl
  | cons c w ih =>
    have hc : buf[p]? = some c := hw 0 (by simp)
    have hne : c ≠ 0 := fun h0 => hnul (h0 ▸ List.mem_cons_self)
    have htail : cstring buf (p + 1) = w := by
      apply ih
      · intro i hi
        have := hw (i + 1) (by simpa using hi)
        rwa [List.getElem?_cons_succ, Nat.add_comm i, ← Nat.add_assoc] at this
      · exact fun h0 => hnul (List.mem_cons_of_mem _ h0)
      · rwa [List.length_cons, Nat.add_comm w.length, ← Nat.add_assoc] at hend
    rw [cstring, List.drop_eq_getElem?_toList_append, hc]
    simp only [Option.toList_some, List.singleton_append]
    rw [List.takeWhile_cons_of_pos (by simpa using hne), ← cstring, htail]

theorem addr_le (line s : List UInt8) : addr line s ≤ line.length := Nat.sub_le _ _

theorem addr_inj {t : List UInt8} (hs : s <:+ line) (ht : t <:+ line)
    (h : addr line s = addr line t) : s = t := by
  have hlen : s.length = t.length := by
    have := hs.length_le
    have := ht.length_le
    simp only [addr] at h
    omega
  exact (List.suffix_of_suffix_length_le hs ht hlen.le).eq_of_length hlen

theorem addr_drop (hs : s <:+ line) {i : Nat} (hi : i ≤ s.length) :
    addr line (s.drop i) = addr line s + i := by
  have := hs.length_le
  rw [addr, addr, List.length_drop]
  omega

theorem getElem?_addr (hs : s <:+ line) (i : Nat) : (line)[addr line s + i]? = s[i]? := by
  obtain ⟨pre, rfl⟩ := hs
  rw [addr, List.length_append, Nat.add_sub_cancel, List.getElem?_append_right (by omega),
    Nat.add_sub_cancel_left]

-- A command with its strings in the line.
structure Placed (line : List UInt8) (cmd : Cmd Span) (c : Cmd (List UInt8)) : Prop where
  spells : cmd.Spells c
  within : ∀ word ∈ cmd.words, word.q <:+ line

theorem Span.Is.suffix {word : Span} (h : word.Is w) : word.eq <:+ word.q := by
  rw [h.q]
  exact List.suffix_append _ _

theorem Placed.suffix {word : Span} (h : Placed line cmd c) (hword : word ∈ cmd.words) :
    word.eq <:+ line := by
  obtain ⟨w, hnames⟩ := h.spells.names word hword
  exact hnames.suffix.trans (h.within word hword)

theorem Placed.addr_ne {x y : Span} {i : Nat} (h : Placed line cmd c) (hx : x ∈ cmd.words)
    (hy : y ∈ cmd.words) (hw : x.Is w) (hi : i < w.length) : addr line y.eq ≠ addr line x.q + i := by
  intro heq
  have hxq := h.within x hx
  have hlen : i ≤ x.q.length := by
    rw [hw.q, List.length_append]
    omega
  rw [← addr_drop hxq hlen] at heq
  have hsame := addr_inj (h.suffix hy) ((List.drop_suffix _ _).trans hxq) heq
  have hhead : y.eq.head? = some w[i] := by
    rw [hsame, List.head?_drop, hw.q, List.getElem?_append_left hi, List.getElem?_eq_getElem hi]
  obtain ⟨w', hnames⟩ := h.spells.names y hy
  have hnot := hnames.eq w[i] hhead
  rw [hw.word _ (List.getElem_mem hi)] at hnot
  cases hnot

theorem Placed.cstring_eq {word : Span} (h : Placed line cmd c) (hword : word ∈ cmd.words)
    (hnames : word.Names w) :
    cstring (cmd.nulterminate line (line ++ [0])) (addr line word.q) = w := by
  have hq := h.within word hword
  have hlen : (w ++ word.eq).length ≤ line.length := hnames.q ▸ hq.length_le
  rw [List.length_append] at hlen
  have haddr : addr line word.eq = addr line word.q + w.length := by
    rw [addr, addr, hnames.q, List.length_append]
    omega
  rw [nulterminate_eq]
  apply Sh.cstring_eq _ hnames.nul
  · rw [← haddr]
    apply stores_of_mem ⟨word, hword, rfl⟩
    have := addr_le line word.eq
    simp only [List.length_append, List.length_singleton]
    omega
  · intro i hi
    have hin : addr line word.q + i < line.length := by
      rw [addr, hnames.q, List.length_append]
      omega
    rw [stores_of_ne (fun y hy => h.addr_ne hword hy hnames.toIs hi), List.getElem?_append_left hin,
      getElem?_addr hq, hnames.q, List.getElem?_append_left hi]

theorem parsecmd_of_parsetree (h : parsetree s = .ok cmd) :
    parsecmd s = .ok (cmd.map fun word => string (Sh.nulterminate cmd) word.q) := by
  rw [parsetree] at h
  rw [parsecmd]
  cases hline : parseline (5 * s.length + 5) s with
  | error e =>
    rw [hline] at h
    cases h
  | ok r =>
    obtain ⟨c, ps⟩ := r
    rw [hline] at h
    dsimp only at h ⊢
    by_cases hps : (peek ps []).2 ≠ []
    · rw [if_pos hps] at h
      cases h
    · rw [if_neg hps] at h
      cases h
      exact if_neg hps

theorem placed_of_parsetree (hnul : 0 ∉ s) (h : parsetree s = .ok cmd) :
    ∃ c, Line (tokens s) c ∧ Placed s cmd c := by
  have hlen := length_tokens s
  have hsound := (sound (5 * s.length + 5)).line (⟨rfl, hnul⟩ : At s (tokens s)) (by omega)
  rw [parsetree] at h
  split at h
  · cases h
  · rename_i cmd' ps hline
    rw [hline] at hsound
    obtain ⟨ts, rest, c, hts, hat, hder, hspells⟩ := hsound
    have hwithin := (inside s _).line (List.suffix_refl s) hline
    generalize hp : peek ps [] = next at h
    obtain ⟨more, ps'⟩ := next
    have hskip : ps' = skip ps := by
      cases hp
      rfl
    dsimp only at h
    split at h
    · cases h
    · rename_i hend
      cases h
      rw [ne_eq, not_not, hskip] at hend
      have hrest : rest = [] := by rw [← hat.tokens, tokens_nil hend]
      rw [hrest, List.append_nil] at hts
      exact ⟨c, hts ▸ hder, hspells, hwithin.words⟩

-- After nulterminate() the C strings of the command are the words of the tokens of the
-- line, and the NUL of a string is not at a character of any of them.
theorem nulterminate_isolates (s : List UInt8) (hnul : 0 ∉ s) (cmd : Cmd Span)
    (h : parsetree s = .ok cmd) :
    (∃ c, parsecmd s = .ok c ∧ Line (tokens s) c ∧
      (cmd.map fun word => cstring (cmd.nulterminate s (s ++ [0])) (addr s word.q)) = c) ∧
    ∀ x ∈ cmd.words, ∀ y ∈ cmd.words, addr s y.eq < (s ++ [0]).length ∧
      ∀ k, addr s x.q ≤ k → k < addr s x.eq → addr s y.eq ≠ k := by
  obtain ⟨c, hder, hplaced⟩ := placed_of_parsetree hnul h
  refine ⟨⟨c, ?_, hder, ?_⟩, ?_⟩
  · rw [parsecmd_of_parsetree h, hplaced.spells.nulterminate]
  · exact hplaced.spells.map_eq fun word hword w hnames => hplaced.cstring_eq hword hnames
  · intro x hx y hy
    have hle := addr_le s y.eq
    refine ⟨by simp only [List.length_append, List.length_singleton]; omega, ?_⟩
    intro k hq he
    obtain ⟨w, hnames⟩ := hplaced.spells.names x hx
    have hi : k - addr s x.q < w.length := by
      have hlen : (w ++ x.eq).length ≤ s.length := hnames.q ▸ (hplaced.within x hx).length_le
      rw [addr, hnames.q] at hq
      rw [addr] at he
      simp only [List.length_append] at hlen hq
      rw [addr, hnames.q, List.length_append]
      omega
    have := hplaced.addr_ne hx hy hnames.toIs hi
    rwa [Nat.add_sub_cancel' hq] at this

-- The command of a>b, where a is ended at the symbol.
def redirected : Cmd Span := .redir (.exec [⟨[97, 62, 98], [62, 98]⟩]) ⟨[98], []⟩ 0x601 1

theorem nulterminate_isolates_redirected :
    redirected.nulterminate [97, 62, 98] [97, 62, 98, 0] = [97, 0, 98, 0] ∧
    ∃ c, parsecmd [97, 62, 98] = .ok c ∧ Line (tokens [97, 62, 98]) c ∧
      (redirected.map fun word => cstring (redirected.nulterminate [97, 62, 98] [97, 62, 98, 0])
        (addr [97, 62, 98] word.q)) = c :=
  ⟨by decide, (nulterminate_isolates [97, 62, 98] (by decide) redirected (by rfl)).1⟩

end Xv6.Sh
