import Xv6.Shell.Tokens

/-! @src sh.c | name:The grammar of command lines | layer:proof

    `line := pipe {'&'} [';' line]`, `pipe := exec ['|' pipe]`, and
    `exec := '(' line ')' {redir} | {redir} {word {redir}}`. A derivation gives the tree of its tokens.
    What the parser returns is derived from the tokens that it passed. -/

namespace Xv6.Shell
open Xv6.Schemes

/-- The nonterminals with a tree. -/
inductive Sym where
  | line
  | pipe
  | exec
  deriving DecidableEq

/-- `{redir}`, with the operator and the file of each. -/
inductive Redirs : List Token → List (Token × Token) → Prop
  | nil : Redirs [] []
  | cons {op file ts rs} (hop : op.ret ∈ redirections) (hfile : file.ret = ascii 'a')
      (h : Redirs ts rs) : Redirs (op :: file :: ts) ((op, file) :: rs)

/-- `{word {redir}}`, with the words and the redirections. -/
inductive Args : List Token → List Token → List (Token × Token) → Prop
  | nil : Args [] [] []
  | cons {w us rs ts ws rs'} (hw : w.ret = ascii 'a') (hr : Redirs us rs) (h : Args ts ws rs') :
      Args (w :: (us ++ ts)) (w :: ws) (rs ++ rs')

def Token.range (t : Token) : ℕ × ℕ := (t.q, t.eq)

/-- A later redirection is wrapped around the earlier ones. -/
def wrap (rs : List (Token × Token)) (cmd : Cmd) : Cmd :=
  rs.foldl (fun cmd r => redirect r.1.ret cmd r.2) cmd

/-- One `BACK` for each `&`. -/
def backs (amps : List Token) (cmd : Cmd) : Cmd := amps.foldl (fun cmd _ => .back cmd) cmd

/-- The derivations, and their trees. -/
inductive Derives : Sym → List Token → Cmd → Prop
  | last {ts c amps} (hp : Derives .pipe ts c) (hamps : ∀ t ∈ amps, t.ret = ascii '&') :
      Derives .line (ts ++ amps) (backs amps c)
  | list {ts c amps semi us d} (hp : Derives .pipe ts c) (hamps : ∀ t ∈ amps, t.ret = ascii '&')
      (hsemi : semi.ret = ascii ';') (hl : Derives .line us d) :
      Derives .line (ts ++ amps ++ semi :: us) (.list (backs amps c) d)
  | single {ts c} (he : Derives .exec ts c) : Derives .pipe ts c
  | pipe {ts c bar us d} (he : Derives .exec ts c) (hbar : bar.ret = ascii '|')
      (hp : Derives .pipe us d) : Derives .pipe (ts ++ bar :: us) (.pipe c d)
  | block {lparen ts c rparen us rs} (hlparen : lparen.ret = ascii '(') (hl : Derives .line ts c)
      (hrparen : rparen.ret = ascii ')') (hr : Redirs us rs) :
      Derives .exec (lparen :: (ts ++ rparen :: us)) (wrap rs c)
  | simple {us rs ts ws rs'} (hr : Redirs us rs) (ha : Args ts ws rs')
      (hargs : ws.length < MAXARGS) :
      Derives .exec (us ++ ts) (wrap (rs ++ rs') (.exec (ws.map Token.range)))

section

variable {s : CString} {p p' fuel argc : ℕ} {ts us : List Token} {t : Token} {c c' : Cmd}
  {rs rs' : List (Token × Token)} {argv : List (ℕ × ℕ)} {toks : List Byte}

theorem bind_eq_ok {α β : Type} {x : Run α} {g : α → Run β} {b : β} (h : x >>= g = .ok b) :
    ∃ a, x = .ok a ∧ g a = .ok b := by
  cases x with
  | error e => cases h
  | ok a => exact ⟨a, rfl, h⟩

/-! ### The tree -/

theorem wrap_append (rs rs' : List (Token × Token)) (c : Cmd) :
    wrap (rs ++ rs') c = wrap rs' (wrap rs c) := List.foldl_append

/-- A store to the arguments does not move the redirections. -/
theorem arg_redirect (w : ℕ × ℕ) (tok : Byte) (c : Cmd) (file : Token) :
    (redirect tok c file).arg w = redirect tok (c.arg w) file := by
  unfold redirect
  split_ifs <;> rfl

theorem arg_wrap (w : ℕ × ℕ) (rs : List (Token × Token)) (c : Cmd) :
    (wrap rs c).arg w = wrap rs (c.arg w) := by
  induction rs generalizing c with
  | nil => rfl
  | cons r rs ih =>
    rw [wrap, List.foldl_cons, ← wrap, ih, arg_redirect]
    rfl

/-! ### What the parser returns is derived -/

/-- From cursor `p` to `p'` the tokens are `ts`, and the cursor stays in the line. -/
structure Passed (s : CString) (p : ℕ) (ts : List Token) (p' : ℕ) : Prop where
  split : tokens s p = ts ++ tokens s p'
  le : p ≤ s.chars.length → p' ≤ s.chars.length

theorem Passed.skip (s : CString) (p : ℕ) : Passed s p [] (skip s p) :=
  ⟨(tokens_skip s p).symm, skip_le⟩

theorem Passed.token (h : (gettoken s p).1.ret ≠ 0) :
    Passed s p [(gettoken s p).1] (gettoken s p).2 :=
  ⟨tokens_cons h, fun _ => (gettoken_lt h).2⟩

theorem Passed.trans {p₁ p₂ : ℕ} (h : Passed s p ts p₁) (h' : Passed s p₁ us p₂) :
    Passed s p (ts ++ us) p₂ :=
  ⟨by rw [h.split, h'.split, List.append_assoc], fun hp => h'.le (h.le hp)⟩

theorem Passed.of_skip (h : Passed s (Xv6.Shell.skip s p) ts p') : Passed s p ts p' :=
  (Passed.skip s p).trans h

/-- The end of the line is not passed. -/
theorem Passed.end (h : (gettoken s p).1.ret = 0) : Passed s p [] (gettoken s p).2 := by
  have he : (gettoken s p).2 = Xv6.Shell.skip s p := by
    rw [gettoken_fst] at h
    rw [gettoken_snd, gettoken_fst, lexeme, if_pos ((lexeme_ret_eq_zero s _).mp h)]
    exact skip_skip s p
  rw [he]
  exact Passed.skip s p

/-- A symbol that `peek` has seen is the next token. -/
theorem Passed.peek (h : (peek s p toks).1 = true) (hp : toks ⊆ plain) :
    (gettoken s p).1.ret ∈ toks ∧ Passed s p [(gettoken s p).1] (gettoken s p).2 := by
  have hr := (peek_plain hp).mp h
  exact ⟨hr, Passed.token fun h0 => absurd (h0 ▸ hp hr) (by decide)⟩

theorem parseredirs_sound (h : parseredirs fuel s c p = .ok (c', p')) :
    ∃ ts rs, Redirs ts rs ∧ Passed s p ts p' ∧ c' = wrap rs c := by
  induction fuel generalizing c p with
  | zero => cases h
  | succ fuel ih =>
    rw [parseredirs] at h
    dsimp only at h
    rw [peek_snd, gettoken_skip] at h
    split_ifs at h with hp hf
    · obtain ⟨ts, rs, hrs, hts, hc⟩ := ih h
      have hop := peek_redirection.mp hp
      have hop0 : (gettoken s p).1.ret ≠ 0 := fun h0 => absurd (h0 ▸ hop) (by decide)
      have hfile : (gettoken s (gettoken s p).2).1.ret = ascii 'a' := not_not.mp hf
      have hfile0 : (gettoken s (gettoken s p).2).1.ret ≠ 0 := by
        rw [hfile]
        decide
      exact ⟨_, _, .cons hop hfile hrs, (Passed.token hop0).trans ((Passed.token hfile0).trans hts),
        hc⟩
    · cases h
      exact ⟨[], [], .nil, Passed.skip s p, rfl⟩

theorem parseargs_sound (h : parseargs fuel s (wrap rs (.exec argv)) argc p = .ok (c', p'))
    (hargc : argc < MAXARGS) :
    ∃ ts ws rs', Args ts ws rs' ∧ Passed s p ts p' ∧ argc + ws.length < MAXARGS ∧
      c' = wrap (rs ++ rs') (.exec (argv ++ ws.map Token.range)) := by
  induction fuel generalizing rs argv argc p with
  | zero => cases h
  | succ fuel ih =>
    rw [parseargs] at h
    dsimp only at h
    rw [peek_snd, gettoken_skip] at h
    split_ifs at h with hp h0 ha hmax
    · cases h
      exact ⟨[], [], [], .nil, Passed.skip s p, hargc, by simp⟩
    · cases h
      exact ⟨[], [], [], .nil, Passed.end h0, hargc, by simp⟩
    · obtain ⟨⟨c₁, p₁⟩, hr, h⟩ := bind_eq_ok h
      obtain ⟨us, rs₁, hrs, hus, rfl⟩ := parseredirs_sound hr
      rw [arg_wrap, ← wrap_append] at h
      obtain ⟨ts, ws, rs', hargs, hts, hlen, hc⟩ := ih h (not_le.mp hmax)
      have hw : (gettoken s p).1.ret = ascii 'a' := not_not.mp ha
      refine ⟨_, _, _, .cons hw hrs hargs, (Passed.token h0).trans (hus.trans hts), ?_, ?_⟩
      · rw [List.length_cons]
        omega
      · rw [hc, List.append_assoc, List.append_assoc, List.map_cons]
        rfl

theorem parsebacks_sound (h : parsebacks fuel s c p = .ok (c', p')) :
    ∃ amps, (∀ t ∈ amps, t.ret = ascii '&') ∧ Passed s p amps p' ∧ c' = backs amps c := by
  induction fuel generalizing c p with
  | zero => cases h
  | succ fuel ih =>
    rw [parsebacks] at h
    rw [peek_snd, gettoken_skip] at h
    split_ifs at h with hp
    · obtain ⟨amps, hamps, hts, hc⟩ := ih h
      obtain ⟨hr, hamp⟩ := Passed.peek hp (by decide)
      exact ⟨_ :: amps, List.forall_mem_cons.mpr ⟨List.mem_singleton.mp hr, hamps⟩,
        hamp.trans hts, hc⟩
    · cases h
      exact ⟨[], List.forall_mem_nil _, Passed.skip s p, rfl⟩

/-- The function of the parser for a nonterminal. -/
def parse : Sym → ℕ → CString → ℕ → Run (Cmd × ℕ)
  | .line => parseline
  | .pipe => parsepipe
  | .exec => parseexec

theorem parse_zero (n : Sym) (s : CString) (p : ℕ) : parse n 0 s p = .error .more := by
  cases n
  · rw [parse, parseline]
  · rw [parse, parsepipe]
  · rw [parse, parseexec]

/-- What a call returns is derived from the tokens between the two cursors. -/
def Sound (n : Sym) (fuel : ℕ) (s : CString) : Prop :=
  ∀ ⦃p c p'⦄, parse n fuel s p = .ok (c, p') → ∃ ts, Derives n ts c ∧ Passed s p ts p'

theorem parseline_sound (hpipe : Sound .pipe fuel s) (hline : Sound .line fuel s) :
    Sound .line (fuel + 1) s := by
  intro p c p' h
  rw [parse, parseline] at h
  obtain ⟨⟨c₁, p₁⟩, hc, h⟩ := bind_eq_ok h
  obtain ⟨⟨c₂, p₂⟩, hb, h⟩ := bind_eq_ok h
  obtain ⟨ts, hd, hts⟩ := hpipe hc
  obtain ⟨amps, hamps, hus, rfl⟩ := parsebacks_sound hb
  dsimp only at h hus
  rw [peek_snd, gettoken_skip] at h
  split_ifs at h with hp
  · obtain ⟨⟨d, p₃⟩, hl, h⟩ := bind_eq_ok h
    cases h
    obtain ⟨us, hdl, hvs⟩ := hline hl
    obtain ⟨hr, hsemi⟩ := Passed.peek hp (by decide)
    exact ⟨_, .list hd hamps (List.mem_singleton.mp hr) hdl, (hts.trans hus).trans (hsemi.trans hvs)⟩
  · cases h
    refine ⟨_, .last hd hamps, ?_⟩
    rw [← List.append_nil (ts ++ amps)]
    exact (hts.trans hus).trans (Passed.skip s p₂)

theorem parsepipe_sound (hexec : Sound .exec fuel s) (hpipe : Sound .pipe fuel s) :
    Sound .pipe (fuel + 1) s := by
  intro p c p' h
  rw [parse, parsepipe] at h
  obtain ⟨⟨c₁, p₁⟩, hc, h⟩ := bind_eq_ok h
  obtain ⟨ts, hd, hts⟩ := hexec hc
  dsimp only at h hts
  rw [peek_snd, gettoken_skip] at h
  split_ifs at h with hp
  · obtain ⟨⟨d, p₃⟩, hl, h⟩ := bind_eq_ok h
    cases h
    obtain ⟨us, hdl, hvs⟩ := hpipe hl
    obtain ⟨hr, hbar⟩ := Passed.peek hp (by decide)
    exact ⟨_, .pipe hd (List.mem_singleton.mp hr) hdl, hts.trans (hbar.trans hvs)⟩
  · cases h
    refine ⟨_, .single hd, ?_⟩
    rw [← List.append_nil ts]
    exact hts.trans (Passed.skip s p₁)

/-- `parseblock` is entered at a parenthesis only. -/
theorem parseblock_sound (hline : Sound .line fuel s)
    (h : parseblock (fuel + 1) s p = .ok (c, p')) :
    ∃ ts, Derives .exec ts c ∧ Passed s p ts p' := by
  rw [parseblock] at h
  dsimp only at h
  rw [peek_snd, gettoken_skip] at h
  split_ifs at h with hp
  obtain ⟨⟨c₁, p₁⟩, hl, h⟩ := bind_eq_ok h
  obtain ⟨ts, hd, hts⟩ := hline hl
  dsimp only at h hts
  rw [peek_snd, gettoken_skip] at h
  split_ifs at h with hq
  obtain ⟨us, rs, hrs, hus, rfl⟩ := parseredirs_sound h
  obtain ⟨hr, hlparen⟩ := Passed.peek hp (by decide)
  obtain ⟨hr', hrparen⟩ := Passed.peek hq (by decide)
  exact ⟨_, .block (List.mem_singleton.mp hr) hd (List.mem_singleton.mp hr') hrs,
    hlparen.trans (hts.trans (hrparen.trans hus))⟩

theorem parseexec_sound (hline : Sound .line (fuel - 1) s) : Sound .exec (fuel + 1) s := by
  intro p c p' h
  rw [parse, parseexec] at h
  rw [peek_snd] at h
  split_ifs at h with hp
  · cases fuel with
    | zero =>
      rw [parseblock] at h
      cases h
    | succ fuel =>
      obtain ⟨ts, hd, hts⟩ := parseblock_sound hline h
      exact ⟨ts, hd, hts.of_skip⟩
  · obtain ⟨⟨c₁, p₁⟩, hr, h⟩ := bind_eq_ok h
    obtain ⟨us, rs, hrs, hus, rfl⟩ := parseredirs_sound hr
    obtain ⟨ts, ws, rs', hargs, hts, hlen, rfl⟩ := parseargs_sound h (by decide)
    rw [Nat.zero_add] at hlen
    exact ⟨_, .simple hrs hargs hlen, hus.of_skip.trans hts⟩

theorem parse_sound (s : CString) (n : Sym) (fuel : ℕ) : Sound n fuel s := by
  induction fuel using Nat.strong_induction_on generalizing n with
  | _ fuel ih =>
    cases fuel with
    | zero =>
      intro p c p' h
      rw [parse_zero] at h
      cases h
    | succ fuel =>
      have hlt : fuel < fuel + 1 := Nat.lt_succ_self fuel
      cases n with
      | line => exact parseline_sound (ih fuel hlt .pipe) (ih fuel hlt .line)
      | pipe => exact parsepipe_sound (ih fuel hlt .exec) (ih fuel hlt .pipe)
      | exec => exact parseexec_sound (ih (fuel - 1) (by omega) .line)

/-- A command that `parsecmd` returns is derived from all tokens of the line. -/
theorem parsecmd_sound {cmd : Cmd} {buf : Option (List Byte)}
    (h : parsecmd fuel s = .ok (cmd, buf)) :
    Derives .line (tokens s 0) cmd ∧ buf = nulterminate cmd (s.chars ++ [0]) := by
  obtain ⟨⟨c, p⟩, hc, h⟩ := bind_eq_ok h
  dsimp only at h
  rw [peek_snd] at h
  split_ifs at h with hp
  cases h
  obtain ⟨ts, hd, hts⟩ := parse_sound s .line fuel hc
  have htok := hts.split
  rw [tokens_eq_nil.mpr (not_not.mp hp).ge, List.append_nil] at htok
  exact ⟨htok ▸ hd, rfl⟩

end

end Xv6.Shell
