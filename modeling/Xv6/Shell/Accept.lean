import Xv6.Shell.Terminate

/-! @src sh.c | name:The parser accepts its grammar | layer:proof

    The next token decides what the parser does: after a nonterminal there are the tokens that may
    follow it, and none of them belongs to the nonterminal. So the parser follows the derivation. A
    call takes as much fuel as there are tokens, four times for the four functions between one
    parenthesis and the next. -/

namespace Xv6.Shell
open Xv6.Schemes

/-- The first token, if there is one, is one of `R`. -/
def Starts (R : List Byte) (ts : List Token) : Prop := ∀ t ∈ ts.head?, t.ret ∈ R

/-- What may follow a nonterminal, besides the end of the line. -/
def follow : Sym → List Byte
  | .line => [ascii ')']
  | .pipe => [ascii ')', ascii '&', ascii ';']
  | .exec => [ascii ')', ascii '&', ascii ';', ascii '|']

section

variable {s : CString} {p fuel argc : ℕ} {ts us vs amps : List Token} {t : Token} {c : Cmd}
  {rs rs' : List (Token × Token)} {argv : List (ℕ × ℕ)} {ws : List Token} {toks R R' : List Byte}

theorem starts_nil : Starts R [] := fun _ h => nomatch h

theorem starts_cons : Starts R (t :: ts) ↔ t.ret ∈ R := by simp [Starts]

theorem Starts.append (h : Starts R ts) (h' : Starts R us) : Starts R (ts ++ us) := by
  cases ts with
  | nil => exact h'
  | cons t ts => exact starts_cons.mpr (starts_cons.mp h)

theorem Starts.mono (h : Starts R ts) (hsub : R ⊆ R') : Starts R' ts := fun t ht => hsub (h t ht)

theorem Redirs.starts (h : Redirs ts rs) : Starts redirections ts := by
  cases h with
  | nil => exact starts_nil
  | cons hop hfile h => exact starts_cons.mpr hop

theorem Args.starts (h : Args ts ws rs) : Starts [ascii 'a'] ts := by
  cases h with
  | nil => exact starts_nil
  | cons hw hr h => exact starts_cons.mpr (List.mem_singleton.mpr hw)

theorem starts_amps (h : ∀ t ∈ amps, t.ret = ascii '&') : Starts [ascii '&'] amps :=
  fun t ht => List.mem_singleton.mpr (h t (List.mem_of_mem_head? ht))

/-! ### Looking ahead -/

theorem peek_true (h : tokens s p = t :: ts) (ht : t.ret ∈ toks) (hp : toks ⊆ plain) :
    (peek s p toks).1 = true := by
  rw [peek_plain hp, (gettoken_of_tokens h).1]
  exact ht

/-- The next token is none of `toks`. -/
theorem ret_not_mem (h : Starts R (tokens s p)) (hd : ∀ c ∈ R, c ∉ toks) (h0 : 0 ∉ toks) :
    (gettoken s p).1.ret ∉ toks := by
  cases ht : tokens s p with
  | nil => rwa [gettoken_of_nil ht]
  | cons t ts =>
    rw [ht, starts_cons] at h
    rw [(gettoken_of_tokens ht).1]
    exact hd _ h

theorem peek_false (h : Starts R (tokens s p)) (hd : ∀ c ∈ R, c ∉ toks) (hp : toks ⊆ plain) :
    ¬ (peek s p toks).1 = true := by
  rw [peek_plain hp]
  exact ret_not_mem h hd fun h0 => absurd (hp h0) (by decide)

theorem peek_not_redirection (h : Starts R (tokens s p)) (hd : ∀ c ∈ R, c ∉ redirections) :
    ¬ (peek s p [ascii '<', ascii '>']).1 = true := by
  rw [peek_redirection]
  exact ret_not_mem h hd (by decide)

/-! ### The parser follows a derivation -/

/-- The call runs out of fuel, or returns the tree at the tokens that are left. -/
def Returns (x : Run (Cmd × ℕ)) (s : CString) (c : Cmd) (us : List Token) : Prop :=
  x = .error .more ∨ ∃ p', x = .ok (c, p') ∧ tokens s p' = us

theorem Returns.bind {x : Run (Cmd × ℕ)} {g : Cmd × ℕ → Run (Cmd × ℕ)} {d : Cmd}
    (h : Returns x s c us) (hg : ∀ p', tokens s p' = us → Returns (g (c, p')) s d vs) :
    Returns (x >>= g) s d vs := by
  rcases h with rfl | ⟨p', rfl, hp'⟩
  · exact .inl rfl
  · exact hg p' hp'

theorem parseredirs_complete (h : Redirs ts rs) (hts : tokens s p = ts ++ us)
    (hus : Starts R us) (hd : ∀ c ∈ R, c ∉ redirections) :
    Returns (parseredirs fuel s c p) s (wrap rs c) us := by
  induction h generalizing fuel c p with
  | nil =>
    cases fuel with
    | zero => exact .inl rfl
    | succ fuel =>
      rw [List.nil_append] at hts
      rw [parseredirs]
      dsimp only
      rw [if_neg (peek_not_redirection (hts ▸ hus) hd)]
      exact .inr ⟨_, rfl, by rw [peek_snd, tokens_skip, hts]⟩
  | @cons op file ts rs hop hfile h ih =>
    cases fuel with
    | zero => exact .inl rfl
    | succ fuel =>
      obtain ⟨ht, htail, -⟩ := gettoken_of_tokens hts
      obtain ⟨ht', htail', -⟩ := gettoken_of_tokens htail
      rw [parseredirs]
      dsimp only
      rw [if_pos (peek_redirection.mpr (ht ▸ hop)), peek_snd, gettoken_skip, ht', ht,
        if_neg (not_not.mpr hfile)]
      exact ih htail'

theorem parseargs_complete (h : Args ts ws rs') (hts : tokens s p = ts ++ us)
    (hus : Starts (follow .exec) us) (hlen : argc + ws.length < MAXARGS) :
    Returns (parseargs fuel s (wrap rs (.exec argv)) argc p) s
      (wrap (rs ++ rs') (.exec (argv ++ ws.map Token.range))) us := by
  induction h generalizing fuel rs argv argc p with
  | nil =>
    cases fuel with
    | zero => exact .inl rfl
    | succ fuel =>
      rw [List.nil_append] at hts
      rw [parseargs, List.append_nil, List.map_nil, List.append_nil]
      dsimp only
      rw [peek_snd, gettoken_skip]
      cases us with
      | nil =>
        have h0 := gettoken_of_nil hts
        rw [if_neg (peek_false (R := []) (hts ▸ starts_nil) (List.forall_mem_nil _) (by decide)),
          if_pos h0]
        exact .inr ⟨_, rfl, (Passed.end h0).split.symm.trans hts⟩
      | cons t us =>
        rw [if_pos (peek_true hts ((by decide : follow .exec ⊆ _) (starts_cons.mp hus))
          (by decide))]
        exact .inr ⟨_, rfl, by rw [tokens_skip, hts]⟩
  | @cons w us' rs₁ ts ws rs' hw hr h ih =>
    cases fuel with
    | zero => exact .inl rfl
    | succ fuel =>
      obtain ⟨ht, htail, h0⟩ := gettoken_of_tokens hts
      rw [List.length_cons] at hlen
      have hstart : Starts [ascii 'a'] (tokens s p) := by
        rw [hts]
        exact starts_cons.mpr (List.mem_singleton.mpr hw)
      rw [parseargs]
      dsimp only
      rw [peek_snd, gettoken_skip, if_neg (peek_false hstart (by decide) (by decide)), ht,
        if_neg h0, if_neg (not_not.mpr hw), if_neg (by omega), arg_wrap]
      refine (parseredirs_complete hr (htail.trans (List.append_assoc _ _ _))
        (R := ascii 'a' :: follow .exec) ((h.starts.mono (by decide)).append (hus.mono (by decide)))
        (by decide)).bind fun p' hp' => ?_
      rw [← wrap_append]
      have hih := @ih p' fuel (argc + 1) (rs ++ rs₁) (argv ++ [(w.q, w.eq)]) hp' (by omega)
      rwa [List.append_assoc, List.append_assoc] at hih

theorem parsebacks_complete (h : ∀ t ∈ amps, t.ret = ascii '&') (hts : tokens s p = amps ++ us)
    (hus : Starts R us) (hd : ∀ c ∈ R, c ∉ [ascii '&']) :
    Returns (parsebacks fuel s c p) s (backs amps c) us := by
  induction amps generalizing fuel c p with
  | nil =>
    cases fuel with
    | zero => exact .inl rfl
    | succ fuel =>
      rw [List.nil_append] at hts
      rw [parsebacks]
      rw [if_neg (peek_false (hts ▸ hus) hd (by decide))]
      exact .inr ⟨_, rfl, by rw [peek_snd, tokens_skip, hts]⟩
  | cons t amps ih =>
    cases fuel with
    | zero => exact .inl rfl
    | succ fuel =>
      obtain ⟨ht, hamps⟩ := List.forall_mem_cons.mp h
      rw [parsebacks]
      rw [if_pos (peek_true hts (List.mem_singleton.mpr ht) (by decide)), peek_snd, gettoken_skip]
      exact ih hamps (gettoken_of_tokens hts).2.1

theorem parse_complete {n : Sym} (h : Derives n ts c) (hts : tokens s p = ts ++ us)
    (hus : Starts (follow n) us) : Returns (parse n fuel s p) s c us := by
  induction h generalizing fuel p us with
  | @last ts c amps hp hamps ih =>
    cases fuel with
    | zero => exact .inl (parse_zero _ s p)
    | succ fuel =>
      rw [List.append_assoc] at hts
      rw [parse, parseline]
      refine (@ih p fuel (amps ++ us) hts (((starts_amps hamps).mono (by decide)).append
        (hus.mono (by decide)))).bind fun p₁ hp₁ => ?_
      refine (parsebacks_complete hamps hp₁ hus (by decide)).bind fun p₂ hp₂ => ?_
      dsimp only
      rw [if_neg (peek_false (hp₂ ▸ hus) (by decide) (by decide))]
      exact .inr ⟨_, rfl, by rw [peek_snd, tokens_skip, hp₂]⟩
  | @list ts c amps semi us' d hp hamps hsemi hl ihp ihl =>
    cases fuel with
    | zero => exact .inl (parse_zero _ s p)
    | succ fuel =>
      rw [List.append_assoc, List.append_assoc] at hts
      have hs : Starts [ascii ';'] (semi :: us' ++ us) :=
        starts_cons.mpr (List.mem_singleton.mpr hsemi)
      rw [parse, parseline]
      refine (@ihp p fuel (amps ++ (semi :: us' ++ us)) hts
        (((starts_amps hamps).mono (by decide)).append (hs.mono (by decide)))).bind
        fun p₁ hp₁ => ?_
      refine (parsebacks_complete hamps hp₁ hs (by decide)).bind fun p₂ hp₂ => ?_
      dsimp only
      rw [if_pos (peek_true hp₂ (List.mem_singleton.mpr hsemi) (by decide)), peek_snd,
        gettoken_skip]
      refine (@ihl _ fuel us (gettoken_of_tokens hp₂).2.1 hus).bind fun p₃ hp₃ => ?_
      exact .inr ⟨p₃, rfl, hp₃⟩
  | @single ts c he ih =>
    cases fuel with
    | zero => exact .inl (parse_zero _ s p)
    | succ fuel =>
      rw [parse, parsepipe]
      refine (@ih p fuel us hts (hus.mono (by decide))).bind fun p₁ hp₁ => ?_
      dsimp only
      rw [if_neg (peek_false (hp₁ ▸ hus) (by decide) (by decide))]
      exact .inr ⟨_, rfl, by rw [peek_snd, tokens_skip, hp₁]⟩
  | @pipe ts c bar us' d he hbar hp ihe ihp =>
    cases fuel with
    | zero => exact .inl (parse_zero _ s p)
    | succ fuel =>
      rw [List.append_assoc] at hts
      rw [parse, parsepipe]
      refine (@ihe p fuel (bar :: us' ++ us) hts (starts_cons.mpr (by rw [hbar]; decide))).bind
        fun p₁ hp₁ => ?_
      dsimp only
      rw [if_pos (peek_true hp₁ (List.mem_singleton.mpr hbar) (by decide)), peek_snd,
        gettoken_skip]
      refine (@ihp _ fuel us (gettoken_of_tokens hp₁).2.1 hus).bind fun p₂ hp₂ => ?_
      exact .inr ⟨p₂, rfl, hp₂⟩
  | @block lparen ts c rparen us' rs hlparen hl hrparen hr ih =>
    cases fuel with
    | zero => exact .inl (parse_zero _ s p)
    | succ fuel =>
      rw [List.cons_append, List.append_assoc] at hts
      have hpeek := peek_true hts (List.mem_singleton.mpr hlparen) (by decide)
      rw [parse, parseexec]
      rw [if_pos hpeek, peek_snd]
      cases fuel with
      | zero => exact .inl (by rw [parseblock])
      | succ fuel =>
        obtain ⟨-, htail, -⟩ := gettoken_of_tokens hts
        rw [parseblock]
        dsimp only
        rw [if_pos (peek_true ((tokens_skip s p).trans hts) (List.mem_singleton.mpr hlparen)
          (by decide)), peek_snd, skip_skip, gettoken_skip]
        refine (@ih _ fuel (rparen :: us' ++ us) htail
          (starts_cons.mpr (List.mem_singleton.mpr hrparen))).bind fun p₁ hp₁ => ?_
        dsimp only
        rw [if_pos (peek_true hp₁ (List.mem_singleton.mpr hrparen) (by decide)), peek_snd,
          gettoken_skip]
        exact parseredirs_complete hr (gettoken_of_tokens hp₁).2.1 hus (by decide)
  | @simple us' rs ts ws rs' hr ha hargs =>
    cases fuel with
    | zero => exact .inl (parse_zero _ s p)
    | succ fuel =>
      rw [List.append_assoc] at hts
      have hend : Starts (ascii 'a' :: follow .exec) (ts ++ us) :=
        (ha.starts.mono (by decide)).append (hus.mono (by decide))
      have hall : Starts (redirections ++ ascii 'a' :: follow .exec) (tokens s p) := by
        rw [hts]
        exact (hr.starts.mono (by decide)).append (hend.mono (by decide))
      rw [parse, parseexec]
      rw [if_neg (peek_false hall (by decide) (by decide)), peek_snd]
      refine (parseredirs_complete hr ((tokens_skip s p).trans hts) hend (by decide)).bind
        fun p₁ hp₁ => ?_
      exact parseargs_complete ha hp₁ hus (by rwa [Nat.zero_add])

/-! ### The parser ends -/

theorem bind_ne_more {α β : Type} {x : Run α} {g : α → Run β} (hx : x ≠ .error .more)
    (hg : ∀ a, x = .ok a → g a ≠ .error .more) : x >>= g ≠ .error .more := by
  cases x with
  | error e => exact fun h => hx (by injection h with h; rw [h])
  | ok a => exact hg a rfl

theorem length_lt_of_ret (h : (gettoken s p).1.ret ≠ 0) :
    (tokens s (gettoken s p).2).length < (tokens s p).length := by
  rw [tokens_cons h, List.length_cons]
  exact Nat.lt_succ_self _

theorem length_lt_of_peek (h : (peek s p toks).1 = true) (hp : toks ⊆ plain) :
    (tokens s (gettoken s p).2).length < (tokens s p).length :=
  length_lt_of_ret fun h0 => absurd (h0 ▸ hp (Passed.peek h hp).1) (by decide)

theorem parseredirs_ends (h : (tokens s p).length < fuel) :
    parseredirs fuel s c p ≠ .error .more := by
  induction fuel generalizing c p with
  | zero => exact absurd h (Nat.not_lt_zero _)
  | succ fuel ih =>
    rw [parseredirs]
    dsimp only
    rw [peek_snd, gettoken_skip]
    split_ifs with hp hf
    · simp
    · have hop := peek_redirection.mp hp
      have hlt := length_lt_of_ret (s := s) (p := p) fun h0 => absurd (h0 ▸ hop) (by decide)
      have hlt' := length_lt_of_ret (s := s) (p := (gettoken s p).2) fun h0 => hf (by rw [h0]; decide)
      exact ih (by omega)
    · simp

theorem parsebacks_ends (h : (tokens s p).length < fuel) :
    parsebacks fuel s c p ≠ .error .more := by
  induction fuel generalizing c p with
  | zero => exact absurd h (Nat.not_lt_zero _)
  | succ fuel ih =>
    rw [parsebacks]
    rw [peek_snd, gettoken_skip]
    split_ifs with hp
    · have hlt := length_lt_of_peek hp (by decide)
      exact ih (by omega)
    · simp

/-- The tokens that are left after a call. -/
theorem Passed.length {p' : ℕ} (h : Passed s p ts p') :
    (tokens s p').length ≤ (tokens s p).length := by
  rw [h.split, List.length_append]
  exact Nat.le_add_left _ _

theorem parseargs_ends (h : (tokens s p).length < fuel) :
    parseargs fuel s c argc p ≠ .error .more := by
  induction fuel generalizing c argc p with
  | zero => exact absurd h (Nat.not_lt_zero _)
  | succ fuel ih =>
    rw [parseargs]
    dsimp only
    rw [peek_snd, gettoken_skip]
    split_ifs with hp h0 ha hmax
    · simp
    · simp
    · simp
    · simp
    · have hlt := length_lt_of_ret h0
      refine bind_ne_more (parseredirs_ends (by omega)) fun r hr => ?_
      obtain ⟨us, rs, -, hus, -⟩ := parseredirs_sound (show _ = Except.ok (r.1, r.2) from hr)
      have hle := hus.length
      exact ih (by omega)

/-- The calls between a function and the next parenthesis. -/
def rank : Sym → ℕ
  | .line => 4
  | .pipe => 3
  | .exec => 2

theorem parse_left {n : Sym} {r : Cmd × ℕ} (h : parse n fuel s p = .ok r) :
    (tokens s r.2).length ≤ (tokens s p).length := by
  obtain ⟨ts, -, hts⟩ := parse_sound s n fuel h
  exact hts.length

theorem parse_ends {n : Sym} (h : 4 * (tokens s p).length + rank n ≤ fuel) :
    parse n fuel s p ≠ .error .more := by
  induction fuel using Nat.strong_induction_on generalizing n p with
  | _ fuel ih =>
  cases n with
  | line =>
    obtain ⟨fuel, rfl⟩ : ∃ f, fuel = f + 1 := ⟨fuel - 1, by rw [rank] at h; omega⟩
    rw [rank] at h
    rw [parse, parseline]
    refine bind_ne_more (ih fuel (by omega) (n := .pipe) (by rw [rank]; omega)) fun r hr => ?_
    have hr' := parse_left (n := .pipe) hr
    refine bind_ne_more (parsebacks_ends (by omega)) fun b hb => ?_
    obtain ⟨amps, -, hb', -⟩ := parsebacks_sound (show _ = Except.ok (b.1, b.2) from hb)
    have hle := hb'.length
    dsimp only
    rw [peek_snd, gettoken_skip]
    split_ifs with hp
    · have hlt := length_lt_of_peek hp (by decide)
      exact bind_ne_more (ih fuel (by omega) (n := .line) (by rw [rank]; omega))
        fun l _ h => by cases h
    · simp
  | pipe =>
    obtain ⟨fuel, rfl⟩ : ∃ f, fuel = f + 1 := ⟨fuel - 1, by rw [rank] at h; omega⟩
    rw [rank] at h
    rw [parse, parsepipe]
    refine bind_ne_more (ih fuel (by omega) (n := .exec) (by rw [rank]; omega)) fun r hr => ?_
    have hr' := parse_left (n := .exec) hr
    dsimp only
    rw [peek_snd, gettoken_skip]
    split_ifs with hp
    · have hlt := length_lt_of_peek hp (by decide)
      exact bind_ne_more (ih fuel (by omega) (n := .pipe) (by rw [rank]; omega))
        fun l _ h => by cases h
    · simp
  | exec =>
    obtain ⟨fuel, rfl⟩ : ∃ f, fuel = f + 2 := ⟨fuel - 2, by rw [rank] at h; omega⟩
    rw [rank] at h
    rw [parse, parseexec]
    rw [peek_snd]
    split_ifs with hp
    · have hlt := length_lt_of_peek hp (by decide)
      rw [parseblock]
      rw [peek_snd, skip_skip, gettoken_skip]
      split_ifs with hp'
      · refine bind_ne_more (ih fuel (by omega) (n := .line) (by rw [rank]; omega))
          fun r hr => ?_
        have hr' := parse_left (n := .line) hr
        dsimp only
        rw [peek_snd, gettoken_skip]
        split_ifs with hq
        · have hlt' := length_lt_of_peek hq (by decide)
          exact parseredirs_ends (by omega)
        · simp
      · simp
    · refine bind_ne_more (parseredirs_ends (by rw [tokens_skip]; omega)) fun r hr => ?_
      obtain ⟨us, rs, -, hus, -⟩ := parseredirs_sound (show _ = Except.ok (r.1, r.2) from hr)
      have hle := hus.of_skip.length
      exact parseargs_ends (by omega)

/-- The parser ends, it returns if and only if the tokens are derived from a line, with the tree of
    the derivation, and there is nothing but whitespace between the tokens. -/
theorem parsecmd_iff (s : CString) : ∃ enough, ∀ fuel ≥ enough,
    ((∃ cmd buf, parsecmd fuel s = .ok (cmd, buf)) ∨
      ∃ msg, parsecmd fuel s = .error (.panic msg)) ∧
    (∀ cmd, (∃ buf, parsecmd fuel s = .ok (cmd, buf)) ↔ Derives .line (tokens s 0) cmd) ∧
    ∀ i < s.chars.length,
      char s i ∈ whitespace ∨ ∃ t ∈ tokens s 0, t.q ≤ i ∧ i < t.eq := by
  refine ⟨4 * (tokens s 0).length + rank .line, fun fuel hfuel => ⟨?_, fun cmd => ⟨?_, ?_⟩, ?_⟩⟩
  · have hends : parsecmd fuel s ≠ .error .more := by
      refine bind_ne_more (parse_ends (n := .line) hfuel) fun r hr => ?_
      dsimp only
      split_ifs
      · simp
      · simp
    match h : parsecmd fuel s with
    | .ok (cmd, buf) => exact .inl ⟨cmd, buf, rfl⟩
    | .error (.panic msg) => exact .inr ⟨msg, rfl⟩
    | .error .more => exact absurd h hends
  · rintro ⟨buf, h⟩
    exact (parsecmd_sound h).1
  · intro h
    refine ⟨nulterminate cmd (s.chars ++ [0]), ?_⟩
    have hts : tokens s 0 = tokens s 0 ++ [] := (List.append_nil _).symm
    have hparse : Returns (parse .line fuel s 0) s cmd [] := parse_complete h hts starts_nil
    rcases hparse with hmore | ⟨p, hp, hnil⟩
    · exact absurd hmore (parse_ends hfuel)
    · obtain ⟨_, -, ⟨-, hle⟩⟩ := parse_sound s .line fuel hp
      have hlen : s.chars.length = skip s p :=
        le_antisymm (tokens_eq_nil.mp hnil) (skip_le (hle (Nat.zero_le _)))
      change parseline fuel s 0 = _ at hp
      rw [parsecmd, hp]
      exact if_neg (not_not.mpr hlen.symm)
  · intro i hi
    exact tokens_cover (Nat.zero_le i) hi

end

end Xv6.Shell
