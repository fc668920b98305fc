import Xv6.Shell.Parser
import Mathlib.Order.Nat
import Mathlib.Tactic.ByContra
import Mathlib.Tactic.SplitIfs

/-! @src sh.c | name:The tokens of a command line | layer:proof

    A line is read as the tokens that `gettoken` returns one after the other. `peek` sees the first
    character of the next token, which tells the token apart except for `>` and `>>`. -/

namespace Xv6.Shell
open Xv6.Schemes

section

variable {f : Byte → Bool} {t toks : List Byte} {s : CString} {p i : ℕ} {c : Byte}

/-! ### Scanning -/

theorem le_scan (f : Byte → Bool) (t : List Byte) (p : ℕ) : p ≤ scan f t p := by
  induction t generalizing p with
  | nil => exact le_refl p
  | cons c t ih =>
    rw [scan]
    split_ifs
    · exact (Nat.le_succ p).trans (ih (p + 1))
    · exact le_refl p

theorem scan_le (f : Byte → Bool) (t : List Byte) (p : ℕ) : scan f t p ≤ p + t.length := by
  induction t generalizing p with
  | nil => exact le_refl p
  | cons c t ih =>
    have hih := ih (p + 1)
    rw [scan, List.length_cons]
    split_ifs <;> omega

/-- The characters that are passed are in the class. -/
theorem scan_passes (hp : p ≤ i) (hi : i < scan f t p) : f (t.getD (i - p) 0) = true := by
  induction t generalizing p with
  | nil => exact absurd hi (by rw [scan]; omega)
  | cons c t ih =>
    rw [scan] at hi
    split_ifs at hi with hc
    · rcases Nat.eq_or_lt_of_le hp with rfl | hlt
      · rw [Nat.sub_self]
        exact hc
      · have hih := ih hlt hi
        rwa [show i - p = i - (p + 1) + 1 by omega]
    · omega

/-- The character that is not passed is not in the class. -/
theorem scan_stops (h : scan f t p < p + t.length) : f (t.getD (scan f t p - p) 0) = false := by
  induction t generalizing p with
  | nil => exact absurd h (lt_irrefl p)
  | cons c t ih =>
    rw [scan] at h ⊢
    split_ifs at h ⊢ with hc
    · have hle := le_scan f t (p + 1)
      have hih := ih (show scan f t (p + 1) < p + 1 + t.length by rw [List.length_cons] at h; omega)
      rwa [show scan f t (p + 1) - p = scan f t (p + 1) - (p + 1) + 1 by omega]
    · rw [Nat.sub_self]
      exact Bool.eq_false_iff.mpr hc

theorem char_drop (h : p ≤ i) : (s.chars.drop p).getD (i - p) 0 = char s i := by
  rw [char, List.getD_eq_getElem?_getD, List.getElem?_drop, Nat.add_sub_cancel' h,
    List.getD_eq_getElem?_getD]

theorem char_eq_zero : char s p = 0 ↔ s.chars.length ≤ p := by
  constructor
  · intro h
    by_contra hlt
    have hmem : char s p ∈ s.chars := by
      rw [char, List.getD_eq_getElem _ _ (not_le.mp hlt)]
      exact List.getElem_mem _
    exact s.nul (h ▸ hmem)
  · intro h
    exact List.getD_eq_default _ _ h

theorem not_strchr_zero (h : (0 : Byte) ∉ toks) : strchr toks 0 = false := decide_eq_false h

/-- The cursor after a scan from `p`. -/
theorem scan_spec (f : Byte → Bool) (hp : p ≤ s.chars.length) :
    p ≤ scan f (s.chars.drop p) p ∧ scan f (s.chars.drop p) p ≤ s.chars.length ∧
      (∀ i, p ≤ i → i < scan f (s.chars.drop p) p → f (char s i) = true) ∧
      (scan f (s.chars.drop p) p < s.chars.length →
        f (char s (scan f (s.chars.drop p) p)) = false) := by
  have hlen : p + (s.chars.drop p).length = s.chars.length := by
    rw [List.length_drop]
    omega
  have hle := le_scan f (s.chars.drop p) p
  refine ⟨hle, hlen ▸ scan_le f _ p, fun i hpi hi => ?_, fun h => ?_⟩
  · rw [← char_drop hpi]
    exact scan_passes hpi hi
  · rw [← char_drop hle]
    exact scan_stops (hlen.symm ▸ h)

theorem scan_end (f : Byte → Bool) (hp : s.chars.length ≤ p) : scan f (s.chars.drop p) p = p := by
  rw [List.drop_eq_nil_of_le hp]
  rfl

theorem le_skip (s : CString) (p : ℕ) : p ≤ skip s p := le_scan _ _ _

theorem skip_le (hp : p ≤ s.chars.length) : skip s p ≤ s.chars.length := (scan_spec _ hp).2.1

/-- The cursor after `skip` is at no whitespace. -/
theorem skip_stops (s : CString) (p : ℕ) : strchr whitespace (char s (skip s p)) = false := by
  by_cases hp : skip s p < s.chars.length
  · exact (scan_spec _ ((le_skip s p).trans hp.le)).2.2.2 hp
  · rw [char_eq_zero.mpr (not_lt.mp hp)]
    exact not_strchr_zero (by decide)

theorem skip_of_not (h : strchr whitespace (char s p) = false) : skip s p = p := by
  rcases Nat.lt_or_ge p s.chars.length with hp | hp
  · obtain ⟨hle, -, hin, -⟩ := scan_spec (s := s) (strchr whitespace) hp.le
    by_contra hne
    have hlt : p < skip s p := lt_of_le_of_ne hle (Ne.symm hne)
    exact absurd (hin p (le_refl p) hlt) (by rw [h]; exact Bool.false_ne_true)
  · exact scan_end _ hp

@[simp] theorem skip_skip (s : CString) (p : ℕ) : skip s (skip s p) = skip s p :=
  skip_of_not (skip_stops s p)

/-! ### The next token -/

theorem gettoken_fst (s : CString) (p : ℕ) : (gettoken s p).1 = lexeme s (skip s p) := rfl

theorem gettoken_snd (s : CString) (p : ℕ) :
    (gettoken s p).2 = skip s (gettoken s p).1.eq := rfl

@[simp] theorem gettoken_skip (s : CString) (p : ℕ) : gettoken s (skip s p) = gettoken s p := by
  rw [gettoken, skip_skip, gettoken]

@[simp] theorem peek_snd (s : CString) (p : ℕ) (toks : List Byte) :
    (peek s p toks).2 = skip s p := rfl

theorem peek_fst : (peek s p toks).1 = true ↔
    char s (skip s p) ≠ 0 ∧ char s (skip s p) ∈ toks := by
  rw [peek, Bool.and_eq_true, decide_eq_true_iff, strchr, decide_eq_true_iff]

/-- The symbols of one character that begin no other token. -/
def plain : List Byte := [ascii '|', ascii '(', ascii ')', ascii ';', ascii '&']

/-- What `gettoken` returns for `<`, `>` and `>>`. -/
def redirections : List Byte := [ascii '<', ascii '>', ascii '+']

theorem lexeme_ret_eq_zero (s : CString) (p : ℕ) : (lexeme s p).ret = 0 ↔ char s p = 0 := by
  unfold lexeme
  split_ifs with h0 hm hg hgg
  · exact Iff.rfl
  · exact Iff.rfl
  · exact iff_of_false (show ascii '+' ≠ 0 by decide) h0
  · exact Iff.rfl
  · exact iff_of_false (show ascii 'a' ≠ 0 by decide) h0

theorem lexeme_ret_plain (h : c ∈ plain) : (lexeme s p).ret = c ↔ char s p = c := by
  have h0 : c ≠ 0 := fun he => absurd (he ▸ h) (by decide)
  have hg : c ≠ ascii '>' := fun he => absurd (he ▸ h) (by decide)
  have hp : c ≠ ascii '+' := fun he => absurd (he ▸ h) (by decide)
  have ha : c ≠ ascii 'a' := fun he => absurd (he ▸ h) (by decide)
  unfold lexeme
  split_ifs with hz hm hgt hgg
  · exact Iff.rfl
  · exact Iff.rfl
  · exact iff_of_false hp.symm (hgt ▸ hg.symm)
  · exact Iff.rfl
  · refine iff_of_false ha.symm fun he => hm ?_
    rw [he]
    exact (by decide : plain ⊆ _) h

theorem lexeme_ret_redirection :
    (lexeme s p).ret ∈ redirections ↔ char s p ∈ [ascii '<', ascii '>'] := by
  unfold lexeme
  split_ifs with hz hm hgt hgg
  · rw [hz]
    exact iff_of_false (show (0 : Byte) ∉ redirections by decide) (by decide)
  · have hne : char s p ≠ ascii '>' := fun he => absurd (he ▸ hm) (by decide)
    have hnp : char s p ≠ ascii '+' := fun he => absurd (he ▸ hm) (by decide)
    simp [redirections, hne, hnp]
  · rw [hgt]
    exact iff_of_true (show ascii '+' ∈ redirections by decide) (by decide)
  · rw [hgt]
    exact iff_of_true (show ascii '>' ∈ redirections by decide) (by decide)
  · refine iff_of_false (show ascii 'a' ∉ redirections by decide) fun he => ?_
    rcases List.mem_cons.mp he with he | he
    · exact hm (by rw [he]; decide)
    · exact hgt (List.mem_singleton.mp he)

/-- `peek` for symbols that `gettoken` returns as they are. -/
theorem peek_plain (h : toks ⊆ plain) :
    (peek s p toks).1 = true ↔ (gettoken s p).1.ret ∈ toks := by
  rw [peek_fst, gettoken_fst]
  constructor
  · rintro ⟨-, hc⟩
    rwa [(lexeme_ret_plain (h hc)).mpr rfl]
  · intro hc
    have he := (lexeme_ret_plain (h hc)).mp rfl
    rw [he]
    exact ⟨fun h0 => absurd (h0 ▸ h hc) (by decide), hc⟩

theorem peek_redirection :
    (peek s p [ascii '<', ascii '>']).1 = true ↔ (gettoken s p).1.ret ∈ redirections := by
  rw [peek_fst, gettoken_fst, lexeme_ret_redirection, and_iff_right_of_imp]
  intro hc h0
  exact absurd (h0 ▸ hc) (by decide)

/-- A token of a word: as many characters of a word as follow each other. -/
structure IsWord (s : CString) (t : Token) : Prop where
  lt : t.q < t.eq
  le : t.eq ≤ s.chars.length
  chars : ∀ i, t.q ≤ i → i < t.eq → inWord (char s i) = true
  stop : inWord (char s t.eq) = false ∨ char s t.eq = 0

theorem inWord_iff : inWord c = true ↔ c ∉ whitespace ∧ c ∉ symbols := by
  simp [inWord, strchr]

/-- A character that begins no other token is one of a word. -/
theorem inWord_of_ret (h : (gettoken s p).1.ret = ascii 'a') :
    inWord (char s (skip s p)) = true := by
  have hz : char s (skip s p) ≠ 0 := by
    rw [Ne, ← lexeme_ret_eq_zero, ← gettoken_fst, h]
    decide
  refine inWord_iff.mpr ⟨of_decide_eq_false (skip_stops s p), fun hmem => ?_⟩
  by_cases hp : char s (skip s p) ∈ plain
  · have hr := (lexeme_ret_plain hp).mpr rfl
    rw [← gettoken_fst, h] at hr
    exact absurd (hr ▸ hp) (by decide)
  · have hrest : char s (skip s p) ∈ [ascii '<', ascii '>'] := by
      have hsub : ∀ c ∈ symbols, c ∉ plain → c ∈ [ascii '<', ascii '>'] := by decide
      exact hsub _ hmem hp
    have hr := lexeme_ret_redirection.mpr hrest
    rw [← gettoken_fst, h] at hr
    exact absurd hr (by decide)

theorem lexeme_word (h : (lexeme s p).ret = ascii 'a') (hz : inWord (char s p) = true) :
    lexeme s p = ⟨ascii 'a', p, word s p⟩ := by
  obtain ⟨-, hs⟩ := inWord_iff.mp hz
  have hm : char s p ∉ [ascii '|', ascii '(', ascii ')', ascii ';', ascii '&', ascii '<'] :=
    fun hm => hs ((by decide : _ ⊆ symbols) hm)
  have hg : char s p ≠ ascii '>' := fun hg => hs (by rw [hg]; decide)
  have h0 : char s p ≠ 0 := by
    rw [Ne, ← lexeme_ret_eq_zero, h]
    decide
  rw [lexeme, if_neg h0, if_neg hm, if_neg hg]

theorem isWord_of_ret (h : (gettoken s p).1.ret = ascii 'a') : IsWord s (gettoken s p).1 := by
  have hin := inWord_of_ret h
  have hz : skip s p < s.chars.length := by
    rw [← not_le, ← char_eq_zero, ← lexeme_ret_eq_zero, ← gettoken_fst, h]
    decide
  rw [gettoken_fst] at h ⊢
  rw [lexeme_word h hin]
  obtain ⟨hle, hlen, hpass, hstop⟩ := scan_spec (s := s) inWord hz.le
  refine ⟨lt_of_le_of_ne hle fun (he : skip s p = word s (skip s p)) => ?_, hlen, hpass, ?_⟩
  · change word s (skip s p) < s.chars.length → inWord (char s (word s (skip s p))) = false at hstop
    rw [← he, hin] at hstop
    exact absurd (hstop hz) (by decide)
  · rcases Nat.lt_or_ge (word s (skip s p)) s.chars.length with hlt | hge
    · exact .inl (hstop hlt)
    · exact .inr (char_eq_zero.mpr hge)

theorem gettoken_q (s : CString) (p : ℕ) : (gettoken s p).1.q = skip s p := by
  rw [gettoken_fst]
  unfold lexeme
  split_ifs <;> rfl

/-- A token has characters, unless the line is at its end. -/
theorem gettoken_eq (h : (gettoken s p).1.ret ≠ 0) :
    skip s p < (gettoken s p).1.eq ∧ (gettoken s p).1.eq ≤ s.chars.length := by
  have hz : skip s p < s.chars.length := by
    rwa [← not_le, ← char_eq_zero, ← lexeme_ret_eq_zero, ← gettoken_fst]
  by_cases ha : (gettoken s p).1.ret = ascii 'a'
  · have hw := isWord_of_ret ha
    exact ⟨gettoken_q s p ▸ hw.lt, hw.le⟩
  · rw [gettoken_fst] at ha h ⊢
    unfold lexeme at ha h ⊢
    split_ifs at ha h ⊢ with h0 hm hg hgg
    · exact absurd h0 h
    · exact ⟨Nat.lt_succ_self _, hz⟩
    · refine ⟨by simp, ?_⟩
      have hlt : skip s p + 1 < s.chars.length := by
        rw [← not_le, ← char_eq_zero, hgg]
        decide
      exact hlt
    · exact ⟨Nat.lt_succ_self _, hz⟩
    · exact absurd rfl ha

theorem gettoken_lt (h : (gettoken s p).1.ret ≠ 0) :
    p < (gettoken s p).2 ∧ (gettoken s p).2 ≤ s.chars.length := by
  obtain ⟨hlt, hle⟩ := gettoken_eq h
  rw [gettoken_snd]
  exact ⟨(le_skip s p).trans_lt (hlt.trans_le (le_skip _ _)), skip_le hle⟩

end

/-! ### The tokens from a cursor -/

/-- What `gettoken` returns until the end of the line. -/
def tokens (s : CString) (p : ℕ) : List Token :=
  if _h : (gettoken s p).1.ret = 0 then []
  else (gettoken s p).1 :: tokens s (gettoken s p).2
termination_by s.chars.length - p
decreasing_by
  obtain ⟨hlt, hle⟩ := gettoken_lt _h
  omega

section

variable {s : CString} {p i : ℕ} {t : Token} {ts : List Token}

theorem tokens_nil (h : (gettoken s p).1.ret = 0) : tokens s p = [] := by rw [tokens, dif_pos h]

theorem tokens_cons (h : (gettoken s p).1.ret ≠ 0) :
    tokens s p = (gettoken s p).1 :: tokens s (gettoken s p).2 := by
  rw [tokens, dif_neg h]

@[simp] theorem tokens_skip (s : CString) (p : ℕ) : tokens s (skip s p) = tokens s p := by
  rw [tokens, gettoken_skip, ← tokens]

theorem gettoken_of_tokens (h : tokens s p = t :: ts) :
    (gettoken s p).1 = t ∧ tokens s (gettoken s p).2 = ts ∧ t.ret ≠ 0 := by
  by_cases hr : (gettoken s p).1.ret = 0
  · rw [tokens_nil hr] at h
    exact absurd h.symm (List.cons_ne_nil t ts)
  · rw [tokens_cons hr] at h
    obtain ⟨rfl, rfl⟩ := List.cons.inj h
    exact ⟨rfl, rfl, hr⟩

theorem gettoken_of_nil (h : tokens s p = []) : (gettoken s p).1.ret = 0 := by
  by_contra hr
  rw [tokens_cons hr] at h
  exact List.cons_ne_nil _ _ h

theorem tokens_eq_nil : tokens s p = [] ↔ s.chars.length ≤ skip s p := by
  rw [← char_eq_zero, ← lexeme_ret_eq_zero, ← gettoken_fst]
  exact ⟨gettoken_of_nil, tokens_nil⟩

/-- What holds of every token that `gettoken` returns holds of the tokens of the line. -/
theorem tokens_forall {P : Token → Prop}
    (h : ∀ p, (gettoken s p).1.ret ≠ 0 → P (gettoken s p).1) (p : ℕ) : ∀ t ∈ tokens s p, P t := by
  induction p using tokens.induct (s := s) with
  | case1 p hr =>
    rw [tokens_nil hr]
    exact fun t ht => absurd ht List.not_mem_nil
  | case2 p hr ih =>
    rw [tokens_cons hr]
    exact List.forall_mem_cons.mpr ⟨h p hr, ih⟩

/-- The tokens of words. -/
theorem isWord_of_mem (ht : t ∈ tokens s p) (ha : t.ret = ascii 'a') : IsWord s t :=
  tokens_forall (P := fun t => t.ret = ascii 'a' → IsWord s t) (fun _ _ => isWord_of_ret) p t ht ha

/-- A character after the cursor is whitespace or belongs to a token. -/
theorem tokens_cover (hp : p ≤ i) (hi : i < s.chars.length) :
    char s i ∈ whitespace ∨ ∃ t ∈ tokens s p, t.q ≤ i ∧ i < t.eq := by
  have hws : ∀ p, p ≤ i → i < skip s p → char s i ∈ whitespace := fun p hp hlt =>
    of_decide_eq_true ((scan_spec (s := s) (strchr whitespace) (hp.trans hi.le)).2.2.1 i hp hlt)
  induction p using tokens.induct (s := s) with
  | case1 p hr =>
    have hle := tokens_eq_nil.mp (tokens_nil hr)
    exact .inl (hws p hp (hi.trans_le hle))
  | case2 p hr ih =>
    rw [tokens_cons hr]
    rcases Nat.lt_or_ge i (skip s p) with hlt | hge
    · exact .inl (hws p hp hlt)
    · rcases Nat.lt_or_ge i (gettoken s p).1.eq with hlt | hge'
      · exact .inr ⟨_, List.mem_cons_self, by rwa [gettoken_q], hlt⟩
      · rcases Nat.lt_or_ge i (gettoken s p).2 with hlt | hge''
        · exact .inl (hws _ hge' (by rwa [← gettoken_snd]))
        · refine (ih hge'').imp_right ?_
          rintro ⟨t, ht, hti⟩
          exact ⟨t, List.mem_cons_of_mem _ ht, hti⟩

end

end Xv6.Shell
