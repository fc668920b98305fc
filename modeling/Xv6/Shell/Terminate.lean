import Xv6.Shell.Grammar
import Mathlib.Data.List.TakeWhile

/-! @src sh.c | name:NUL-terminated words | layer:proof

    A word ends where its token ends: at whitespace, at a symbol or at the end of the line. No character
    of a word is one of these, so that no store of `nulterminate` is into a word. -/

namespace Xv6.Shell
open Xv6.Schemes

/-- The words of the simple commands and the files of the redirections. -/
def Cmd.words : Cmd → List (ℕ × ℕ)
  | .exec argv => argv
  | .redir cmd file efile _ _ => cmd.words ++ [(file, efile)]
  | .pipe left right => left.words ++ right.words
  | .list left right => left.words ++ right.words
  | .back cmd => cmd.words

/-- The characters between the two pointers of a word. -/
def text (s : CString) (w : ℕ × ℕ) : List Byte := (s.chars.drop w.1).take (w.2 - w.1)

/-- The string in the buffer at a pointer. -/
def cstring (buf : List Byte) (p : ℕ) : List Byte := (buf.drop p).takeWhile (· ≠ 0)

/-- Whitespace, a symbol or the NUL of the line, and in no word. -/
structure Separator (s : CString) (i : ℕ) : Prop where
  char : char s i ∈ whitespace ∨ char s i ∈ symbols ∨ i = s.chars.length
  apart : ∀ t ∈ tokens s 0, t.ret = ascii 'a' → ¬ (t.q ≤ i ∧ i < t.eq)

/-- The command's words are words of the line, each NUL-terminated in the buffer, and the buffer
    differs from the line in separators only. -/
structure Terminated (s : CString) (cmd : Cmd) (buf : List Byte) : Prop where
  length : buf.length = s.chars.length + 1
  token : ∀ w ∈ cmd.words, ∃ t ∈ tokens s 0, t.ret = ascii 'a' ∧ w = t.range
  string : ∀ w ∈ cmd.words, cstring buf w.1 = text s w ∧ buf[w.2]? = some 0
  separator : ∀ w ∈ cmd.words, Separator s w.2
  changed : ∀ i, buf[i]? ≠ (s.chars ++ [0])[i]? → Separator s i

section

variable {s : CString} {n : Sym} {fuel i : ℕ} {ts ws : List Token} {rs : List (Token × Token)}
  {t : Token} {c cmd : Cmd} {w : ℕ × ℕ} {buf : List Byte}

/-! ### The words of a derivation -/

/-- A word among the tokens. -/
def WordOf (ts : List Token) (w : ℕ × ℕ) : Prop := ∃ t ∈ ts, t.ret = ascii 'a' ∧ w = t.range

theorem WordOf.mono {us : List Token} (h : WordOf ts w) (hsub : ts ⊆ us) : WordOf us w := by
  obtain ⟨t, ht, ha⟩ := h
  exact ⟨t, hsub ht, ha⟩

theorem Redirs.files (h : Redirs ts rs) : ∀ r ∈ rs, WordOf ts r.2.range := by
  induction h with
  | nil => exact List.forall_mem_nil _
  | @cons op file ts rs hop hfile h ih =>
    refine List.forall_mem_cons.mpr ⟨⟨file, by simp, hfile, rfl⟩, fun r hr => ?_⟩
    exact (ih r hr).mono fun t ht => List.mem_cons_of_mem _ (List.mem_cons_of_mem _ ht)

theorem Args.words (h : Args ts ws rs) :
    (∀ w ∈ ws, WordOf ts w.range) ∧ ∀ r ∈ rs, WordOf ts r.2.range := by
  induction h with
  | nil => exact ⟨List.forall_mem_nil _, List.forall_mem_nil _⟩
  | @cons w us rs ts ws rs' hw hr h ih =>
    have hts : ts ⊆ w :: (us ++ ts) := by simp
    have hus : us ⊆ w :: (us ++ ts) := fun t ht => by simp [ht]
    refine ⟨List.forall_mem_cons.mpr ⟨⟨w, List.mem_cons_self, hw, rfl⟩, fun v hv => ?_⟩, ?_⟩
    · exact (ih.1 v hv).mono hts
    · intro r hmem
      rcases List.mem_append.mp hmem with hmem | hmem
      · exact (hr.files r hmem).mono hus
      · exact (ih.2 r hmem).mono hts

theorem words_redirect {tok : Byte} (h : w ∈ (redirect tok c t).words) :
    w ∈ c.words ∨ w = t.range := by
  unfold redirect at h
  split_ifs at h
  · exact (List.mem_append.mp h).imp_right List.mem_singleton.mp
  · exact (List.mem_append.mp h).imp_right List.mem_singleton.mp
  · exact (List.mem_append.mp h).imp_right List.mem_singleton.mp
  · exact .inl h

theorem words_wrap (h : w ∈ (wrap rs c).words) : w ∈ c.words ∨ ∃ r ∈ rs, w = r.2.range := by
  induction rs generalizing c with
  | nil => exact .inl h
  | cons r rs ih =>
    rcases ih h with h | ⟨r', hr', rfl⟩
    · refine (words_redirect h).imp_right fun hw => ⟨r, List.mem_cons_self, hw⟩
    · exact .inr ⟨r', List.mem_cons_of_mem _ hr', rfl⟩

theorem words_backs (amps : List Token) (c : Cmd) : (backs amps c).words = c.words := by
  induction amps generalizing c with
  | nil => rfl
  | cons t amps ih => exact ih (.back c)

/-- The words of the tree are words among its tokens. -/
theorem Derives.words (h : Derives n ts c) : ∀ w ∈ c.words, WordOf ts w := by
  induction h with
  | @last ts c amps hp hamps ih =>
    intro w hw
    rw [words_backs] at hw
    exact (ih w hw).mono (List.subset_append_left _ _)
  | @list ts c amps semi us d hp hamps hsemi hl ihp ihl =>
    intro w hw
    rcases List.mem_append.mp hw with hw | hw
    · rw [words_backs] at hw
      exact (ihp w hw).mono fun t ht => by simp [ht]
    · exact (ihl w hw).mono fun t ht => by simp [ht]
  | single he ih => exact ih
  | @pipe ts c bar us d he hbar hp ihe ihp =>
    intro w hw
    rcases List.mem_append.mp hw with hw | hw
    · exact (ihe w hw).mono (List.subset_append_left _ _)
    · exact (ihp w hw).mono fun t ht => by simp [ht]
  | @block lparen ts c rparen us rs hlparen hl hrparen hr ih =>
    intro w hw
    rcases words_wrap hw with hw | ⟨r, hmem, rfl⟩
    · exact (ih w hw).mono fun t ht => by simp [ht]
    · exact (hr.files r hmem).mono fun t ht => by simp [ht]
  | @simple us rs ts ws rs' hr ha hargs =>
    intro w hw
    rcases words_wrap hw with hw | ⟨r, hmem, rfl⟩
    · obtain ⟨v, hv, rfl⟩ := List.mem_map.mp hw
      exact (ha.words.1 v hv).mono (List.subset_append_right _ _)
    · rcases List.mem_append.mp hmem with hmem | hmem
      · exact (hr.files r hmem).mono (List.subset_append_left _ _)
      · exact (ha.words.2 r hmem).mono (List.subset_append_right _ _)

/-! ### The stores -/

/-- The stores of `nulterminate` are to the ends of the words. -/
theorem nulterminate_eq (c : Cmd) (buf : List Byte) :
    nulterminate c buf = c.words.foldlM (fun buf w => put buf w.2) buf := by
  induction c generalizing buf with
  | exec argv => rfl
  | redir c file efile mode fd ih =>
    rw [nulterminate, ih, Cmd.words, List.foldlM_append]
    simp
  | pipe left right ihl ihr =>
    rw [nulterminate, ihl, Cmd.words, List.foldlM_append]
    exact Option.bind_congr fun buf' _ => ihr buf'
  | list left right ihl ihr =>
    rw [nulterminate, ihl, Cmd.words, List.foldlM_append]
    exact Option.bind_congr fun buf' _ => ihr buf'
  | back c ih => exact ih buf

/-- The buffer after the stores, all of them inside it. -/
theorem foldlM_put (words : List (ℕ × ℕ)) (h : ∀ w ∈ words, w.2 < buf.length) :
    ∃ buf', words.foldlM (fun buf w => put buf w.2) buf = some buf' ∧ buf'.length = buf.length ∧
      ∀ i, i < buf.length → buf'[i]? = if i ∈ words.map Prod.snd then some 0 else buf[i]? := by
  induction words generalizing buf with
  | nil => exact ⟨buf, rfl, rfl, fun i _ => by simp⟩
  | cons w words ih =>
    obtain ⟨hw, hwords⟩ := List.forall_mem_cons.mp h
    have hlen : (buf.set w.2 0).length = buf.length := List.length_set
    obtain ⟨buf', hfold, hlen', hget⟩ := @ih (buf.set w.2 0) (by rwa [hlen])
    refine ⟨buf', ?_, hlen'.trans hlen, fun i hi => ?_⟩
    · rw [List.foldlM_cons, put, if_pos hw]
      exact hfold
    · rw [hget i (hlen.symm ▸ hi), List.map_cons]
      by_cases hmem : i ∈ words.map Prod.snd
      · rw [if_pos hmem, if_pos (List.mem_cons_of_mem _ hmem)]
      · rw [if_neg hmem, List.getElem?_set]
        by_cases hiw : w.2 = i
        · rw [if_pos hiw, if_pos hw, if_pos (hiw ▸ List.mem_cons_self)]
        · rw [if_neg hiw, if_neg (by simp [Ne.symm hiw, hmem])]

/-! ### Separators -/

/-- The end of a word is no character of another one. -/
theorem IsWord.separator {t : Token} (h : IsWord s t) : Separator s t.eq := by
  have hsep : Xv6.Shell.char s t.eq ∈ whitespace ∨ Xv6.Shell.char s t.eq ∈ symbols ∨
      t.eq = s.chars.length := by
    rcases h.stop with hs | hs
    · rw [Bool.eq_false_iff, Ne, inWord_iff, not_and_or, not_not, not_not] at hs
      exact hs.imp_right .inl
    · exact .inr (.inr (le_antisymm h.le (char_eq_zero.mp hs)))
  refine ⟨hsep, fun t' ht' ha hin => ?_⟩
  have hw := isWord_of_mem ht' ha
  obtain ⟨hnw, hns⟩ := inWord_iff.mp (hw.chars _ hin.1 hin.2)
  have hlt := hw.le
  rcases hsep with hm | hm | hm
  · exact hnw hm
  · exact hns hm
  · omega

theorem getElem?_line (hi : i < s.chars.length) : (s.chars ++ [0])[i]? = some (char s i) := by
  rw [List.getElem?_append_left hi, char, List.getD_eq_getElem _ _ hi, List.getElem?_eq_getElem hi]

/-- A word whose characters are as in the line and whose end is NUL. -/
theorem cstring_of_word (h : IsWord s t)
    (hchars : ∀ i, t.q ≤ i → i < t.eq → buf[i]? = some (char s i)) (hend : buf[t.eq]? = some 0) :
    cstring buf t.q = text s t.range := by
  have hq := h.lt
  have hle := h.le
  have hdrop : buf.drop t.q = text s t.range ++ 0 :: buf.drop (t.eq + 1) := by
    have hz : buf.drop t.eq = 0 :: buf.drop (t.eq + 1) := by
      obtain ⟨hlt, hget⟩ := List.getElem?_eq_some_iff.mp hend
      rw [List.drop_eq_getElem_cons hlt, hget]
    have htake : (buf.drop t.q).take (t.eq - t.q) = text s t.range := by
      refine List.ext_getElem? fun k => ?_
      by_cases hk : k < t.eq - t.q
      · have hki : t.q + k < s.chars.length := by omega
        rw [text, Token.range, List.getElem?_take_of_lt hk, List.getElem?_take_of_lt hk,
          List.getElem?_drop, List.getElem?_drop, hchars (t.q + k) (by omega) (by omega), char,
          List.getD_eq_getElem _ _ hki, List.getElem?_eq_getElem hki]
      · rw [text, Token.range, List.getElem?_take_eq_none (not_lt.mp hk),
          List.getElem?_take_eq_none (not_lt.mp hk)]
    have hsplit := List.take_append_drop (t.eq - t.q) (buf.drop t.q)
    rw [List.drop_drop, Nat.add_sub_cancel' hq.le, htake, hz] at hsplit
    exact hsplit.symm
  have hall : ∀ c ∈ text s t.range, (decide (c ≠ 0)) = true := fun c hc =>
    decide_eq_true fun h0 => s.nul (h0 ▸ List.mem_of_mem_drop (List.mem_of_mem_take hc))
  rw [cstring, hdrop, List.takeWhile_append_of_pos hall, List.takeWhile_cons_of_neg (by decide),
    List.append_nil]

/-- After a parse the words are terminated, within the buffer. -/
theorem nulterminate_derived (h : Derives n (tokens s 0) cmd) :
    ∃ buf, nulterminate cmd (s.chars ++ [0]) = some buf ∧ Terminated s cmd buf := by
  have hword : ∀ w ∈ cmd.words, ∃ t, IsWord s t ∧ w = t.range := fun w hw => by
    obtain ⟨t, ht, ha, rfl⟩ := h.words w hw
    exact ⟨t, isWord_of_mem ht ha, rfl⟩
  have hlen : (s.chars ++ [0]).length = s.chars.length + 1 := by simp
  have hsep : ∀ w ∈ cmd.words, Separator s w.2 := fun w hw => by
    obtain ⟨t, ht, rfl⟩ := hword w hw
    exact ht.separator
  have hends : ∀ w ∈ cmd.words, w.2 < (s.chars ++ [0]).length := fun w hw => by
    obtain ⟨t, ht, rfl⟩ := hword w hw
    have hle : t.range.2 ≤ s.chars.length := ht.le
    omega
  obtain ⟨buf, hbuf, hblen, hget⟩ := foldlM_put cmd.words hends
  refine ⟨buf, by rw [nulterminate_eq, hbuf], hblen.trans hlen, h.words, fun w hw => ?_, hsep,
    fun i hi => ?_⟩
  · obtain ⟨t, ht, rfl⟩ := hword w hw
    have hle : t.eq ≤ s.chars.length := ht.le
    have hend : buf[t.eq]? = some 0 := by
      have hmem : t.eq ∈ cmd.words.map Prod.snd := List.mem_map.mpr ⟨t.range, hw, rfl⟩
      rw [hget t.eq (by omega), if_pos hmem]
    refine ⟨cstring_of_word ht (fun i hqi hie => ?_) hend, hend⟩
    have hnot : i ∉ cmd.words.map Prod.snd := fun hmem => by
      obtain ⟨w', hw', rfl⟩ := List.mem_map.mp hmem
      obtain ⟨t', ht', ha, he⟩ := h.words _ hw
      obtain ⟨hq, heq⟩ : t.q = t'.q ∧ t.eq = t'.eq := Prod.ext_iff.mp he
      exact (hsep w' hw').apart t' ht' ha ⟨hq ▸ hqi, heq ▸ hie⟩
    rw [hget i (by omega), if_neg hnot, getElem?_line (by omega)]
  · by_cases hlt : i < (s.chars ++ [0]).length
    · rw [hget i hlt] at hi
      split_ifs at hi with hmem
      · obtain ⟨w, hw, rfl⟩ := List.mem_map.mp hmem
        exact hsep w hw
      · exact absurd rfl hi
    · rw [List.getElem?_eq_none (not_lt.mp hlt), List.getElem?_eq_none (by omega)] at hi
      exact absurd rfl hi

/-- For every command line that the parser accepts, no store of `nulterminate` is outside the buffer,
    every word is NUL-terminated with its own characters, and only separators are overwritten. -/
theorem nulterminate_words (fuel : ℕ) (s : CString) (cmd : Cmd) (buf : Option (List Byte))
    (h : parsecmd fuel s = .ok (cmd, buf)) :
    ∃ line, buf = some line ∧ Terminated s cmd line := by
  obtain ⟨hd, rfl⟩ := parsecmd_sound h
  exact nulterminate_derived hd

end

/-- `a>b`. -/
def redirected : CString := ⟨[ascii 'a', ascii '>', ascii 'b'], by decide⟩

theorem nulterminate_words_redirected :
    ∃ line, some [ascii 'a', 0, ascii 'b', 0] = some line ∧
      Terminated redirected (.redir (.exec [(0, 1)]) 2 3 0x201 1) line :=
  nulterminate_words 10 redirected (.redir (.exec [(0, 1)]) 2 3 0x201 1)
    (some [ascii 'a', 0, ascii 'b', 0]) rfl

end Xv6.Shell
