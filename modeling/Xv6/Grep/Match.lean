import Xv6.Schemes.CString
import Mathlib.Computability.Language

/-! @src grep.c | name:Regular expressions of grep | layer:model,proof

    `match` looks for a substring of the text in the language of the pattern. The pattern is read from
    the left: a character and a star, `$` at the end, or a character. The two functions that call each
    other go down in the pattern, and `matchstar` in the text while the pattern stays. -/

namespace Xv6.Grep
open Xv6.Schemes
open scoped Computability

abbrev Byte := BitVec 8

/-! ### grep.c -/

mutual

/-- `matchhere`: `re` at the beginning of `text`. -/
def matchhere (re text : List Byte) : Bool :=
  if re.getD 0 0 = 0 then true
  else if re.getD 1 0 = ascii '*' then matchstar (re.getD 0 0) (re.drop 2) text
  else if re.getD 0 0 = ascii '$' ∧ re.getD 1 0 = 0 then text.getD 0 0 = 0
  else if text.getD 0 0 ≠ 0 ∧ (re.getD 0 0 = ascii '.' ∨ re.getD 0 0 = text.getD 0 0) then
    matchhere (re.drop 1) (text.drop 1)
  else false
termination_by (re.length, 0, text.length)
decreasing_by
  · have hpos := length_pos_of_char ‹_›
    exact Prod.Lex.left _ _ (by rw [List.length_drop]; omega)
  · have hpos := length_pos_of_char ‹_›
    exact Prod.Lex.left _ _ (by rw [List.length_drop]; omega)

/-- `matchstar`: `c*re` at the beginning of `text`. -/
def matchstar (c : Byte) (re text : List Byte) : Bool :=
  if matchhere re text then true
  else if text.getD 0 0 ≠ 0 ∧ (text.getD 0 0 = c ∨ c = ascii '.') then
    matchstar c re (text.drop 1)
  else false
termination_by (re.length, 1, text.length)
decreasing_by
  · exact Prod.Lex.right _ (Prod.Lex.left _ _ Nat.zero_lt_one)
  · rename_i h
    have hpos := length_pos_of_char h.1
    exact Prod.Lex.right _ (Prod.Lex.right _ (by rw [List.length_drop]; omega))

end

/-- The loop of `match`. -/
def matchLoop (re text : List Byte) : Bool :=
  if matchhere re text then true
  else if text.getD 0 0 ≠ 0 then matchLoop re (text.drop 1)
  else false
termination_by text.length
decreasing_by
  have hpos := length_pos_of_char ‹_›
  rw [List.length_drop]
  omega

/-- `match`. -/
def match_ (re text : List Byte) : Bool :=
  if re.getD 0 0 = ascii '^' then matchhere (re.drop 1) text else matchLoop re text

/-! ### The language of a pattern -/

/-- What a pattern consists of. -/
inductive Atom where
  | one (c : Byte)
  | star (c : Byte)
  | eol
  deriving DecidableEq

/-- A character is starred if a star follows it, read from the left. -/
def atoms : List Byte → List Atom
  | [] => []
  | [c] => if c = ascii '$' then [.eol] else [.one c]
  | c :: d :: re => if d = ascii '*' then .star c :: atoms re else .one c :: atoms (d :: re)

/-- One character, any if the pattern has a dot. -/
def char (c : Byte) : Language Byte := {s | ∃ x, s = [x] ∧ (c = ascii '.' ∨ c = x)}

def Atom.lang : Atom → Language Byte
  | .one c => char c
  | .star c => (char c)∗
  | .eol => 1

def lang (re : List Byte) : Language Byte := ((atoms re).map Atom.lang).prod

/-- `s` is in the language, and the text ends there if the pattern ends in `$`. -/
def Matches (re s post : List Byte) : Prop := s ∈ lang re ∧ (.eol ∈ atoms re → post = [])

/-- A substring of the text is matched, a prefix if the pattern begins with `^`. -/
def Found (re text : List Byte) : Prop :=
  ∃ pre s post, text = pre ++ s ++ post ∧
    if re.getD 0 0 = ascii '^' then pre = [] ∧ Matches (re.drop 1) s post else Matches re s post

/-- `re` at the beginning of `text`. -/
def Prefix (re text : List Byte) : Prop := ∃ s post, text = s ++ post ∧ Matches re s post

section

variable {c x : Byte} {re text s post : List Byte}

theorem mem_char : s ∈ char c ↔ ∃ x, s = [x] ∧ (c = ascii '.' ∨ c = x) := Iff.rfl

/-- The star of a character. -/
theorem mem_star : s ∈ (char c)∗ ↔ ∀ x ∈ s, c = ascii '.' ∨ c = x := by
  rw [Language.mem_kstar]
  constructor
  · rintro ⟨parts, rfl, hparts⟩ x hx
    obtain ⟨part, hpart, hx⟩ := List.mem_flatten.mp hx
    obtain ⟨y, rfl, hy⟩ := mem_char.mp (hparts part hpart)
    obtain rfl := List.mem_singleton.mp hx
    exact hy
  · intro h
    refine ⟨s.map fun x => [x], ?_, fun part hpart => ?_⟩
    · induction s with
      | nil => rfl
      | cons x s ih =>
        rw [List.map_cons, List.flatten_cons, ← ih fun y hy => h y (List.mem_cons_of_mem x hy)]
        rfl
    · obtain ⟨x, hx, rfl⟩ := List.mem_map.mp hpart
      exact ⟨x, rfl, h x hx⟩

/-! ### What a pattern matches -/

theorem matches_nil : Matches [] s post ↔ s = [] := by
  unfold Matches lang atoms
  rw [List.map_nil, List.prod_nil, Language.mem_one]
  exact and_iff_left fun h => absurd h List.not_mem_nil

theorem matches_eol : Matches [ascii '$'] s post ↔ s = [] ∧ post = [] := by
  have hatoms : atoms [ascii '$'] = [.eol] := rfl
  unfold Matches lang
  rw [hatoms, List.map_singleton, List.prod_singleton]
  exact and_congr (Language.mem_one s) (forall_prop_of_true List.mem_cons_self)

theorem matches_cons {a : Atom} {rest : List Byte} (ha : atoms re = a :: atoms rest)
    (hne : a ≠ .eol) :
    Matches re s post ↔ ∃ b ∈ a.lang, ∃ t, s = b ++ t ∧ Matches rest t post := by
  have heol : .eol ∈ atoms re ↔ .eol ∈ atoms rest := by
    rw [ha, List.mem_cons]
    exact or_iff_right hne.symm
  have hlang : lang re = a.lang * lang rest := by
    unfold lang
    rw [ha, List.map_cons, List.prod_cons]
  unfold Matches
  rw [heol, hlang, Language.mem_mul]
  constructor
  · rintro ⟨⟨b, hb, t, ht, rfl⟩, hpost⟩
    exact ⟨b, hb, t, rfl, ht, hpost⟩
  · rintro ⟨b, hb, t, rfl, ht, hpost⟩
    exact ⟨⟨b, hb, t, ht, rfl⟩, hpost⟩

/-- A starred character. -/
theorem atoms_star : atoms (c :: ascii '*' :: re) = .star c :: atoms re := by
  rw [atoms, if_pos rfl]

/-- A character that is not starred, nor the end of the text. -/
theorem atoms_one (hstar : re.getD 0 0 ≠ ascii '*') (heol : ¬ (c = ascii '$' ∧ re = [])) :
    atoms (c :: re) = .one c :: atoms re := by
  cases re with
  | nil => exact if_neg fun hc => heol ⟨hc, rfl⟩
  | cons d re => exact if_neg hstar

theorem prefix_star : Prefix (c :: ascii '*' :: re) text ↔
    ∃ b t, text = b ++ t ∧ (∀ x ∈ b, c = ascii '.' ∨ c = x) ∧ Prefix re t := by
  constructor
  · rintro ⟨s, post, rfl, h⟩
    obtain ⟨b, hb, t, rfl, ht⟩ := (matches_cons atoms_star (by simp)).mp h
    exact ⟨b, t ++ post, List.append_assoc .., mem_star.mp hb, t, post, rfl, ht⟩
  · rintro ⟨b, t, rfl, hb, s, post, rfl, h⟩
    exact ⟨b ++ s, post, (List.append_assoc ..).symm,
      (matches_cons atoms_star (by simp)).mpr ⟨b, mem_star.mpr hb, s, rfl, h⟩⟩

theorem prefix_one (hstar : re.getD 0 0 ≠ ascii '*') (heol : ¬ (c = ascii '$' ∧ re = [])) :
    Prefix (c :: re) text ↔ ∃ x t, text = x :: t ∧ (c = ascii '.' ∨ c = x) ∧ Prefix re t := by
  constructor
  · rintro ⟨s, post, rfl, h⟩
    obtain ⟨b, ⟨x, rfl, hx⟩, t, rfl, ht⟩ :=
      (matches_cons (atoms_one hstar heol) (by simp)).mp h
    exact ⟨x, t ++ post, rfl, hx, t, post, rfl, ht⟩
  · rintro ⟨x, t, rfl, hx, s, post, rfl, h⟩
    exact ⟨x :: s, post, rfl,
      (matches_cons (atoms_one hstar heol) (by simp)).mpr ⟨[x], ⟨x, rfl, hx⟩, s, rfl, h⟩⟩

/-! ### matchhere and matchstar -/

/-- The loop of `matchstar` tries all beginnings that the starred character matches. -/
theorem matchstar_iff (htext : 0 ∉ text)
    (hre : ∀ text, 0 ∉ text → (matchhere re text = true ↔ Prefix re text)) :
    matchstar c re text = true ↔
      ∃ b t, text = b ++ t ∧ (∀ x ∈ b, c = ascii '.' ∨ c = x) ∧ Prefix re t := by
  induction text with
  | nil =>
    rw [matchstar, List.getD_nil, if_neg (fun h => h.1 rfl : ¬ ((0 : Byte) ≠ 0 ∧ _))]
    constructor
    · intro h
      have hhere : matchhere re [] = true := by
        by_contra hno
        rw [if_neg hno] at h
        exact absurd h Bool.false_ne_true
      exact ⟨[], [], rfl, fun _ hx => absurd hx List.not_mem_nil, (hre [] htext).mp hhere⟩
    · rintro ⟨b, t, hbt, -, ht⟩
      obtain ⟨rfl, rfl⟩ := List.append_eq_nil_iff.mp hbt.symm
      rw [if_pos ((hre [] htext).mpr ht)]
  | cons y text ih =>
    have hy : y ≠ 0 := fun h => htext (h ▸ List.mem_cons_self)
    have htext' : 0 ∉ text := fun h => htext (List.mem_cons_of_mem y h)
    rw [matchstar]
    by_cases hhere : matchhere re (y :: text) = true
    · rw [if_pos hhere]
      refine iff_of_true rfl ⟨[], y :: text, rfl, fun _ hx => absurd hx List.not_mem_nil, ?_⟩
      exact (hre _ htext).mp hhere
    · rw [if_neg hhere, List.getD_cons_zero, List.drop_one, List.tail_cons]
      by_cases hc : y = c ∨ c = ascii '.'
      · rw [if_pos ⟨hy, hc⟩, ih htext']
        constructor
        · rintro ⟨b, t, rfl, hb, ht⟩
          refine ⟨y :: b, t, rfl, fun x hx => ?_, ht⟩
          rcases List.mem_cons.mp hx with rfl | hx
          · exact hc.symm.imp_right Eq.symm
          · exact hb x hx
        · rintro ⟨b, t, hbt, hb, ht⟩
          cases b with
          | nil => exact absurd ((hre _ htext).mpr (hbt ▸ ht)) hhere
          | cons x b =>
            obtain ⟨rfl, rfl⟩ := List.cons.inj hbt
            exact ⟨b, t, rfl, fun z hz => hb z (List.mem_cons_of_mem _ hz), ht⟩
      · rw [if_neg fun h => hc h.2]
        refine iff_of_false Bool.false_ne_true ?_
        rintro ⟨b, t, hbt, hb, ht⟩
        cases b with
        | nil => exact hhere ((hre _ htext).mpr (hbt ▸ ht))
        | cons x b =>
          obtain ⟨rfl, -⟩ := List.cons.inj hbt
          exact hc ((hb y List.mem_cons_self).symm.imp_left Eq.symm)

/-- `matchhere` matches a prefix of the text. -/
theorem matchhere_iff (hre : 0 ∉ re) (htext : 0 ∉ text) :
    matchhere re text = true ↔ Prefix re text := by
  induction hn : re.length using Nat.strong_induction_on generalizing re text with
  | _ n ih =>
    subst hn
    cases re with
    | nil =>
      rw [matchhere, if_pos ((char_eq_nul hre).mpr rfl)]
      exact iff_of_true rfl ⟨[], text, rfl, matches_nil.mpr rfl⟩
    | cons c re =>
      have hc : c ≠ 0 := fun h => hre (h ▸ List.mem_cons_self)
      have hre' : 0 ∉ re := fun h => hre (List.mem_cons_of_mem c h)
      have hnext : (c :: re).getD 1 0 = re.getD 0 0 := rfl
      rw [matchhere, List.getD_cons_zero, if_neg hc, hnext]
      by_cases hstar : re.getD 0 0 = ascii '*'
      · -- a starred character
        rw [if_pos hstar]
        cases re with
        | nil => exact absurd hstar (by decide)
        | cons d re =>
          obtain rfl : d = ascii '*' := hstar
          have hre'' : 0 ∉ re := fun h => hre' (List.mem_cons_of_mem _ h)
          rw [prefix_star]
          refine matchstar_iff htext fun text htext => ?_
          exact ih re.length (by rw [List.length_cons, List.length_cons]; omega) hre'' htext rfl
      · simp only [if_neg hstar, char_eq_nul hre', char_eq_nul htext, ne_eq]
        by_cases heol : c = ascii '$' ∧ re = []
        · -- the end of the text
          rw [if_pos heol]
          obtain ⟨rfl, rfl⟩ := heol
          rw [decide_eq_true_iff]
          constructor
          · rintro rfl
            exact ⟨[], [], rfl, matches_eol.mpr ⟨rfl, rfl⟩⟩
          · rintro ⟨s, post, rfl, h⟩
            obtain ⟨rfl, rfl⟩ := matches_eol.mp h
            rfl
        · rw [if_neg heol, prefix_one hstar heol]
          cases text with
          | nil =>
            rw [if_neg fun h => h.1 rfl]
            refine iff_of_false Bool.false_ne_true ?_
            rintro ⟨x, t, hxt, -⟩
            cases hxt
          | cons y text =>
            have htext' : 0 ∉ text := fun h => htext (List.mem_cons_of_mem y h)
            rw [List.getD_cons_zero]
            by_cases hy : c = ascii '.' ∨ c = y
            · rw [if_pos ⟨List.cons_ne_nil y text, hy⟩]
              refine (ih re.length (Nat.lt_succ_self _) hre' htext' rfl).trans ?_
              constructor
              · exact fun h => ⟨y, text, rfl, hy, h⟩
              · rintro ⟨x, t, hxt, -, h⟩
                obtain ⟨-, rfl⟩ := List.cons.inj hxt
                exact h
            · rw [if_neg fun h => hy h.2]
              refine iff_of_false Bool.false_ne_true ?_
              rintro ⟨x, t, hxt, hx, -⟩
              obtain ⟨rfl, -⟩ := List.cons.inj hxt
              exact hy hx

/-- The loop of `match` tries all suffixes. -/
theorem matchLoop_iff (hre : 0 ∉ re) (htext : 0 ∉ text) :
    matchLoop re text = true ↔ ∃ pre t, text = pre ++ t ∧ Prefix re t := by
  induction text with
  | nil =>
    rw [matchLoop, List.getD_nil, if_neg (fun h => h rfl : ¬ (0 : Byte) ≠ 0)]
    constructor
    · intro h
      have hhere : matchhere re [] = true := by
        by_contra hno
        rw [if_neg hno] at h
        exact absurd h Bool.false_ne_true
      exact ⟨[], [], rfl, (matchhere_iff hre htext).mp hhere⟩
    · rintro ⟨pre, t, hpt, ht⟩
      obtain ⟨rfl, rfl⟩ := List.append_eq_nil_iff.mp hpt.symm
      rw [if_pos ((matchhere_iff hre htext).mpr ht)]
  | cons y text ih =>
    have hy : y ≠ 0 := fun h => htext (h ▸ List.mem_cons_self)
    have htext' : 0 ∉ text := fun h => htext (List.mem_cons_of_mem y h)
    rw [matchLoop, List.getD_cons_zero, if_pos hy, List.drop_one, List.tail_cons]
    by_cases hhere : matchhere re (y :: text) = true
    · rw [if_pos hhere]
      exact iff_of_true rfl ⟨[], _, rfl, (matchhere_iff hre htext).mp hhere⟩
    · rw [if_neg hhere, ih htext']
      constructor
      · rintro ⟨pre, t, rfl, ht⟩
        exact ⟨y :: pre, t, rfl, ht⟩
      · rintro ⟨pre, t, hpt, ht⟩
        cases pre with
        | nil => exact absurd ((matchhere_iff hre htext).mpr (hpt ▸ ht)) hhere
        | cons x pre =>
          obtain ⟨-, rfl⟩ := List.cons.inj hpt
          exact ⟨pre, t, rfl, ht⟩

/-- `match` finds the pattern in the text. -/
theorem match_iff_found (re text : CString) :
    match_ re.chars text.chars = true ↔ Found re.chars text.chars := by
  unfold match_ Found
  by_cases hcaret : re.chars.getD 0 0 = ascii '^'
  · simp only [if_pos hcaret]
    rw [matchhere_iff (nul_drop re.nul 1) text.nul]
    constructor
    · rintro ⟨s, post, htext, h⟩
      exact ⟨[], s, post, htext, rfl, h⟩
    · rintro ⟨pre, s, post, htext, rfl, h⟩
      exact ⟨s, post, htext, h⟩
  · simp only [if_neg hcaret]
    rw [matchLoop_iff re.nul text.nul]
    constructor
    · rintro ⟨pre, t, htext, s, post, rfl, h⟩
      exact ⟨pre, s, post, htext.trans (List.append_assoc ..).symm, h⟩
    · rintro ⟨pre, s, post, htext, h⟩
      exact ⟨pre, s ++ post, htext.trans (List.append_assoc ..), s, post, rfl, h⟩

end

end Xv6.Grep
