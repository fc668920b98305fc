import Mathlib.Data.BitVec
import Mathlib.Data.Nat.ModEq
import Mathlib.Algebra.BigOperators.Group.List.Basic

/-! @scheme ones-complement | name:One's-complement sums | family:arithmetic

    Words of `w` bits are added with end-around carry: what is carried out at the top is added at the
    bottom. Such a sum is all ones iff the plain sum is a multiple of `2 ^ w - 1`, and not zero. -/

namespace Xv6.Schemes.Ones

variable {w a b c : ℕ} {l l' : List ℕ}

/-- Addition with end-around carry. -/
def add (w a b : ℕ) : ℕ := (a + b) % 2 ^ w + (a + b) / 2 ^ w

def sum (w : ℕ) (l : List ℕ) : ℕ := l.foldl (add w) 0

def Words (w : ℕ) (l : List ℕ) : Prop := ∀ a ∈ l, a < 2 ^ w

theorem words_append : Words w (l ++ l') ↔ Words w l ∧ Words w l' := List.forall_mem_append

theorem words_cons : Words w (a :: l) ↔ a < 2 ^ w ∧ Words w l := List.forall_mem_cons

/-! ### One addition -/

/-- The carry is none or one. -/
theorem add_cases (ha : a < 2 ^ w) (hb : b < 2 ^ w) :
    (a + b < 2 ^ w ∧ add w a b = a + b) ∨ (2 ^ w ≤ a + b ∧ add w a b + 2 ^ w = a + b + 1) := by
  unfold add
  by_cases h : a + b < 2 ^ w
  · rw [Nat.mod_eq_of_lt h, Nat.div_eq_of_lt h]
    exact Or.inl ⟨h, rfl⟩
  · have hmod : (a + b) % 2 ^ w = a + b - 2 ^ w := by
      rw [Nat.mod_eq_sub_mod (by omega), Nat.mod_eq_of_lt (by omega)]
    have hdiv : (a + b) / 2 ^ w = 1 := Nat.div_eq_of_lt_le (by omega) (by omega)
    rw [hmod, hdiv]
    omega

theorem add_lt (ha : a < 2 ^ w) (hb : b < 2 ^ w) : add w a b < 2 ^ w := by
  rcases add_cases ha hb with h | h <;> omega

/-- A carry is worth as much at the bottom as at the top, up to multiples of all ones. -/
theorem add_modEq (w a b : ℕ) : add w a b ≡ a + b [MOD 2 ^ w - 1] := by
  have hone : 2 ^ w ≡ 1 [MOD 2 ^ w - 1] := by
    have := (Nat.modEq_iff_dvd' (Nat.one_le_two_pow (n := w))).mpr (dvd_refl (2 ^ w - 1))
    exact this.symm
  calc add w a b = 1 * ((a + b) / 2 ^ w) + (a + b) % 2 ^ w := by unfold add; omega
    _ ≡ 2 ^ w * ((a + b) / 2 ^ w) + (a + b) % 2 ^ w [MOD 2 ^ w - 1] :=
        (hone.symm.mul_right _).add_right _
    _ = a + b := Nat.div_add_mod _ _

theorem add_eq_zero (ha : a < 2 ^ w) (hb : b < 2 ^ w) : add w a b = 0 ↔ a = 0 ∧ b = 0 := by
  rcases add_cases ha hb with h | h <;> omega

/-! ### Sums -/

theorem sum_concat (w : ℕ) (l : List ℕ) (a : ℕ) : sum w (l ++ [a]) = add w (sum w l) a := by
  unfold sum
  rw [List.foldl_append, List.foldl_cons, List.foldl_nil]

theorem sum_lt (hl : Words w l) : sum w l < 2 ^ w := by
  induction l using List.reverseRecOn with
  | nil => exact Nat.two_pow_pos w
  | append_singleton l a ih =>
    obtain ⟨hl, ha⟩ := words_append.mp hl
    rw [sum_concat]
    exact add_lt (ih hl) (ha a (List.mem_singleton_self a))

theorem sum_modEq (w : ℕ) (l : List ℕ) : sum w l ≡ l.sum [MOD 2 ^ w - 1] := by
  induction l using List.reverseRecOn with
  | nil => exact Nat.ModEq.refl 0
  | append_singleton l a ih =>
    rw [sum_concat, List.sum_append, List.sum_singleton]
    exact (add_modEq w _ a).trans (ih.add_right a)

theorem sum_eq_zero (hl : Words w l) : sum w l = 0 ↔ l.sum = 0 := by
  induction l using List.reverseRecOn with
  | nil => exact Iff.rfl
  | append_singleton l a ih =>
    obtain ⟨hl, ha⟩ := words_append.mp hl
    rw [sum_concat, add_eq_zero (sum_lt hl) (ha a (List.mem_singleton_self a)), ih hl,
      List.sum_append, List.sum_singleton, Nat.add_eq_zero_iff]

/-- All ones. -/
theorem sum_ones_iff (hw : 0 < w) (hl : Words w l) :
    sum w l = 2 ^ w - 1 ↔ 2 ^ w - 1 ∣ l.sum ∧ l.sum ≠ 0 := by
  have hpos : 2 ≤ 2 ^ w := Nat.le_self_pow hw.ne' 2
  have hlt := sum_lt hl
  have hmod := sum_modEq w l
  constructor
  · intro h
    rw [h] at hmod
    refine ⟨(Nat.modEq_zero_iff_dvd.mp ?_), fun h0 => ?_⟩
    · exact hmod.symm.trans (Nat.modEq_zero_iff_dvd.mpr (dvd_refl _))
    · have := (sum_eq_zero hl).mpr h0
      omega
  · rintro ⟨hdvd, hne⟩
    obtain ⟨k, hk⟩ := Nat.modEq_zero_iff_dvd.mp (hmod.trans (Nat.modEq_zero_iff_dvd.mpr hdvd))
    have hne : sum w l ≠ 0 := fun h0 => hne ((sum_eq_zero hl).mp h0)
    -- a multiple of all ones below `2 ^ w` is 0 or all ones
    obtain rfl | rfl | hk2 : k = 0 ∨ k = 1 ∨ 2 ≤ k := by omega
    · exact absurd hk (by rwa [Nat.mul_zero])
    · rw [hk, Nat.mul_one]
    · have := Nat.mul_le_mul_left (2 ^ w - 1) hk2
      omega

/-- The complement of the sum of the rest makes the sum all ones. -/
theorem sum_complement (hw : 0 < w) (hl : Words w (l ++ 0 :: l')) :
    sum w (l ++ (2 ^ w - 1 - sum w (l ++ 0 :: l')) :: l') = 2 ^ w - 1 := by
  have hpos : 2 ≤ 2 ^ w := Nat.le_self_pow hw.ne' 2
  have hlt := sum_lt hl
  have hmod := sum_modEq w (l ++ 0 :: l')
  have hzero := sum_eq_zero hl
  obtain ⟨hleft, hright⟩ := words_append.mp hl
  have hright := (words_cons.mp hright).2
  rw [List.sum_append, List.sum_cons, Nat.zero_add] at hmod hzero
  generalize sum w (l ++ 0 :: l') = s at *
  refine (sum_ones_iff hw (words_append.mpr ⟨hleft, words_cons.mpr ⟨by omega, hright⟩⟩)).mpr ?_
  have hsum : (l ++ (2 ^ w - 1 - s) :: l').sum = l.sum + l'.sum + (2 ^ w - 1 - s) := by
    rw [List.sum_append, List.sum_cons]
    omega
  rw [hsum]
  constructor
  · refine Nat.modEq_zero_iff_dvd.mp ?_
    calc l.sum + l'.sum + (2 ^ w - 1 - s) ≡ s + (2 ^ w - 1 - s) [MOD 2 ^ w - 1] := hmod.symm.add_right _
      _ = 2 ^ w - 1 := by omega
      _ ≡ 0 [MOD 2 ^ w - 1] := Nat.modEq_zero_iff_dvd.mpr (dvd_refl _)
  · omega

/-! ### Bytes as words of 16 bits -/

/-- The words of some bytes, the first byte of each the high one; a last byte alone is padded. -/
def words : List (BitVec 8) → List ℕ
  | [] => []
  | [a] => [a.toNat * 256]
  | a :: b :: l => (a.toNat * 256 + b.toNat) :: words l

/-- The words without a last byte alone. -/
def pairs : List (BitVec 8) → List ℕ
  | a :: b :: l => (a.toNat * 256 + b.toNat) :: pairs l
  | _ => []

/-- The last byte alone. -/
def odd : List (BitVec 8) → ℕ
  | [] => 0
  | [a] => a.toNat
  | _ :: _ :: l => odd l

attribute [grind =] words pairs odd
attribute [elab_as_elim] words.induct

theorem words_words (l : List (BitVec 8)) : Words 16 (words l) := by
  induction l using words.induct with
  | case1 => exact fun _ h => absurd h List.not_mem_nil
  | case2 a =>
    have := a.isLt
    exact words_cons.mpr ⟨by omega, fun _ h => absurd h List.not_mem_nil⟩
  | case3 a b l ih =>
    have ha := a.isLt
    have hb := b.isLt
    exact words_cons.mpr ⟨by omega, ih⟩

theorem words_append_even {k l : List (BitVec 8)} (hk : k.length % 2 = 0) :
    words (k ++ l) = words k ++ words l := by
  induction k using words.induct with
  | case1 => rfl
  | case2 a => exact absurd hk (by simp)
  | case3 a b k ih =>
    have hk : k.length % 2 = 0 := by
      simp only [List.length_cons] at hk
      omega
    simp only [List.cons_append, words, ih hk]

theorem pairs_append_even {k l : List (BitVec 8)} (hk : k.length % 2 = 0) :
    pairs (k ++ l) = pairs k ++ pairs l := by
  induction k using words.induct with
  | case1 => rfl
  | case2 a => exact absurd hk (by simp)
  | case3 a b k ih =>
    have hk : k.length % 2 = 0 := by
      simp only [List.length_cons] at hk
      omega
    simp only [List.cons_append, pairs, ih hk]

theorem sum_words (l : List (BitVec 8)) : (words l).sum = (pairs l).sum + odd l * 256 := by
  induction l using words.induct with
  | case1 => rfl
  | case2 a => simp [words, pairs, odd]
  | case3 a b l ih =>
    simp only [words, pairs, odd, List.sum_cons, ih]
    omega

/-- What a list of bytes adds up to, as words, is bounded by their number. -/
theorem sum_pairs_le (l : List (BitVec 8)) : (pairs l).sum ≤ l.length / 2 * 65535 := by
  induction l using words.induct with
  | case1 => exact Nat.le_refl 0
  | case2 a => exact Nat.zero_le _
  | case3 a b l ih =>
    have ha := a.isLt
    have hb := b.isLt
    simp only [pairs, List.sum_cons, List.length_cons]
    omega

end Xv6.Schemes.Ones
