import Mathlib.Data.List.GetD

/-! @src string.c | name:Strings of C | layer:scheme

    A string is a list of characters without NUL. The character at its end is the NUL, and a pointer
    into the string is one of its suffixes. -/

namespace Xv6.Schemes

/-- A string: the characters before the NUL. -/
structure CString where
  chars : List (BitVec 8)
  nul : 0 ∉ chars

/-- A character. -/
def ascii (c : Char) : BitVec 8 := BitVec.ofNat 8 c.toNat

section

variable {s : List (BitVec 8)}

/-- `*s` is NUL at the end only. -/
theorem char_eq_nul (h : 0 ∉ s) : s.getD 0 0 = 0 ↔ s = [] := by
  cases s with
  | nil => simp
  | cons c s =>
    have hc : c ≠ 0 := fun he => h (he ▸ List.mem_cons_self)
    exact iff_of_false hc (List.cons_ne_nil c s)

/-- There is a character before the NUL. -/
theorem length_pos_of_char (h : s.getD 0 0 ≠ 0) : 0 < s.length := by
  cases s with
  | nil => exact absurd rfl h
  | cons c s => exact Nat.succ_pos _

theorem nul_drop (h : 0 ∉ s) (n : ℕ) : 0 ∉ s.drop n := fun hd => h (List.mem_of_mem_drop hd)

end

end Xv6.Schemes
