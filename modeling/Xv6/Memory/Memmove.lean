import Xv6.Schemes.Moves

/-! @src string.c ulib.c | name:The two memmoves | layer:model,proof

    The kernel's `memmove` goes down where the bytes move up into themselves. The user library's
    always goes up, so there it repeats the bytes that lie before the destination. -/

namespace Xv6.Memmove

open Xv6.Schemes.Bytes

abbrev Uint : Type := BitVec 32

/-- `memmove` of string.c. A round of a loop is done as often as `n-- > 0` holds. -/
def memmove (m : Mem 32) (dst src n : Uint) : Mem 32 :=
  let s := src
  let d := dst
  if s < d ∧ s + n > d then (Copying.down^[n.toNat] ⟨m, d + n, s + n⟩).mem
  else (Copying.up^[n.toNat] ⟨m, d, s⟩).mem

/-- `memmove` of ulib.c, whose `n` is an `int`. -/
def ulib_memmove (m : Mem 32) (vdst vsrc n : Uint) : Mem 32 :=
  (Copying.up^[n.toInt.toNat] ⟨m, vdst, vsrc⟩).mem

variable (m : Mem 32) {dst src n : Uint}

theorem memmove_moved (hsrc : src.toNat + n.toNat ≤ 2 ^ 32) (hdst : dst.toNat + n.toNat ≤ 2 ^ 32) :
    Moved m (memmove m dst src n) dst src n.toNat := by
  by_cases h : src < dst ∧ src + n > dst
  · have hn : BitVec.ofNat 32 n.toNat = n := by rw [BitVec.ofNat_toNat, BitVec.setWidth_eq]
    have hdown := down_moved (m := m) hdst (BitVec.lt_def.mp h.1).le
    rw [hn] at hdown
    have he : memmove m dst src n = (Copying.down^[n.toNat] ⟨m, dst + n, src + n⟩).mem := if_pos h
    rwa [he]
  · have he : memmove m dst src n = (Copying.up^[n.toNat] ⟨m, dst, src⟩).mem := if_neg h
    rw [he]
    refine (up_moved_iff hsrc hdst).mpr fun hlt i hi => ?_
    -- the end of the source does not wrap, since the destination is above it
    have hend : (src + n).toNat = src.toNat + n.toNat := by
      rw [BitVec.toNat_add]
      omega
    have hover : src + n > dst := by
      rw [gt_iff_lt, BitVec.lt_def, hend]
      omega
    exact absurd ⟨BitVec.lt_def.mpr hlt, hover⟩ h

theorem ulib_memmove_moved_iff (hsrc : src.toNat + n.toNat ≤ 2 ^ 32)
    (hdst : dst.toNat + n.toNat ≤ 2 ^ 32) (hn : 0 ≤ n.toInt) :
    Moved m (ulib_memmove m dst src n) dst src n.toNat ↔
      (src.toNat < dst.toNat → ∀ i, dst.toNat + i < src.toNat + n.toNat →
        m (dst + BitVec.ofNat 32 i) = m (src + BitVec.ofNat 32 i)) := by
  have hcount : n.toInt.toNat = n.toNat := by
    rw [BitVec.toInt_eq_toNat_cond] at hn ⊢
    omega
  unfold ulib_memmove
  rw [hcount]
  exact up_moved_iff hsrc hdst

/-- The kernel's copy moves the bytes whatever the overlap. The user library's does so iff the bytes
    do not move up into themselves, or what they move into holds them already. -/
theorem memmoves_moved (m : Mem 32) {dst src n : Uint} (hsrc : src.toNat + n.toNat ≤ 2 ^ 32)
    (hdst : dst.toNat + n.toNat ≤ 2 ^ 32) :
    Moved m (memmove m dst src n) dst src n.toNat ∧
    (0 ≤ n.toInt → (Moved m (ulib_memmove m dst src n) dst src n.toNat ↔
      (src.toNat < dst.toNat → ∀ i, dst.toNat + i < src.toNat + n.toNat →
        m (dst + BitVec.ofNat 32 i) = m (src + BitVec.ofNat 32 i)))) :=
  ⟨memmove_moved m hsrc hdst, ulib_memmove_moved_iff m hsrc hdst⟩

/-- Memory in which every byte is its address. -/
def counting : Mem 32 := fun a => UInt8.ofNat a.toNat

/-- Two bytes that do not overlap the two after them. -/
theorem two_bytes_moved : Moved counting (memmove counting 2 0 2) 2 0 2 ∧
    Moved counting (ulib_memmove counting 2 0 2) 2 0 2 :=
  ⟨(memmoves_moved counting (by decide) (by decide)).1,
    ((memmoves_moved counting (by decide) (by decide)).2 (by decide)).mpr fun _ i hi =>
      absurd hi (Nat.not_lt.mpr (Nat.le_add_right 2 i))⟩

/-- Two bytes that move up by one: the first is copied twice. -/
theorem ulib_memmove_repeats : ¬ Moved counting (ulib_memmove counting 1 0 2) 1 0 2 := by
  intro h
  exact absurd h.moved (by decide)

end Xv6.Memmove
