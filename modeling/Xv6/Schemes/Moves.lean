import Xv6.Schemes.Bytes
import Mathlib.Logic.Function.Iterate

/-! @scheme moves | name:Copies byte by byte | family:memory

    A loop copies bytes with two pointers that go up or down together. The region that is copied and
    the one it is copied to may overlap, but neither wraps. Going down moves the bytes when they move
    up. Going up does so when they move down; when they move up it repeats what lies before the
    destination, so it moves the bytes iff they repeated already. -/

namespace Xv6.Schemes.Bytes

variable {w : ℕ}

/-- The memory and the two pointers. -/
structure Copying (w : ℕ) where
  mem : Mem w
  d : BitVec w
  s : BitVec w

namespace Copying

/-- `*d++ = *s++`. -/
def up (c : Copying w) : Copying w :=
  ⟨Function.update c.mem c.d (c.mem c.s), c.d + 1, c.s + 1⟩

/-- `*--d = *--s`. -/
def down (c : Copying w) : Copying w :=
  ⟨Function.update c.mem (c.d - 1) (c.mem (c.s - 1)), c.d - 1, c.s - 1⟩

end Copying

/-- The `n` bytes at `s` have come to `d`, and nothing else has changed. -/
structure Moved (m m' : Mem w) (d s : BitVec w) (n : ℕ) : Prop where
  moved : read m' d n = read m s n
  kept : ∀ x, ¬ Within d n x → m' x = m x

variable {m m' : Mem w} {a d s x : BitVec w} {n k i j : ℕ}

/-! ### Addresses in a region -/

theorem toNat_at (h : a.toNat + i < 2 ^ w) : (a + BitVec.ofNat w i).toNat = a.toNat + i := by
  rw [BitVec.toNat_add, BitVec.toNat_ofNat, Nat.add_mod_mod, Nat.mod_eq_of_lt h]

theorem at_succ (a : BitVec w) (i : ℕ) : a + BitVec.ofNat w i + 1 = a + BitVec.ofNat w (i + 1) := by
  rw [BitVec.ofNat_add, BitVec.add_assoc]
  rfl

theorem at_pred (a : BitVec w) (i : ℕ) : a + BitVec.ofNat w (i + 1) - 1 = a + BitVec.ofNat w i := by
  rw [← at_succ, BitVec.add_sub_cancel]

/-- Addresses in a region are told apart by their places in it. -/
theorem at_inj (hi : i < 2 ^ w) (hj : j < 2 ^ w) (h : a + BitVec.ofNat w i = a + BitVec.ofNat w j) :
    i = j := by
  rw [← add_sub_self a hi, h, add_sub_self a hj]

/-- An address in a region is at one of its places. -/
theorem within_iff (hn : n ≤ 2 ^ w) : Within a n x ↔ ∃ i < n, x = a + BitVec.ofNat w i := by
  constructor
  · intro h
    refine ⟨(x - a).toNat, h, ?_⟩
    rw [BitVec.ofNat_toNat, BitVec.setWidth_eq, BitVec.add_comm, BitVec.sub_add_cancel]
  · rintro ⟨i, hi, rfl⟩
    exact within_add hn hi

theorem read_eq_iff : read m' d n = read m s n ↔
    ∀ i < n, m' (d + BitVec.ofNat w i) = m (s + BitVec.ofNat w i) := by
  simp only [read, List.map_inj_left, List.mem_range]

/-! ### Going up -/

theorem up_pointers (c : Copying w) (k : ℕ) :
    (Copying.up^[k] c).d = c.d + BitVec.ofNat w k ∧
      (Copying.up^[k] c).s = c.s + BitVec.ofNat w k := by
  induction k with
  | zero => exact ⟨(BitVec.add_zero _).symm, (BitVec.add_zero _).symm⟩
  | succ k ih =>
    rw [Function.iterate_succ_apply', Copying.up, ih.1, ih.2]
    exact ⟨at_succ _ _, at_succ _ _⟩

theorem up_succ (c : Copying w) (k : ℕ) : (Copying.up^[k + 1] c).mem =
    Function.update (Copying.up^[k] c).mem (c.d + BitVec.ofNat w k)
      ((Copying.up^[k] c).mem (c.s + BitVec.ofNat w k)) := by
  rw [Function.iterate_succ_apply', Copying.up, (up_pointers c k).1, (up_pointers c k).2]

theorem up_other (c : Copying w) (hk : k ≤ 2 ^ w) (h : ¬ Within c.d k x) :
    (Copying.up^[k] c).mem x = c.mem x := by
  induction k with
  | zero => rfl
  | succ k ih =>
    have hx : x ≠ c.d + BitVec.ofNat w k := by
      rintro rfl
      exact h (within_add hk (Nat.lt_add_one k))
    have hless : ¬ Within c.d k x := fun hw => h (hw.trans (Nat.lt_add_one k))
    rw [up_succ, Function.update_of_ne hx, ih (by omega) hless]

/-- A byte is copied as it is when the pointers come to it, and stays. -/
theorem up_byte (c : Copying w) (hk : k ≤ 2 ^ w) (hi : i < k) :
    (Copying.up^[k] c).mem (c.d + BitVec.ofNat w i) =
      (Copying.up^[i] c).mem (c.s + BitVec.ofNat w i) := by
  induction k with
  | zero => omega
  | succ k ih =>
    rw [up_succ]
    rcases Nat.lt_succ_iff_lt_or_eq.mp hi with hlt | rfl
    · have hne : c.d + BitVec.ofNat w i ≠ c.d + BitVec.ofNat w k := by
        intro he
        have := at_inj (by omega) (by omega) he
        omega
      rw [Function.update_of_ne hne, ih (by omega) hlt]
    · rw [Function.update_self]

section up
variable (hs : s.toNat + n ≤ 2 ^ w) (hd : d.toNat + n ≤ 2 ^ w)
include hs hd

/-- The copy has not come to a byte outside of where it has written. -/
theorem up_fresh (hi : i < n) (h : d.toNat ≤ s.toNat ∨ s.toNat + i < d.toNat) :
    (Copying.up^[n] ⟨m, d, s⟩).mem (d + BitVec.ofNat w i) = m (s + BitVec.ofNat w i) := by
  rw [up_byte ⟨m, d, s⟩ (by omega) hi]
  refine up_other ⟨m, d, s⟩ (by omega) fun hw => ?_
  obtain ⟨j, hj, he⟩ : ∃ j < i, s + BitVec.ofNat w i = d + BitVec.ofNat w j :=
    (within_iff (by omega)).mp hw
  have he' := congrArg BitVec.toNat he
  rw [toNat_at (by omega), toNat_at (by omega)] at he'
  omega

/-- It copies a byte that it has written itself. -/
theorem up_again (hi : i < n) (hj : d.toNat + j = s.toNat + i) (h : s.toNat < d.toNat) :
    (Copying.up^[n] ⟨m, d, s⟩).mem (d + BitVec.ofNat w i) =
      (Copying.up^[n] ⟨m, d, s⟩).mem (d + BitVec.ofNat w j) := by
  have he : s + BitVec.ofNat w i = d + BitVec.ofNat w j := by
    apply BitVec.eq_of_toNat_eq
    rw [toNat_at (by omega), toNat_at (by omega), hj]
  rw [up_byte ⟨m, d, s⟩ (by omega) hi, up_byte ⟨m, d, s⟩ (by omega) (by omega : j < n)]
  show (Copying.up^[i] ⟨m, d, s⟩).mem (s + BitVec.ofNat w i) = _
  rw [he]
  exact up_byte ⟨m, d, s⟩ (by omega) (by omega)

/-- Going up moves the bytes iff they do not move up into themselves, or repeat already. -/
theorem up_moved_iff : Moved m (Copying.up^[n] ⟨m, d, s⟩).mem d s n ↔
    (s.toNat < d.toNat → ∀ i, d.toNat + i < s.toNat + n →
      m (d + BitVec.ofNat w i) = m (s + BitVec.ofNat w i)) := by
  constructor
  · intro hmoved hlt i hi
    have hbytes := read_eq_iff.mp hmoved.moved
    obtain ⟨k, hk⟩ : ∃ k, s.toNat + k = d.toNat + i := ⟨d.toNat + i - s.toNat, by omega⟩
    have he : s + BitVec.ofNat w k = d + BitVec.ofNat w i := by
      apply BitVec.eq_of_toNat_eq
      rw [toNat_at (by omega), toNat_at (by omega), hk]
    rw [← hbytes i (by omega), ← up_again hs hd (by omega : k < n) hk.symm hlt,
      hbytes k (by omega), he]
  · intro hrep
    refine ⟨read_eq_iff.mpr fun i hi => ?_, fun x hx => up_other ⟨m, d, s⟩ (by omega) hx⟩
    -- by the place: a byte that is copied again is one that has been moved before it
    induction i using Nat.strong_induction_on with
    | _ i ih =>
      by_cases h : d.toNat ≤ s.toNat ∨ s.toNat + i < d.toNat
      · exact up_fresh hs hd hi h
      · obtain ⟨hlt, hle⟩ := not_or.mp h
        obtain ⟨j, hj⟩ : ∃ j, d.toNat + j = s.toNat + i := ⟨s.toNat + i - d.toNat, by omega⟩
        have he : d + BitVec.ofNat w j = s + BitVec.ofNat w i := by
          apply BitVec.eq_of_toNat_eq
          rw [toNat_at (by omega), toNat_at (by omega), hj]
        rw [up_again hs hd hi hj (by omega), ih j (by omega) (by omega),
          ← hrep (by omega) j (by omega), he]

end up

/-! ### Going down -/

/-- The bytes from place `j` on have been copied. -/
structure Down (m : Mem w) (d s : BitVec w) (n j : ℕ) (c : Copying w) : Prop where
  dst : c.d = d + BitVec.ofNat w j
  src : c.s = s + BitVec.ofNat w j
  copied : ∀ i, j ≤ i → i < n → c.mem (d + BitVec.ofNat w i) = m (s + BitVec.ofNat w i)
  kept : ∀ x, (∀ i, j ≤ i → i < n → x ≠ d + BitVec.ofNat w i) → c.mem x = m x

section down
variable (hd : d.toNat + n ≤ 2 ^ w) (hle : s.toNat ≤ d.toNat)
include hd hle

/-- The byte before those that have been copied is still what it was. -/
theorem Down.step {c : Copying w} (hj : j + 1 ≤ n) (h : Down m d s n (j + 1) c) :
    Down m d s n j c.down := by
  have hd' : c.d - 1 = d + BitVec.ofNat w j := by rw [h.dst, at_pred]
  have hs' : c.s - 1 = s + BitVec.ofNat w j := by rw [h.src, at_pred]
  have hbyte : c.mem (s + BitVec.ofNat w j) = m (s + BitVec.ofNat w j) := by
    refine h.kept _ fun i hi hin he => ?_
    have he' := congrArg BitVec.toNat he
    rw [toNat_at (by omega), toNat_at (by omega)] at he'
    omega
  unfold Copying.down
  rw [hd', hs', hbyte]
  refine ⟨rfl, rfl, fun i hi hin => ?_, fun x hx => ?_⟩
  · rcases Nat.eq_or_lt_of_le hi with rfl | hlt
    · exact Function.update_self ..
    · have hne : d + BitVec.ofNat w i ≠ d + BitVec.ofNat w j := by
        intro he
        have := at_inj (by omega) (by omega) he
        omega
      show Function.update c.mem _ _ _ = _
      rw [Function.update_of_ne hne, h.copied i hlt hin]
  · show Function.update c.mem _ _ _ = _
    rw [Function.update_of_ne (hx j le_rfl (by omega)), h.kept x fun i hi => hx i (by omega)]

theorem down_run (hk : j + k = n) :
    Down m d s n j (Copying.down^[k] ⟨m, d + BitVec.ofNat w n, s + BitVec.ofNat w n⟩) := by
  induction k generalizing j with
  | zero =>
    obtain rfl : j = n := hk
    exact ⟨rfl, rfl, fun i hi hin => absurd hin (by omega), fun x _ => rfl⟩
  | succ k ih =>
    rw [Function.iterate_succ_apply']
    exact Down.step hd hle (by omega) (ih (by omega))

/-- Going down moves bytes that move up. -/
theorem down_moved :
    Moved m (Copying.down^[n] ⟨m, d + BitVec.ofNat w n, s + BitVec.ofNat w n⟩).mem d s n := by
  have h := down_run (m := m) hd hle (Nat.zero_add n)
  refine ⟨read_eq_iff.mpr fun i hi => h.copied i (Nat.zero_le i) hi, fun x hx => ?_⟩
  exact h.kept x fun i _ hi he => hx ((within_iff (by omega)).mpr ⟨i, hi, he⟩)

end down

end Xv6.Schemes.Bytes
