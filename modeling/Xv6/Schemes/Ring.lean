import Mathlib.Algebra.Group.Nat.Defs
import Mathlib.Data.List.Basic
import Mathlib.Logic.Function.Basic

/-! @scheme ring | name:Ring buffers with free-running counters | family:data-structures

    A ring of `c` cells is indexed by two counters of `w` bits that only ever count up, modulo
    `2 ^ w`. When `c` divides `2 ^ w` the wrap of a counter does not show: what lies between the
    counters is a queue, as long as the writer never overtakes the reader by more than `c`. -/

namespace Xv6.Schemes.Ring

variable {α : Type*} {w : ℕ}

/-- How far the writer is ahead of the reader. -/
def count (r n : BitVec w) : ℕ := (n - r).toNat

/-- The cell that a counter points to. -/
def slot (c : ℕ) (x : BitVec w) : ℕ := x.toNat % c

/-- The elements between the counters, oldest first. -/
def contents (c : ℕ) (data : ℕ → α) (r n : BitVec w) : List α :=
  (List.range (count r n)).map fun j => data (slot c (r + BitVec.ofNat w j))

variable {c : ℕ} {data : ℕ → α} {r n : BitVec w}

@[simp] theorem count_self : count r r = 0 := by simp [count]

theorem count_eq_zero : count r n = 0 ↔ r = n := by
  constructor
  · intro h
    have hz : n - r = 0 := BitVec.eq_of_toNat_eq (by simpa [count] using h)
    exact (BitVec.sub_eq_iff_eq_add.mp hz).symm ▸ (by simp)
  · rintro rfl
    exact count_self

@[simp] theorem length_contents : (contents c data r n).length = count r n := by simp [contents]

@[simp] theorem contents_self : contents c data r r = [] := by simp [contents]

/-- The writer is found again from the reader. -/
theorem add_count : r + BitVec.ofNat w (count r n) = n := by
  rw [count, BitVec.ofNat_toNat, BitVec.setWidth_eq, BitVec.add_comm, BitVec.sub_add_cancel]

theorem count_succ (h : count r n + 1 < 2 ^ w) : count r (n + 1) = count r n + 1 := by
  have he : n + 1 - r = n - r + 1 := by
    rw [BitVec.sub_eq_add_neg, BitVec.sub_eq_add_neg, BitVec.add_assoc, BitVec.add_comm 1,
      BitVec.add_assoc]
  have h1 : (1 : BitVec w).toNat = 1 :=
    (BitVec.toNat_ofNat 1 w).trans (Nat.mod_eq_of_lt (by omega))
  unfold count at h ⊢
  rw [he, BitVec.toNat_add, h1, Nat.mod_eq_of_lt h]

theorem count_pred (h : count r n ≠ 0) : count r n = count (r + 1) n + 1 := by
  have hpos : 0 < (n - r).toNat := Nat.pos_of_ne_zero h
  have hlt := (n - r).isLt
  have hw : w ≠ 0 := by
    rintro rfl
    simp at hlt
    omega
  have h1 : (1 : BitVec w).toNat = 1 :=
    (BitVec.toNat_ofNat 1 w).trans (Nat.mod_eq_of_lt (Nat.one_lt_two_pow hw))
  have he : n - (r + 1) = n - r - 1 := by
    rw [BitVec.sub_eq_add_neg, BitVec.sub_eq_add_neg, BitVec.sub_eq_add_neg, BitVec.neg_add,
      BitVec.sub_eq_add_neg, BitVec.add_assoc]
  have hle : (1 : BitVec w) ≤ n - r := by
    rw [BitVec.le_def, h1]
    exact hpos
  unfold count
  rw [he, BitVec.toNat_sub_of_le hle, h1]
  omega

/-- Cells at a distance below the size of the ring differ. -/
theorem slot_add (hc : c ∣ 2 ^ w) (x : BitVec w) (j : ℕ) :
    slot c (x + BitVec.ofNat w j) = (x.toNat + j) % c := by
  rw [slot, BitVec.toNat_add, BitVec.toNat_ofNat, Nat.mod_mod_of_dvd _ hc, Nat.add_mod,
    Nat.mod_mod_of_dvd _ hc, ← Nat.add_mod]

theorem slot_ne (hc : c ∣ 2 ^ w) {x : BitVec w} {j k : ℕ} (hjk : j < k) (hk : k < c) :
    slot c (x + BitVec.ofNat w j) ≠ slot c (x + BitVec.ofNat w k) := by
  rw [slot_add hc, slot_add hc]
  intro he
  have hd : (x.toNat + k) - (x.toNat + j) = k - j := by omega
  have hz : (k - j) % c = 0 := by
    rw [← hd]
    exact Nat.sub_mod_eq_zero_of_mod_eq he.symm
  rw [Nat.mod_eq_of_lt (by omega)] at hz
  omega

/-- Storing at the writer's cell appends. -/
theorem contents_push (hc : c ∣ 2 ^ w) (h : count r n < c) (h' : count r n + 1 < 2 ^ w) (b : α) :
    contents c (Function.update data (slot c n) b) r (n + 1) = contents c data r n ++ [b] := by
  unfold contents
  rw [count_succ h', List.range_succ, List.map_append, List.map_singleton, add_count,
    Function.update_self]
  congr 1
  refine List.map_congr_left fun j hj => ?_
  have hne := slot_ne hc (x := r) (List.mem_range.mp hj) h
  rw [add_count] at hne
  rw [Function.update_of_ne hne]

/-- Reading the reader's cell takes the first element. -/
theorem contents_pop (h : count r n ≠ 0) :
    contents c data r n = data (slot c r) :: contents c data (r + 1) n := by
  unfold contents
  rw [count_pred h, List.range_succ_eq_map, List.map_cons, List.map_map]
  congr 1
  · simp
  · refine List.map_congr_left fun j _ => ?_
    have he : r + 1 + BitVec.ofNat w j = r + BitVec.ofNat w (j + 1) := by
      rw [BitVec.add_assoc, Nat.add_comm j 1, BitVec.ofNat_add]
      rfl
    simp only [Function.comp_apply, Nat.succ_eq_add_one]
    rw [he]

/-! ### The writer goes back -/

theorem count_back (h : count r n ≠ 0) : count r n = count r (n - 1) + 1 := by
  have hne : n - 1 - r = n - r - 1 := by
    rw [BitVec.sub_eq_add_neg, BitVec.sub_eq_add_neg, BitVec.sub_eq_add_neg, BitVec.sub_eq_add_neg,
      BitVec.add_assoc, BitVec.add_comm (-1), BitVec.add_assoc]
  have he : n - (r + 1) = n - 1 - r := by
    rw [hne, BitVec.sub_eq_add_neg, BitVec.sub_eq_add_neg, BitVec.sub_eq_add_neg, BitVec.neg_add,
      BitVec.sub_eq_add_neg, BitVec.add_assoc]
  rw [count_pred h, count, he, count]

/-- Taking back the writer's last element. -/
theorem contents_back (h : count r n ≠ 0) :
    contents c data r n = contents c data r (n - 1) ++ [data (slot c (n - 1))] := by
  unfold contents
  rw [count_back h, List.range_succ, List.map_append, List.map_singleton, add_count]

/-! ### A third counter between the two -/

/-- The counter `m` lies between the two. -/
def Between (r m n : BitVec w) : Prop := count r m + count m n = count r n

variable {m : BitVec w}

@[simp] theorem between_left : Between r r n := by simp [Between]

@[simp] theorem between_right : Between r n n := by simp [Between]

theorem Between.push (h : Between r m n) (hlt : count r n + 1 < 2 ^ w) : Between r m (n + 1) := by
  unfold Between at h ⊢
  rw [count_succ hlt, count_succ (by omega)]
  omega

theorem Between.back (h : Between r m n) (hne : m ≠ n) : Between r m (n - 1) := by
  have hm := count_back (mt count_eq_zero.mp hne)
  have hr : count r n ≠ 0 := by
    unfold Between at h
    omega
  have := count_back hr
  unfold Between at h ⊢
  omega

theorem Between.pop (h : Between r m n) (hne : r ≠ m) : Between (r + 1) m n := by
  have hm := count_pred (mt count_eq_zero.mp hne)
  have hr : count r n ≠ 0 := by
    unfold Between at h
    omega
  have := count_pred hr
  unfold Between at h ⊢
  omega

theorem contents_append (h : Between r m n) :
    contents c data r n = contents c data r m ++ contents c data m n := by
  unfold contents
  rw [← h, List.range_add, List.map_append, List.map_map]
  congr 1
  refine List.map_congr_left fun j _ => ?_
  simp only [Function.comp_apply]
  rw [BitVec.ofNat_add, ← BitVec.add_assoc, add_count]

/-- Storing at the writer's cell changes nothing before it. -/
theorem contents_update (hc : c ∣ 2 ^ w) (h : Between r m n) (hn : count r n < c) (b : α) :
    contents c (Function.update data (slot c n) b) r m = contents c data r m := by
  unfold contents
  refine List.map_congr_left fun j hj => ?_
  have hlt : j < count r n := by
    have := List.mem_range.mp hj
    unfold Between at h
    omega
  have hne := slot_ne hc (x := r) hlt hn
  rw [add_count] at hne
  rw [Function.update_of_ne hne]

end Xv6.Schemes.Ring
