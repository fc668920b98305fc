import Mathlib.Data.List.GetD
import Mathlib.Data.BitVec
import Mathlib.Tactic.Ring

/-! @scheme bytes | name:Memory as bytes | family:memory

    A memory of bytes with addresses of `w` bits, which wrap. What is written is a list of bytes
    from an address on, and numbers are stored with their least significant byte first. -/

namespace Xv6.Schemes.Bytes

variable {w : ℕ}

abbrev Mem (w : ℕ) : Type := BitVec w → UInt8

/-- `x` is one of the `n` bytes from `a` on. -/
def Within (a : BitVec w) (n : ℕ) (x : BitVec w) : Prop := (x - a).toNat < n

instance (a : BitVec w) (n : ℕ) (x : BitVec w) : Decidable (Within a n x) :=
  inferInstanceAs (Decidable (_ < _))

/-- The `n` bytes from `a` on and the `k` bytes from `b` on do not overlap. -/
def Apart (a : BitVec w) (n : ℕ) (b : BitVec w) (k : ℕ) : Prop := ∀ x, ¬ (Within a n x ∧ Within b k x)

def write (m : Mem w) (a : BitVec w) (l : List UInt8) : Mem w := fun x => l.getD (x - a).toNat (m x)

def read (m : Mem w) (a : BitVec w) (n : ℕ) : List UInt8 :=
  (List.range n).map fun k => m (a + BitVec.ofNat w k)

/-- Stores one after the other. -/
def writes (m : Mem w) (ss : List (BitVec w × List UInt8)) : Mem w :=
  ss.foldl (fun m s => write m s.1 s.2) m

/-- The `n` lowest bytes of a number. -/
def le : ℕ → ℕ → List UInt8
  | 0, _ => []
  | n + 1, v => UInt8.ofNat v :: le n (v / 256)

def num : List UInt8 → ℕ
  | [] => 0
  | b :: l => b.toNat + 256 * num l

variable {m : Mem w} {a b x : BitVec w} {l : List UInt8} {n k : ℕ}

@[simp] theorem length_le (n v : ℕ) : (le n v).length = n := by
  induction n generalizing v with
  | zero => rfl
  | succ n ih => rw [le, List.length_cons, ih]

theorem num_le (n v : ℕ) : num (le n v) = v % 256 ^ n := by
  induction n generalizing v with
  | zero => rw [le, num, pow_zero, Nat.mod_one]
  | succ n ih =>
    have hpow : 256 ^ (n + 1) = 256 * 256 ^ n := by ring
    have hbyte : (UInt8.ofNat v).toNat = v % 256 := UInt8.toNat_ofNat'
    rw [le, num, ih, hbyte, hpow, Nat.mod_mul]

@[simp] theorem length_read (m : Mem w) (a : BitVec w) (n : ℕ) : (read m a n).length = n := by
  simp [read]

theorem Apart.symm (h : Apart a n b k) : Apart b k a n := fun x hx => h x hx.symm

theorem Apart.mono {n' k' : ℕ} (h : Apart a n b k) (hn : n' ≤ n) (hk : k' ≤ k) :
    Apart a n' b k' := fun x hx => h x ⟨hx.1.trans_le hn, hx.2.trans_le hk⟩

theorem toNat_sub_cases (x a : BitVec w) : (a.toNat ≤ x.toNat ∧ (x - a).toNat = x.toNat - a.toNat) ∨
    (x.toNat < a.toNat ∧ (x - a).toNat = 2 ^ w + x.toNat - a.toNat) := by
  have hx := x.isLt
  have ha := a.isLt
  rw [BitVec.toNat_sub]
  rcases Nat.lt_or_ge x.toNat a.toNat with h | h
  · right
    refine ⟨h, ?_⟩
    rw [Nat.mod_eq_of_lt (by omega)]
    omega
  · left
    refine ⟨h, ?_⟩
    have he : 2 ^ w - a.toNat + x.toNat = x.toNat - a.toNat + 2 ^ w := by omega
    rw [he, Nat.add_mod_right, Nat.mod_eq_of_lt (by omega)]

/-- Neither begins in the other. -/
theorem Apart.of_sub (h : n ≤ (b - a).toNat) (h' : k ≤ (a - b).toNat) : Apart a n b k := by
  rintro x ⟨ha, hb⟩
  unfold Within at ha hb
  have hxa := toNat_sub_cases x a
  have hxb := toNat_sub_cases x b
  have hab := toNat_sub_cases a b
  have hba := toNat_sub_cases b a
  omega

/-- A byte outside of what is written stays. -/
theorem write_other (h : ¬ Within a l.length x) : write m a l x = m x :=
  List.getD_eq_default _ _ (not_lt.mp h)

theorem add_sub_self (a : BitVec w) (hk : k < 2 ^ w) :
    (a + BitVec.ofNat w k - a).toNat = k := by
  rw [BitVec.add_comm, BitVec.add_sub_cancel, BitVec.toNat_ofNat, Nat.mod_eq_of_lt hk]

theorem within_add (hn : n ≤ 2 ^ w) (hk : k < n) : Within a n (a + BitVec.ofNat w k) := by
  unfold Within
  rw [add_sub_self a (hk.trans_le hn)]
  exact hk

/-- What is written is read. -/
theorem read_write (m : Mem w) (a : BitVec w) (h : l.length ≤ 2 ^ w) :
    read (write m a l) a l.length = l := by
  refine List.ext_getElem (length_read ..) fun i hi hl => ?_
  simp only [read, List.getElem_map, List.getElem_range, write]
  rw [add_sub_self a (hl.trans_le h), List.getD_eq_getElem _ _ hl]

/-- What is written elsewhere does not matter. -/
theorem read_write_apart (h : Apart a l.length b n) (hn : n ≤ 2 ^ w) :
    read (write m a l) b n = read m b n := by
  refine List.map_congr_left fun k hk => ?_
  exact write_other fun hx => h _ ⟨hx, within_add hn (List.mem_range.mp hk)⟩

theorem writes_append (m : Mem w) (ss ts : List (BitVec w × List UInt8)) :
    writes m (ss ++ ts) = writes (writes m ss) ts := List.foldl_append

theorem writes_cons (m : Mem w) (s : BitVec w × List UInt8) (ss : List (BitVec w × List UInt8)) :
    writes m (s :: ss) = writes (write m s.1 s.2) ss := rfl

/-- A byte outside of all stores stays. -/
theorem writes_other {ss : List (BitVec w × List UInt8)}
    (h : ∀ s ∈ ss, ¬ Within s.1 s.2.length x) : writes m ss x = m x := by
  induction ss generalizing m with
  | nil => rfl
  | cons s ss ih =>
    obtain ⟨hs, hss⟩ := List.forall_mem_cons.mp h
    rw [writes_cons, ih hss, write_other hs]

theorem read_writes_apart {ss : List (BitVec w × List UInt8)}
    (h : ∀ s ∈ ss, Apart s.1 s.2.length b n) (hn : n ≤ 2 ^ w) :
    read (writes m ss) b n = read m b n := by
  refine List.map_congr_left fun k hk => ?_
  exact writes_other fun s hs hx => h s hs _ ⟨hx, within_add hn (List.mem_range.mp hk)⟩

/-- The last store to a place is what is read there. -/
theorem read_writes_last (m : Mem w) (ss ts : List (BitVec w × List UInt8)) (h : l.length ≤ 2 ^ w)
    (hts : ∀ t ∈ ts, Apart t.1 t.2.length a l.length) :
    read (writes m (ss ++ (a, l) :: ts)) a l.length = l := by
  rw [writes_append, writes_cons, read_writes_apart hts h, read_write _ _ h]

/-- A list of bytes is stored in two parts. -/
theorem write_append (m : Mem w) (a : BitVec w) {l r : List UInt8} (h : l.length + r.length ≤ 2 ^ w) :
    write m a (l ++ r) = write (write m a l) (a + BitVec.ofNat w l.length) r := by
  funext x
  have hlt := (x - a).isLt
  have hsub : x - (a + BitVec.ofNat w l.length) = x - a - BitVec.ofNat w l.length := by
    rw [sub_add_eq_sub_sub]
  simp only [write]
  rcases Nat.lt_or_ge (x - a).toNat l.length with hk | hk
  · rcases Nat.eq_zero_or_pos r.length with hr | hr
    · obtain rfl := List.eq_nil_of_length_eq_zero hr
      rw [List.append_nil, List.getD_nil]
    · have hlen : (BitVec.ofNat w l.length).toNat = l.length := by
        rw [BitVec.toNat_ofNat]
        exact Nat.mod_eq_of_lt (by omega)
      have hfar : r.length ≤ (x - a - BitVec.ofNat w l.length).toNat := by
        rcases toNat_sub_cases (x - a) (BitVec.ofNat w l.length) with ⟨hle, -⟩ | ⟨-, he⟩
        · omega
        · omega
      rw [List.getD_append _ _ _ _ hk, hsub, List.getD_eq_default _ _ hfar]
  · have hlen : (BitVec.ofNat w l.length).toNat = l.length := by
      rw [BitVec.toNat_ofNat]
      exact Nat.mod_eq_of_lt (by omega)
    have hnear : (x - a - BitVec.ofNat w l.length).toNat = (x - a).toNat - l.length := by
      rcases toNat_sub_cases (x - a) (BitVec.ofNat w l.length) with ⟨-, he⟩ | ⟨hgt, -⟩
      · omega
      · omega
    rw [List.getD_append_right _ _ _ _ hk, hsub, hnear, List.getD_eq_default l _ hk]

/-- Stores that do not overlap can all be read. -/
theorem read_writes_apart_all {ss : List (BitVec w × List UInt8)}
    (h : ss.Pairwise fun s t => Apart s.1 s.2.length t.1 t.2.length) (hmem : (a, l) ∈ ss)
    (hl : l.length ≤ 2 ^ w) : read (writes m ss) a l.length = l := by
  obtain ⟨before, after, rfl⟩ := List.append_of_mem hmem
  have hafter := (List.pairwise_cons.mp (List.pairwise_append.mp h).2.1).1
  exact read_writes_last m before after hl fun t ht => (hafter t ht).symm

end Xv6.Schemes.Bytes
