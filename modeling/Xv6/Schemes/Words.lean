import Xv6.Schemes.Bytes

/-! @scheme words | name:Words in a memory of bytes | family:memory

    Words of 32 bits, their least significant byte first. What is stored is loaded from the same
    address, and is not seen at addresses that do not overlap; several words can be stored at once. -/

namespace Xv6.Schemes.Bytes

def load (m : Mem 32) (a : BitVec 32) : BitVec 32 := BitVec.ofNat 32 (num (read m a 4))

def store (m : Mem 32) (a v : BitVec 32) : Mem 32 := write m a (le 4 v.toNat)

/-- The bytes of some words. -/
def ofWords (l : List (BitVec 32)) : List UInt8 := l.flatMap fun v => le 4 v.toNat

section

variable {w : ℕ} {m m' : Mem w} {a b : BitVec w} {l : List UInt8} {n k : ℕ}

theorem read_congr (h : ∀ x, Within a n x → m x = m' x) (hn : n ≤ 2 ^ w) :
    read m a n = read m' a n :=
  List.map_congr_left fun _ hk => h _ (within_add hn (List.mem_range.mp hk))

/-- Part of what is written. -/
theorem read_write_part (m : Mem w) (a : BitVec w) (h : k + n ≤ l.length) (hl : l.length ≤ 2 ^ w) :
    read (write m a l) (a + BitVec.ofNat w k) n = (l.drop k).take n := by
  refine List.ext_getElem ?_ fun i hi hi' => ?_
  · rw [length_read, List.length_take, List.length_drop]
    omega
  · rw [length_read] at hi
    simp only [read, List.getElem_map, List.getElem_range, write, List.getElem_take, List.getElem_drop]
    rw [BitVec.add_assoc, ← BitVec.ofNat_add, add_sub_self a (by omega), List.getD_eq_getElem _ _ (by omega)]

end

section

variable {m m' : Mem 32} {a b v x : BitVec 32} {l : List (BitVec 32)} {n i : ℕ}

theorem length_store (v : BitVec 32) : (le 4 v.toNat).length = 4 := length_le ..

theorem ofNat_num_le (v : BitVec 32) : BitVec.ofNat 32 (num (le 4 v.toNat)) = v := by
  have hv : v.toNat % 256 ^ 4 = v.toNat := Nat.mod_eq_of_lt v.isLt
  rw [num_le, hv, BitVec.ofNat_toNat, BitVec.setWidth_eq]

theorem le_num {l : List UInt8} : le l.length (num l) = l := by
  induction l with
  | nil => rfl
  | cons b l ih =>
    have hb := b.toNat_lt
    have hdiv : num (b :: l) / 256 = num l := by
      rw [num]
      omega
    have hbyte : UInt8.ofNat (num (b :: l)) = b := by
      rw [← UInt8.toNat_inj, UInt8.toNat_ofNat', num]
      omega
    rw [List.length_cons, le, hdiv, ih, hbyte]

/-- The bytes of a word that is loaded. -/
theorem le_load (m : Mem 32) (a : BitVec 32) : le 4 (load m a).toNat = read m a 4 := by
  have hlen : (read m a 4).length = 4 := length_read ..
  have hnum := num_le 4 (num (read m a 4))
  have hbytes : le 4 (num (read m a 4)) = read m a 4 := hlen ▸ le_num
  rw [hbytes] at hnum
  rw [load, BitVec.toNat_ofNat]
  show le 4 (num (read m a 4) % 256 ^ 4) = _
  rw [← hnum, hbytes]

/-- The same word is the same bytes. -/
theorem eq_of_load (h : load m a = load m' a) (hx : Within a 4 x) : m x = m' x := by
  have hread : read m a 4 = read m' a 4 := by rw [← le_load, ← le_load, h]
  have hk : (x - a).toNat < (read m a 4).length := (length_read m a 4).symm ▸ hx
  have hbyte (m : Mem 32) (hk : (x - a).toNat < (read m a 4).length) : (read m a 4)[(x - a).toNat] = m x := by
    simp only [read, List.getElem_map, List.getElem_range]
    rw [BitVec.ofNat_toNat, BitVec.setWidth_eq, BitVec.add_comm, BitVec.sub_add_cancel]
  rw [← hbyte m hk, ← hbyte m' (hread ▸ hk)]
  simp only [hread]

theorem load_store (m : Mem 32) (a v : BitVec 32) : load (store m a v) a = v := by
  have hread : read (store m a v) a 4 = le 4 v.toNat := read_write m a (l := le 4 v.toNat) (by simp)
  rw [load, hread, ofNat_num_le]

theorem load_congr (h : ∀ x, Within a 4 x → m x = m' x) : load m a = load m' a := by
  rw [load, read_congr h (by decide), load]

theorem store_other (h : ¬ Within a 4 x) : store m a v x = m x := write_other (by rwa [length_store])

theorem load_store_apart (h : Apart a 4 b 4) : load (store m a v) b = load m b :=
  load_congr fun x hx => store_other fun ha => h x ⟨ha, hx⟩

theorem length_ofWords (l : List (BitVec 32)) : (ofWords l).length = 4 * l.length := by
  induction l with
  | nil => rfl
  | cons v l ih =>
    rw [ofWords, List.flatMap_cons, List.length_append, length_le, List.length_cons]
    have ih : (l.flatMap fun v => le 4 v.toNat).length = 4 * l.length := ih
    omega

theorem ofWords_part (h : i < l.length) : ((ofWords l).drop (4 * i)).take 4 = le 4 (l[i]).toNat := by
  induction l generalizing i with
  | nil => exact absurd h (Nat.not_lt_zero i)
  | cons v l ih =>
    rw [ofWords, List.flatMap_cons]
    cases i with
    | zero => exact List.take_left' (length_store v)
    | succ i =>
      have hdrop : 4 * (i + 1) = (le 4 v.toNat).length + 4 * i := by
        rw [length_le]
        omega
      rw [hdrop, List.drop_append, List.drop_eq_nil_of_le (by omega), Nat.add_sub_cancel_left,
        List.nil_append, List.getElem_cons_succ]
      exact ih (Nat.lt_of_succ_lt_succ h)

/-- One of several words that are stored together. -/
theorem load_write_words (m : Mem 32) (a : BitVec 32) (h : i < l.length) (hl : 4 * l.length ≤ 2 ^ 32) :
    load (write m a (ofWords l)) (a + BitVec.ofNat 32 (4 * i)) = l[i] := by
  have hlen := length_ofWords l
  rw [load, read_write_part m a (by omega) (by omega), ofWords_part h, ofNat_num_le]

end

end Xv6.Schemes.Bytes
