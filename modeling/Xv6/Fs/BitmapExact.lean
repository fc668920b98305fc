import Xv6.Fs.Alloc
import Xv6.Fs.Bitmap
import Mathlib.Data.Nat.Bitwise

/-! @src fs.c fs.h | name:The bitmap is exact | layer:proof

    The masks stand for bits, and the loops of `balloc` go through the same bits as the index
    arithmetic of `bfree`, so the first free block is found and its bit alone is set. The block itself
    is zeroed after that, whatever it holds: if it is part of the bitmap, its bits are cleared. -/

namespace Xv6.Fs.Bitmap

open Xv6.Disk Xv6.Schemes

/-! ### Bits and masks -/

theorem toNat_sdiv {x c : Uint} (hx : x.toNat < 2 ^ 31) (hc : c.toNat < 2 ^ 31) :
    (x.sdiv c).toNat = x.toNat / c.toNat := by
  have hxm : x.msb = false := BitVec.msb_eq_false_iff_two_mul_lt.mpr (by omega)
  have hcm : c.msb = false := BitVec.msb_eq_false_iff_two_mul_lt.mpr (by omega)
  rw [BitVec.sdiv_eq, hxm, hcm]
  exact BitVec.toNat_udiv

theorem toNat_srem {x c : Uint} (hx : x.toNat < 2 ^ 31) (hc : c.toNat < 2 ^ 31) :
    (x.srem c).toNat = x.toNat % c.toNat := by
  have hxm : x.msb = false := BitVec.msb_eq_false_iff_two_mul_lt.mpr (by omega)
  have hcm : c.msb = false := BitVec.msb_eq_false_iff_two_mul_lt.mpr (by omega)
  rw [BitVec.srem_eq, hxm, hcm]
  exact BitVec.toNat_umod

theorem slt_iff {x : Uint} (hx : x.toNat < 2 ^ 31) : x.slt 4096 ↔ x.toNat < 4096 := by
  have hxi : x.toInt = x.toNat := BitVec.toInt_eq_toNat_of_lt (by omega)
  have hc : (4096 : Uint).toInt = 4096 := rfl
  rw [BitVec.slt_iff_toInt_lt, hxi, hc]
  omega

section

variable {bi : Uint} (data : Block) (h : bi.toNat < 4096)
include h

theorem toNat_byte_index : (bi.sdiv 8).toNat = bi.toNat / 8 := toNat_sdiv (by omega) (by decide)

theorem toNat_mask : (mask bi).toNat = 2 ^ (bi.toNat % 8) := by
  have hrem : (bi.srem 8).toNat = bi.toNat % 8 := toNat_srem (by omega) (by decide)
  have hlt : bi.toNat % 8 < 8 := Nat.mod_lt _ (by decide)
  have hpow : 2 ^ (bi.toNat % 8) < 2 ^ 32 := Nat.pow_lt_pow_right (by decide) (by omega)
  have hone : (1 : Uint).toNat = 1 := rfl
  rw [mask, BitVec.shiftLeft_eq', BitVec.toNat_shiftLeft, hrem, hone, Nat.one_shiftLeft]
  exact Nat.mod_eq_of_lt hpow

theorem toNat_byteOf : (byteOf data bi).toNat = (data.byte (bi.toNat / 8)).toNat := by
  have hbyte := (data.byte (bi.toNat / 8)).toNat_lt
  rw [byteOf, toNat_byte_index h, BitVec.toNat_setWidth, UInt8.toNat_toBitVec]
  omega

theorem masked_eq_zero_iff : byteOf data bi &&& mask bi = 0 ↔ getBit data bi.toNat = false := by
  have hpos : 2 ^ (bi.toNat % 8) ≠ 0 := (Nat.two_pow_pos _).ne'
  have hzero : (0 : Uint).toNat = 0 := rfl
  rw [BitVec.toNat_eq, BitVec.toNat_and, toNat_byteOf data h, toNat_mask h, Nat.and_two_pow, hzero,
    getBit]
  cases (data.byte (bi.toNat / 8)).toNat.testBit (bi.toNat % 8) with
  | false => simp
  | true => simp

theorem set_masked : setByteOf data bi (byteOf data bi ||| mask bi) = setBit data bi.toNat := by
  rw [setByteOf, setBit, toNat_byte_index h]
  congr 1
  apply UInt8.toNat_inj.mp
  rw [UInt8.toNat_ofNat', UInt8.toNat_ofBitVec, BitVec.toNat_setWidth, BitVec.toNat_or,
    toNat_byteOf data h, toNat_mask h]

theorem clear_masked :
    setByteOf data bi (byteOf data bi &&& ~~~ mask bi) = clearBit data bi.toNat := by
  have hlt : bi.toNat % 8 < 8 := Nat.mod_lt _ (by decide)
  have hp8 : 2 ^ (bi.toNat % 8) < 2 ^ 8 := Nat.pow_lt_pow_right (by decide) hlt
  have hp32 : 2 ^ (bi.toNat % 8) < 2 ^ 32 := Nat.pow_lt_pow_right (by decide) (by omega)
  have h8 : 255 - 2 ^ (bi.toNat % 8) = 2 ^ 8 - (2 ^ (bi.toNat % 8) + 1) := by omega
  have h32 : 2 ^ 32 - 1 - 2 ^ (bi.toNat % 8) = 2 ^ 32 - (2 ^ (bi.toNat % 8) + 1) := by omega
  rw [setByteOf, clearBit, toNat_byte_index h]
  congr 1
  apply UInt8.toNat_inj.mp
  rw [UInt8.toNat_ofNat', UInt8.toNat_ofBitVec, BitVec.toNat_setWidth, BitVec.toNat_and,
    BitVec.toNat_not, toNat_byteOf data h, toNat_mask h, h8, h32]
  -- the bits of a byte
  refine Nat.eq_of_testBit_eq fun k => ?_
  simp only [Nat.testBit_mod_two_pow, Nat.testBit_and, Nat.testBit_two_pow_sub_succ hp8,
    Nat.testBit_two_pow_sub_succ hp32]
  by_cases hk : k < 8
  · have hk32 : k < 32 := by omega
    simp [hk, hk32]
  · simp [hk]

end

theorem getBit_clearBit {b : Block} {i j : ℕ} (hi : i < BPB) :
    getBit (clearBit b i) j = if j = i then false else getBit b j := by
  have hlt : i < 512 * 8 := hi
  have hi8 : i / 8 < BSIZE := by
    change i / 8 < 512
    omega
  have hp8 : 2 ^ (i % 8) < 2 ^ 8 := Nat.pow_lt_pow_right (by decide) (Nat.mod_lt i (by decide))
  have h8 : 255 - 2 ^ (i % 8) = 2 ^ 8 - (2 ^ (i % 8) + 1) := by omega
  have hand : (b.byte (i / 8)).toNat &&& (255 - 2 ^ (i % 8)) < 2 ^ 8 :=
    Nat.and_lt_two_pow _ ((Nat.sub_le _ _).trans_lt (by decide))
  rw [getBit, clearBit, Block.byte_setByte]
  by_cases hj : j / 8 = i / 8
  · have hj8 : j % 8 < 8 := Nat.mod_lt j (by decide)
    rw [if_pos ⟨hj, hj ▸ hi8⟩, UInt8.toNat_ofNat', Nat.mod_eq_of_lt hand, Nat.testBit_and, h8,
      Nat.testBit_two_pow_sub_succ hp8, Nat.testBit_two_pow, decide_eq_true hj8, Bool.true_and]
    by_cases hji : j = i
    · rw [if_pos hji, hji]
      simp
    · have hne : i % 8 ≠ j % 8 := by omega
      rw [if_neg hji, getBit, hj, decide_eq_false hne]
      simp
  · rw [if_neg (fun h => hj h.1), if_neg (fun h => hj (by rw [h]))]
    rfl

/-! ### The loops -/

section

variable {size b : Uint} {data : Block}

/-- The inner loop stops at the first bit that is free. -/
theorem bitLoop_some (hb : b.toNat + 4096 ≤ 2 ^ 32) {bi j : Uint} (hbi : bi.toNat ≤ 4096)
    (h : bitLoop size b data bi = some j) :
    (j.toNat < 4096 ∧ b.toNat + j.toNat < size.toNat ∧ getBit data j.toNat = false) ∧
      ∀ i, bi.toNat ≤ i → i < j.toNat → getBit data i = true := by
  fun_induction bitLoop size b data bi with
  | case1 bi hg hfree =>
    obtain rfl := Option.some.inj h
    have hlt : bi.toNat < 4096 := (slt_iff (by omega)).mp hg.1
    have hsize : b.toNat + bi.toNat < size.toNat := by
      have hless := BitVec.lt_def.mp hg.2
      rw [BitVec.toNat_add] at hless
      omega
    exact ⟨⟨hlt, hsize, (masked_eq_zero_iff data hlt).mp hfree⟩, fun i hle hi => by omega⟩
  | case2 bi hg hused ih =>
    have hlt : bi.toNat < 4096 := (slt_iff (by omega)).mp hg.1
    have hsucc : (bi + 1).toNat = bi.toNat + 1 := by
      rw [BitVec.toNat_add]
      exact Nat.mod_eq_of_lt (by show bi.toNat + 1 < _; omega)
    rw [hsucc] at ih
    obtain ⟨hj, hbefore⟩ := ih hlt h
    refine ⟨hj, fun i hle hi => ?_⟩
    rcases Nat.eq_or_lt_of_le hle with rfl | hgt
    · exact eq_true_of_ne_false fun hf => hused ((masked_eq_zero_iff data hlt).mpr hf)
    · exact hbefore i hgt hi
  | case3 bi hg => exact absurd h (by simp)

theorem bitLoop_none (hb : b.toNat + 4096 ≤ 2 ^ 32) {bi : Uint} (hbi : bi.toNat ≤ 4096)
    (h : bitLoop size b data bi = none) :
    ∀ i, bi.toNat ≤ i → i < 4096 → b.toNat + i < size.toNat → getBit data i = true := by
  fun_induction bitLoop size b data bi with
  | case1 bi hg hfree => exact absurd h (by simp)
  | case2 bi hg hused ih =>
    have hlt : bi.toNat < 4096 := (slt_iff (by omega)).mp hg.1
    have hsucc : (bi + 1).toNat = bi.toNat + 1 := by
      rw [BitVec.toNat_add]
      exact Nat.mod_eq_of_lt (by show bi.toNat + 1 < _; omega)
    rw [hsucc] at ih
    intro i hle hi hsize
    rcases Nat.eq_or_lt_of_le hle with rfl | hgt
    · exact eq_true_of_ne_false fun hf => hused ((masked_eq_zero_iff data hlt).mpr hf)
    · exact ih hlt h i hgt hi hsize
  | case3 bi hg =>
    intro i hle hi hsize
    refine absurd ⟨(slt_iff (by omega)).mpr (by omega), ?_⟩ hg
    rw [BitVec.lt_def, BitVec.toNat_add]
    omega

end

/-! ### The bitmap -/

/-- The bit of a block. -/
def bit (sb : Superblock) (blk : Blocks) (b : Uint) : Bool :=
  getBit (blk (BBLOCK b sb)) (b.toNat % 4096)

def Free (sb : Superblock) (blk : Blocks) (b : Uint) : Prop :=
  b < sb.size.toBitVec ∧ bit sb blk b = false

/-- The block is part of the bitmap. -/
def InBitmap (sb : Superblock) (n : Uint) : Prop := ∃ b < sb.size.toBitVec, BBLOCK b sb = n

/-- The bit is set, and then the block is zeroed. -/
def allocated (sb : Superblock) (blk : Blocks) (b : Uint) : Blocks :=
  bzero (Function.update blk (BBLOCK b sb) (setBit (blk (BBLOCK b sb)) (b.toNat % 4096))) b

variable {sb : Superblock} {blk : Blocks} {b : Uint} {s t : Scan} {k : ℕ}

/-- The round that the bit of a block is in. -/
theorem BBLOCK_eq (hk : s.b.toNat = k * 4096) (hlt : s.b.toNat < 2 ^ 31)
    (hb : b.toNat / 4096 = k) : s.b.sdiv 4096 + sb.bmapstart.toBitVec = BBLOCK b sb := by
  have h4096 : (4096 : Uint).toNat = 4096 := rfl
  have hdiv : s.b.sdiv 4096 = b / 4096 := by
    apply BitVec.eq_of_toNat_eq
    rw [toNat_sdiv hlt (by decide), BitVec.toNat_udiv, h4096, hb]
    omega
  rw [BBLOCK, hdiv]

/-- A round takes the first bit that is free in its block, or goes on to the next one. -/
theorem round_cases (hsize : sb.size.toNat < 2 ^ 31) (hk : s.b.toNat = k * 4096)
    (hg : guard sb s) :
    (∃ b, (Free sb s.blk b ∧ b.toNat / 4096 = k) ∧
      round sb s = ⟨allocated sb s.blk b, s.b, some b⟩ ∧
      ∀ b' < b, b'.toNat / 4096 = k → bit sb s.blk b' = true) ∨
    ((∀ b' < sb.size.toBitVec, b'.toNat / 4096 = k → bit sb s.blk b' = true) ∧
      round sb s = { s with b := s.b + 4096 } ∧ (s.b + 4096).toNat = (k + 1) * 4096) := by
  have hless : s.b.toNat < sb.size.toNat := BitVec.lt_def.mp hg.2
  have hsz : sb.size.toBitVec.toNat = sb.size.toNat := UInt32.toNat_toBitVec sb.size
  have hnext : (s.b + 4096).toNat = (k + 1) * 4096 := by
    have h4096 : (4096 : Uint).toNat = 4096 := rfl
    rw [BitVec.toNat_add, h4096]
    omega
  generalize hn : s.b.sdiv 4096 + sb.bmapstart.toBitVec = n
  have hblock : ∀ b' : Uint, b'.toNat / 4096 = k → BBLOCK b' sb = n := by
    intro b' hb'
    rw [← BBLOCK_eq hk (by omega) hb', hn]
  cases hloop : bitLoop sb.size.toBitVec s.b (s.blk n) 0 with
  | some bi =>
    left
    obtain ⟨⟨hbi, hbs, hfree⟩, hbefore⟩ := bitLoop_some (by omega) (by decide) hloop
    have hb : (s.b + bi).toNat = k * 4096 + bi.toNat := by
      rw [BitVec.toNat_add]
      omega
    have hdiv : (s.b + bi).toNat / 4096 = k := by omega
    have hmod : (s.b + bi).toNat % 4096 = bi.toNat := by omega
    refine ⟨s.b + bi, ⟨⟨?_, ?_⟩, hdiv⟩, ?_, ?_⟩
    · rw [BitVec.lt_def, hb, hsz]
      omega
    · rw [bit, hblock _ hdiv, hmod, hfree]
    · rw [allocated, hblock _ hdiv, hmod, ← set_masked _ hbi]
      unfold round
      simp only [hn, hloop]
    · intro b' hlt hb'
      rw [bit, hblock b' hb']
      rw [BitVec.lt_def, hb] at hlt
      exact hbefore _ (Nat.zero_le _) (by omega)
  | none =>
    right
    refine ⟨?_, ?_, hnext⟩
    · intro b' hlt hb'
      rw [BitVec.lt_def, hsz] at hlt
      rw [bit, hblock b' hb']
      exact bitLoop_none (by omega) (by decide) hloop _ (Nat.zero_le _) (Nat.mod_lt _ (by decide))
        (by omega)
    · unfold round
      simp only [hn, hloop]

/-- Nothing is free once the bits up to the end have been seen. -/
theorem not_free_of_used (hle : sb.size.toNat ≤ k * 4096)
    (hused : ∀ b < sb.size.toBitVec, b.toNat < k * 4096 → bit sb blk b = true) :
    ¬ Free sb blk b := by
  rintro ⟨hlt, hclear⟩
  have hless : b.toNat < sb.size.toNat := BitVec.lt_def.mp hlt
  exact absurd ((hused b hlt (by omega)).symm.trans hclear) (by decide)

/-- The outer loop ends: with the first free block taken, or at the end of the bitmap. -/
theorem scan_run (hsize : sb.size.toNat < 2 ^ 31) (n : ℕ) (hret : s.ret = none)
    (hk : s.b.toNat = k * 4096) (hn : sb.size.toNat ≤ (k + n) * 4096)
    (hused : ∀ b < sb.size.toBitVec, b.toNat < k * 4096 → bit sb s.blk b = true) :
    ∃ t, Schemes.Ends (guard sb) (round sb) s t ∧
      ((t.ret = none ∧ t.blk = s.blk ∧ ∀ b, ¬ Free sb s.blk b) ∨
        ∃ b, t.ret = some b ∧ t.blk = allocated sb s.blk b ∧ Free sb s.blk b ∧
          ∀ b' < b, ¬ Free sb s.blk b') := by
  have hsz : sb.size.toBitVec.toNat = sb.size.toNat := UInt32.toNat_toBitVec sb.size
  induction n generalizing s k with
  | zero =>
    refine ⟨s, .stop fun hg => ?_, .inl ⟨hret, rfl, fun b => not_free_of_used hn hused⟩⟩
    have hless : s.b.toNat < sb.size.toNat := BitVec.lt_def.mp hg.2
    omega
  | succ n ih =>
    by_cases hg : guard sb s
    · rcases round_cases hsize hk hg with ⟨b, ⟨hfree, hb⟩, hround, hbefore⟩ | ⟨hfull, hround, hnext⟩
      · refine ⟨round sb s, .step hg (.stop fun hg' => ?_), .inr ⟨b, ?_, ?_, hfree, ?_⟩⟩
        · have hnone := hg'.1
          rw [hround] at hnone
          exact absurd hnone (by simp)
        · rw [hround]
        · rw [hround]
        · intro b' hlt hf
          have hless := BitVec.lt_def.mp hlt
          have hset : bit sb s.blk b' = true := by
            rcases Nat.lt_or_ge b'.toNat (k * 4096) with hbelow | habove
            · exact hused b' hf.1 hbelow
            · exact hbefore b' hlt (by omega)
          exact absurd (hset.symm.trans hf.2) (by decide)
      · have hused' : ∀ b < sb.size.toBitVec, b.toNat < (k + 1) * 4096 → bit sb s.blk b = true := by
          intro b hlt hb
          rcases Nat.lt_or_ge b.toNat (k * 4096) with hbelow | habove
          · exact hused b hlt hbelow
          · exact hfull b hlt (by omega)
        have hn' : sb.size.toNat ≤ (k + 1 + n) * 4096 := by rwa [Nat.add_right_comm, Nat.add_assoc]
        obtain ⟨t, hends, hout⟩ := ih (s := { s with b := s.b + 4096 }) hret hnext hn' hused'
        exact ⟨t, .step hg (hround ▸ hends), hout⟩
    · have hle : sb.size.toNat ≤ s.b.toNat := by
        by_contra hgt
        have hless : s.b < sb.size.toBitVec := by
          rw [BitVec.lt_def, hsz]
          exact not_le.mp hgt
        exact hg ⟨hret, hless⟩
      exact ⟨s, .stop hg, .inl ⟨hret, rfl, fun b => not_free_of_used (hk ▸ hle) hused⟩⟩

/-! ### What is changed -/

/-- One bit of a bitmap block is changed. -/
theorem bit_update {v : Block} {c : Bool}
    (hv : ∀ j, getBit v j = if j = b.toNat % 4096 then c else getBit (blk (BBLOCK b sb)) j)
    (b' : Uint) : bit sb (Function.update blk (BBLOCK b sb) v) b' =
      if b' = b then c else bit sb blk b' := by
  have h4096 : (4096 : Uint).toNat = 4096 := rfl
  rw [bit]
  by_cases hblock : BBLOCK b' sb = BBLOCK b sb
  · have hdiv : b'.toNat / 4096 = b.toNat / 4096 := by
      have hk := congrArg BitVec.toNat ((BitVec.add_left_inj _).mp hblock)
      rwa [BitVec.toNat_udiv, BitVec.toNat_udiv, h4096] at hk
    have hiff : b'.toNat % 4096 = b.toNat % 4096 ↔ b' = b := by
      rw [BitVec.toNat_eq]
      omega
    rw [hblock, Function.update_self, hv, bit, hblock]
    exact if_congr hiff rfl rfl
  · have hne : b' ≠ b := fun he => hblock (by rw [he])
    rw [Function.update_of_ne hblock, if_neg hne, bit]

/-- A block is known by its bits. -/
theorem eq_of_getBit {c d : Block} (h : ∀ i, getBit c i = getBit d i) : c = d := by
  have hbyte : ∀ e : Block, ∀ j : Fin BSIZE, e.byte j.val = e j := fun e j => dif_pos j.isLt
  funext j
  apply UInt8.toNat_inj.mp
  refine Nat.eq_of_testBit_eq fun k => ?_
  rcases Nat.lt_or_ge k 8 with hk | hk
  · have hbit := h (8 * j.val + k)
    have hdiv : (8 * j.val + k) / 8 = j.val := by omega
    have hmod : (8 * j.val + k) % 8 = k := by omega
    rwa [getBit, getBit, hdiv, hmod, hbyte, hbyte] at hbit
  · have hhigh : ∀ b : UInt8, b.toNat.testBit k = false := fun b =>
      Nat.testBit_lt_two_pow (b.toNat_lt.trans_le (Nat.pow_le_pow_right (by decide) hk))
    rw [hhigh, hhigh]

/-- A bit that was clear is cleared again. -/
theorem clearBit_setBit {data : Block} {i : ℕ} (hi : i < BPB) (h : getBit data i = false) :
    clearBit (setBit data i) i = data := by
  refine eq_of_getBit fun j => ?_
  rw [getBit_clearBit hi, getBit_setBit hi]
  by_cases hj : j = i
  · rw [if_pos hj, hj, h]
  · rw [if_neg hj, if_neg hj]

theorem bit_lt (b : Uint) : b.toNat % 4096 < BPB := Nat.mod_lt _ (by decide)

/-- `bfree` of a block in use. -/
theorem bfree_eq (hsb : Superblock.ofBlock (blk 1) = sb) (hused : bit sb blk b = true) :
    bfree blk b = some (Function.update blk (BBLOCK b sb)
      (clearBit (blk (BBLOCK b sb)) (b.toNat % 4096))) := by
  have hmod : (b % 4096).toNat = b.toNat % 4096 := BitVec.toNat_umod
  have hlt : (b % 4096).toNat < 4096 := hmod ▸ bit_lt b
  have hmask : ¬ byteOf (blk (BBLOCK b sb)) (b % 4096) &&& mask (b % 4096) = 0 := by
    rw [masked_eq_zero_iff _ hlt, hmod]
    exact fun hf => absurd (hused.symm.trans hf) (by decide)
  unfold bfree
  simp only [hsb]
  rw [if_neg hmask, clear_masked _ hlt, hmod]

/-- What `balloc` leaves: the first free block, zeroed, and its bit. -/
structure BallocOk (sb : Superblock) (blk : Blocks) (t : Scan) : Prop where
  panics : t.ret = none ↔ ∀ b, ¬ Free sb blk b
  first : ∀ b, t.ret = some b → Free sb blk b ∧ ∀ b' < b, ¬ Free sb blk b'
  zeroed : ∀ b, t.ret = some b → t.blk b = Block.zero
  others : ∀ b, t.ret = some b → ∀ n, n ≠ b → n ≠ BBLOCK b sb → t.blk n = blk n
  sets : ∀ b, t.ret = some b → ¬ InBitmap sb b → ∀ b', InBitmap sb (BBLOCK b' sb) →
    bit sb t.blk b' = if b' = b then true else bit sb blk b'

/-- What `bfree` leaves: its bit is clear. -/
structure BfreeOk (sb : Superblock) (blk : Blocks) (b : Uint) (blk' : Blocks) : Prop where
  others : ∀ n, n ≠ BBLOCK b sb → blk' n = blk n
  clears : ∀ b', bit sb blk' b' = if b' = b then false else bit sb blk b'

theorem allocated_of_ne {n : Uint} (hb : n ≠ b) : allocated sb blk b n =
    Function.update blk (BBLOCK b sb) (setBit (blk (BBLOCK b sb)) (b.toNat % 4096)) n :=
  Function.update_of_ne hb ..

theorem BallocOk.of_taken (ht : t.ret = some b) (hblk : t.blk = allocated sb blk b)
    (hfree : Free sb blk b) (hleast : ∀ b' < b, ¬ Free sb blk b') : BallocOk sb blk t := by
  refine ⟨⟨fun h => ?_, fun h => absurd hfree (h b)⟩, fun b' h => ?_, fun b' h => ?_, fun b' h => ?_,
    fun b' h => ?_⟩
  · exact absurd (h.symm.trans ht) (by simp)
  all_goals obtain rfl : b = b' := Option.some.inj (ht.symm.trans h)
  · exact ⟨hfree, hleast⟩
  · rw [hblk]
    exact Function.update_self ..
  · intro n hn hn'
    rw [hblk, allocated_of_ne hn, Function.update_of_ne hn']
  · intro hout b' hin
    have hne : BBLOCK b' sb ≠ b := fun he => hout (he ▸ hin)
    rw [bit, hblk, allocated_of_ne hne]
    exact bit_update (fun j => getBit_setBit (bit_lt b)) b'

/-- What is freed after it has been allocated is as free as before. -/
theorem bfree_allocated (hsb : Superblock.ofBlock (blk 1) = sb) (h1 : ¬ InBitmap sb 1) (hb1 : b ≠ 1)
    (hfree : Free sb blk b) (hout : ¬ InBitmap sb b) :
    ∃ blk', bfree (allocated sb blk b) b = some blk' ∧ ∀ n, InBitmap sb n → blk' n = blk n := by
  have hself : BBLOCK b sb ≠ b := fun he => hout ⟨b, hfree.1, he⟩
  have hmap : allocated sb blk b (BBLOCK b sb) = setBit (blk (BBLOCK b sb)) (b.toNat % 4096) := by
    rw [allocated_of_ne hself, Function.update_self]
  have hsb' : Superblock.ofBlock (allocated sb blk b 1) = sb := by
    have hne : (1 : Uint) ≠ BBLOCK b sb := fun he => h1 ⟨b, hfree.1, he.symm⟩
    rw [allocated_of_ne hb1.symm, Function.update_of_ne hne, hsb]
  have hused : bit sb (allocated sb blk b) b = true := by
    rw [bit, hmap, getBit_setBit (bit_lt b), if_pos rfl]
  refine ⟨_, bfree_eq hsb' hused, fun n hn => ?_⟩
  by_cases he : n = BBLOCK b sb
  · rw [he, Function.update_self, hmap, clearBit_setBit (bit_lt b) hfree.2]
  · have hne : n ≠ b := fun hnb => hout (hnb ▸ hn)
    rw [Function.update_of_ne he, allocated_of_ne hne, Function.update_of_ne he]

/-- `balloc` takes the first free block and sets its bit alone, unless that block is part of the
    bitmap; `bfree` clears one bit, which undoes it if the superblock has not been taken. -/
theorem bitmap_exact (sb : Superblock) (blk : Blocks) (hsize : sb.size.toNat < 2 ^ 31) :
    (∃ t, Balloc sb blk t ∧ BallocOk sb blk t ∧ ∀ b, t.ret = some b →
      Superblock.ofBlock (blk 1) = sb → ¬ InBitmap sb 1 → b ≠ 1 → ¬ InBitmap sb b →
      ∃ blk', bfree t.blk b = some blk' ∧ ∀ n, InBitmap sb n → blk' n = blk n) ∧
    ∀ b, b < sb.size.toBitVec → bit sb blk b = true → Superblock.ofBlock (blk 1) = sb →
      ∃ blk', bfree blk b = some blk' ∧ BfreeOk sb blk b blk' := by
  constructor
  · have hn : sb.size.toNat ≤ (0 + 2 ^ 19) * 4096 := by omega
    obtain ⟨t, hends, hout⟩ := scan_run (s := ⟨blk, 0, none⟩) hsize (2 ^ 19) rfl (k := 0) rfl hn
      fun b _ hb => absurd hb (by omega)
    refine ⟨t, hends, ?_⟩
    rcases hout with ⟨hnone, hblk, hfull⟩ | ⟨b, hret, hblk, hfree, hleast⟩
    · have hnot : ∀ b, t.ret ≠ some b := fun b hb => absurd (hnone.symm.trans hb) (by simp)
      refine ⟨⟨iff_of_true hnone hfull, ?_, ?_, ?_, ?_⟩, ?_⟩
      all_goals exact fun b hb => absurd hb (hnot b)
    · refine ⟨.of_taken hret hblk hfree hleast, fun b' hb' hsb h1 hb1 hout => ?_⟩
      obtain rfl : b = b' := Option.some.inj (hret.symm.trans hb')
      rw [hblk]
      exact bfree_allocated hsb h1 hb1 hfree hout
  · intro b _ hused hsb
    refine ⟨_, bfree_eq hsb hused, fun n hn => Function.update_of_ne hn .., ?_⟩
    exact bit_update fun j => getBit_clearBit (bit_lt b)

/-! ### The allocator as a program -/

section

variable {v : Volume}

theorem toNat_BBLOCK (hmap : v.sb.BBLOCK b.toNat < 2 ^ 32) :
    (BBLOCK b v.sb).toNat = v.sb.BBLOCK b.toNat := by
  have hdiv : (b / 4096).toNat = b.toNat / 4096 := BitVec.toNat_udiv
  rw [BBLOCK, BitVec.toNat_add, hdiv, UInt32.toNat_toBitVec]
  exact Nat.mod_eq_of_lt hmap

variable (hsize : v.sb.size.toNat < 2 ^ 31) (hmap : ∀ b < v.sb.size.toNat, v.sb.BBLOCK b < 2 ^ 32)
include hmap

theorem free_iff : Free v.sb (fun n => v.blk n.toNat) b ↔ v.Free b.toNat := by
  have hlt : b < v.sb.size.toBitVec ↔ b.toNat < v.sb.size.toNat := BitVec.lt_def
  have hB : BPB = 4096 := rfl
  unfold Free Volume.Free bit
  rw [hlt, hB]
  refine and_congr_right fun h => ?_
  show getBit (v.blk (BBLOCK b v.sb).toNat) _ = false ↔ _
  rw [toNat_BBLOCK (hmap _ h)]

include hsize

/-- The scan takes the block that the program takes, and leaves the same blocks. -/
theorem took_of_balloc (h : Balloc v.sb (fun n => v.blk n.toNat) t) (hret : t.ret = some b) :
    (v.Free b.toNat ∧ ∀ b' < b.toNat, ¬ v.Free b') ∧ ∀ n, t.blk n = (v.took b.toNat).blk n.toNat := by
  have hn : v.sb.size.toNat ≤ (0 + 2 ^ 19) * 4096 := by omega
  obtain ⟨t', hends, hout⟩ := scan_run (s := ⟨fun n => v.blk n.toNat, 0, none⟩) hsize (2 ^ 19) rfl
    (k := 0) rfl hn fun b _ hb => absurd hb (by omega)
  obtain rfl : t = t' := Schemes.Ends.unique h hends
  rcases hout with ⟨hnone, -, -⟩ | ⟨b', hret', hblk, hfree, hleast⟩
  · exact absurd (hnone.symm.trans hret) (by simp)
  · obtain rfl : b' = b := Option.some.inj (hret'.symm.trans hret)
    have hfree' := (free_iff hmap).mp hfree
    refine ⟨⟨hfree', fun c hc hf => ?_⟩, fun n => ?_⟩
    · have hcb : (BitVec.ofNat 32 c).toNat = c := by
        rw [BitVec.toNat_ofNat]
        exact Nat.mod_eq_of_lt (hc.trans b'.isLt)
      refine hleast (BitVec.ofNat 32 c) (BitVec.lt_def.mpr (hcb.symm ▸ hc)) ((free_iff hmap).mpr ?_)
      rwa [hcb]
    · have hblock := toNat_BBLOCK (hmap _ hfree'.1)
      have hB : BPB = 4096 := rfl
      rw [hblk]
      unfold allocated bzero Volume.took Volume.store
      simp only [Function.update_apply, BitVec.toNat_eq, hblock, hB]

end

/-- The program `balloc` does what the scan of its statements does. -/
theorem balloc_logs_of_scan {τ : Type} [DecidableEq τ] {p : τ} {x : Option (List UInt8)} {s : Sys τ}
    (h : Readable s) (hsize : s.sb.size.toNat < 2 ^ 31)
    (hmap : ∀ b < s.sb.size.toNat, s.sb.BBLOCK b < 2 ^ 32)
    (hscan : Balloc s.sb (fun n => s.blk n.toNat) t) (hret : t.ret = some b)
    (hd : b.toNat < s.disksize) (hbuf : s.buf b.toNat = none) :
    ∃ blk, Logs p x balloc s (UInt32.ofNat b.toNat) (s.withBlk blk) {s.sb.BBLOCK b.toNat, b.toNat} ∧
      ∀ n : Uint, blk n.toNat = t.blk n := by
  obtain ⟨⟨hfree, hleast⟩, hblk⟩ := took_of_balloc (v := s.vol) hsize hmap hscan hret
  exact ⟨_, balloc_logs h hfree hd hbuf hleast, fun n => (hblk n).symm⟩

/-! ### The disk of `mkfs` -/

/-- The superblock that `mkfs` writes. -/
def mkfs : Superblock := ⟨1000, 941, 200, 30, 2, 32, 58⟩

/-- Its disk with the first `k` bits of the bitmap set. -/
def image (k : ℕ) : Blocks := fun n =>
  if n = 1 then
    ((((((Block.zero.putInt 0 1000).putInt 1 941).putInt 2 200).putInt 3 30).putInt 4 2).putInt 5
      32).putInt 6 58
  else if n = 58 then fun i => UInt8.ofNat (2 ^ min 8 (k - 8 * i.val) - 1)
  else Block.zero

theorem BBLOCK_mkfs (h : b < mkfs.size.toBitVec) : BBLOCK b mkfs = 58 := by
  have h4096 : (4096 : Uint).toNat = 4096 := rfl
  have hlt : b.toNat < 1000 := BitVec.lt_def.mp h
  have hzero : b / 4096 = 0 := by
    apply BitVec.eq_of_toNat_eq
    rw [BitVec.toNat_udiv, h4096]
    exact Nat.div_eq_of_lt (by omega)
  rw [BBLOCK, hzero]
  rfl

theorem inBitmap_mkfs {n : Uint} : InBitmap mkfs n ↔ n = 58 :=
  ⟨fun ⟨_, hb, he⟩ => he.symm.trans (BBLOCK_mkfs hb), fun he => ⟨0, by decide, he.symm ▸ rfl⟩⟩

/-- With the first `k` bits set, block `k` is the first that is free. -/
theorem free_image (hk : b.toNat < 1000) (hset : ∀ i < b.toNat, getBit (image b.toNat 58) i = true)
    (hclear : getBit (image b.toNat 58) b.toNat = false) :
    Free mkfs (image b.toNat) b ∧ ∀ b' < b, ¬ Free mkfs (image b.toNat) b' := by
  have hlt : b < mkfs.size.toBitVec := BitVec.lt_def.mpr hk
  refine ⟨⟨hlt, ?_⟩, fun b' hb' hf => ?_⟩
  · rw [bit, BBLOCK_mkfs hlt, Nat.mod_eq_of_lt (by omega), hclear]
  · have hless := BitVec.lt_def.mp hb'
    have hbit := hf.2
    rw [bit, BBLOCK_mkfs hf.1, Nat.mod_eq_of_lt (by omega), hset _ hless] at hbit
    exact absurd hbit (by decide)

/-- The first free block is the one that is returned. -/
theorem BallocOk.ret_eq (h : BallocOk sb blk t) (hfree : Free sb blk b)
    (hleast : ∀ b' < b, ¬ Free sb blk b') : t.ret = some b := by
  cases hret : t.ret with
  | none => exact absurd hfree (h.panics.mp hret b)
  | some b' =>
    obtain ⟨hfree', hleast'⟩ := h.first b' hret
    rcases Nat.lt_trichotomy b'.toNat b.toNat with hlt | he | hgt
    · exact absurd hfree' (hleast b' (BitVec.lt_def.mpr hlt))
    · rw [BitVec.eq_of_toNat_eq he]
    · exact absurd hfree (hleast' b (BitVec.lt_def.mpr hgt))

/-- On a fresh disk the first data block is allocated, and freed again. -/
theorem bitmap_exact_mkfs : ∃ t blk', Balloc mkfs (image 59) t ∧ t.ret = some 59 ∧
    bfree t.blk 59 = some blk' ∧ blk' 58 = image 59 58 := by
  obtain ⟨t, hends, hok, hback⟩ := (bitmap_exact mkfs (image 59) (by decide)).1
  obtain ⟨hfree, hleast⟩ := free_image (b := 59) (by decide) (by decide) (by decide)
  have hret := hok.ret_eq hfree hleast
  have h1 : ¬ InBitmap mkfs 1 := inBitmap_mkfs.not.mpr (by decide)
  have h59 : ¬ InBitmap mkfs 59 := inBitmap_mkfs.not.mpr (by decide)
  obtain ⟨blk', hbfree, hsame⟩ := hback 59 hret (by decide) h1 (by decide) h59
  exact ⟨t, blk', hends, hret, hbfree, hsame 58 (inBitmap_mkfs.mpr rfl)⟩

/-- If the bit of the bitmap block itself is clear, the bitmap is cleared. -/
theorem bitmap_block_taken : ∃ t, Balloc mkfs (image 58) t ∧ t.ret = some 58 ∧
    bit mkfs (image 58) 0 = true ∧ bit mkfs t.blk 0 = false := by
  obtain ⟨hfree, hleast⟩ := free_image (b := 58) (by decide) (by decide) (by decide)
  obtain ⟨t, hends, hout⟩ := scan_run (s := ⟨image 58, 0, none⟩) (k := 0)
    (by decide : mkfs.size.toNat < 2 ^ 31) 1 rfl rfl (by decide)
    fun b _ hb => absurd hb (by omega)
  rcases hout with ⟨-, -, hfull⟩ | ⟨b, hret, hblk, hfree', hleast'⟩
  · exact absurd hfree (hfull 58)
  · have hok := BallocOk.of_taken hret hblk hfree' hleast'
    have h58 := hok.ret_eq hfree hleast
    have hzero : t.blk 58 = Block.zero := hok.zeroed 58 h58
    refine ⟨t, hends, h58, by decide, ?_⟩
    rw [bit, BBLOCK_mkfs (by decide), hzero]
    decide

end Xv6.Fs.Bitmap
