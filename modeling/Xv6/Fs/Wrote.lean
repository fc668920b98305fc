import Xv6.Fs.Volume
import Mathlib.Order.Interval.Finset.Nat
import Mathlib.Data.Finset.Union
import Mathlib.Data.List.GetD

/-! @src fs.c | name:What a write does to a volume | layer:proof

    A write fills empty positions of one inode and stores data in its blocks. The relation says so of
    any number of such steps: what was there stays, but for the bytes that are written, and for each
    position that is filled there is a free block less. -/

namespace Xv6.Fs
open Xv6.Disk

/-- The positions that `bmap` looks at for the `bn`-th block. -/
def Pos.path (bn : ℕ) : Finset Pos :=
  if bn < NDIRECT then {.ofBn bn} else {.addr indirect, .ofBn bn}

/-- The positions of `n` bytes at offset `off`. -/
def Pos.span (off n : ℕ) : Finset Pos :=
  if n = 0 then ∅
  else (Finset.Ico (off / BSIZE) ((off + n - 1) / BSIZE + 1)).biUnion Pos.path

section

variable {off m n : ℕ}

theorem div_block (h : off % BSIZE + m < BSIZE) : (off + m) / BSIZE = off / BSIZE := by
  change off % 512 + m < 512 at h
  change (off + m) / 512 = off / 512
  omega

theorem mod_block (h : off % BSIZE + m < BSIZE) : (off + m) % BSIZE = off % BSIZE + m := by
  change off % 512 + m < 512 at h
  change (off + m) % 512 = off % 512 + m
  omega

/-- Offsets in one block. -/
theorem between_of_div (h : m / BSIZE = off / BSIZE) (hle : off % BSIZE ≤ m % BSIZE)
    (hlt : m % BSIZE < off % BSIZE + n) : off ≤ m ∧ m < off + n := by
  change m / 512 = off / 512 at h
  change off % 512 ≤ m % 512 at hle
  change m % 512 < off % 512 + n at hlt
  omega

end

namespace Volume

/-- The number of positions that have no block. -/
def need (v : Volume) (i : ℕ) (K : Finset Pos) : ℕ := (K.filter fun k => v.ref i k = 0).card

/-- From `v` to `w`, the bytes `src` are written to inode `i` at `off`, and positions of `K` are
    filled. -/
structure Wrote (i off : ℕ) (src : List UInt8) (K : Finset Pos) (v w : Volume) : Prop where
  sb : w.sb = v.sb
  sane : w.Sane
  ino : ∀ j, j ≠ i → w.ino j = v.ino j
  node : ∃ addrs, w.ino i = { v.ino i with addrs := addrs }
  blk : ∀ n < v.sb.bmapstart.toNat, w.blk n = v.blk n
  keep : ∀ j k, v.Inode j → v.ref j k ≠ 0 → w.ref j k = v.ref j k
  other : ∀ j k, j ≠ i → v.Inode j → w.ref j k = v.ref j k
  new : ∀ k, w.ref i k ≠ 0 → v.ref i k ≠ 0 ∨ k ∈ K
  count : ∀ L, K ⊆ L → w.freeBlocks.card + v.need i L = v.freeBlocks.card + w.need i L
  filled : ∀ m < src.length,
    w.ref i (.ofBn ((off + m) / BSIZE)) ≠ 0 ∧ w.byte i (off + m) = src.getD m 0
  byte : ∀ j m, v.Inode j → v.ref j (.ofBn (m / BSIZE)) ≠ 0 →
    ¬ (j = i ∧ off ≤ m ∧ m < off + src.length) → w.byte j m = v.byte j m

section

variable {u v w : Volume} {i j b n off : ℕ} {k : Pos} {K L : Finset Pos} {src src' : List UInt8}
  {x : Block}

theorem Wrote.refl (h : v.Sane) (i off : ℕ) : Wrote i off [] ∅ v v where
  sb := rfl
  sane := h
  ino _ _ := rfl
  node := ⟨_, rfl⟩
  blk _ _ := rfl
  keep _ _ _ _ := rfl
  other _ _ _ _ := rfl
  new _ hk := .inl hk
  count _ _ := rfl
  filled m hm := absurd hm (Nat.not_lt_zero m)
  byte _ _ _ _ _ := rfl

theorem Wrote.inode (h : Wrote i off src K v w) : w.Inode j ↔ v.Inode j := by
  rw [Inode, Inode, h.sb]
  by_cases hj : j = i
  · obtain ⟨addrs, he⟩ := h.node
    rw [hj, he]
  · rw [h.ino j hj]

theorem Wrote.mono (h : Wrote i off src K v w) (hKL : K ⊆ L) : Wrote i off src L v w :=
  { h with
    new := fun k hk => (h.new k hk).imp_right fun hm => hKL hm
    count := fun L' hL => h.count L' (hKL.trans hL) }

/-- One write after the other. -/
theorem Wrote.trans (hi : u.Inode i) (h : Wrote i off src K u v)
    (h' : Wrote i (off + src.length) src' K v w) : Wrote i off (src ++ src') K u w where
  sb := h'.sb.trans h.sb
  sane := h'.sane
  ino j hj := (h'.ino j hj).trans (h.ino j hj)
  node := by
    obtain ⟨a, ha⟩ := h.node
    obtain ⟨a', ha'⟩ := h'.node
    exact ⟨a', by rw [ha', ha]⟩
  blk n hn := (h'.blk n (h.sb.symm ▸ hn)).trans (h.blk n hn)
  keep j k hj hk := by
    have he := h.keep j k hj hk
    exact (h'.keep j k (h.inode.mpr hj) (he.symm ▸ hk)).trans he
  other j k hji hj := (h'.other j k hji (h.inode.mpr hj)).trans (h.other j k hji hj)
  new k hk := by
    rcases h'.new k hk with hv | hm
    · exact h.new k hv
    · exact .inr hm
  count L hL := by
    have h1 := h.count L hL
    have h2 := h'.count L hL
    omega
  filled m hm := by
    rw [List.length_append] at hm
    by_cases hlt : m < src.length
    · obtain ⟨hr, hb⟩ := h.filled m hlt
      have hvi := h.inode.mpr hi
      refine ⟨(h'.keep i _ hvi hr).symm ▸ hr, ?_⟩
      rw [h'.byte i _ hvi hr (fun hin => by omega), hb, List.getD_append _ _ _ _ hlt]
    · have hsub : off + m = off + src.length + (m - src.length) := by omega
      obtain ⟨hr, hb⟩ := h'.filled (m - src.length) (by omega)
      rw [← hsub] at hr hb
      exact ⟨hr, hb.trans (List.getD_append_right _ _ _ _ (not_lt.mp hlt)).symm⟩
  byte j m hj hr hout := by
    rw [List.length_append] at hout
    have hr' := h.keep j _ hj hr
    rw [h'.byte j m (h.inode.mpr hj) (hr'.symm ▸ hr) (fun hin => hout ⟨hin.1, by omega, by omega⟩)]
    exact h.byte j m hj hr fun hin => hout ⟨hin.1, hin.2.1, by omega⟩

/-- One position less is empty, and one block less is free. -/
theorem Sane.count_fill (h : v.Sane) (hi : v.Inode i) (hb : v.Free b) (hk : v.Open i k)
    (hkL : k ∈ L) : (v.fill i b k).freeBlocks.card + v.need i L =
      v.freeBlocks.card + (v.fill i b k).need i L := by
  have hfree : (v.fill i b k).freeBlocks = v.freeBlocks.erase b := by
    ext n
    rw [freeBlocks, fill_sb, Finset.mem_filter, Finset.mem_erase, freeBlocks, Finset.mem_filter,
      h.free_fill hi hb hk]
    exact ⟨fun ⟨h1, h2, h3⟩ => ⟨h3, h1, h2⟩, fun ⟨h3, h1, h2⟩ => ⟨h1, h2, h3⟩⟩
  have hneed : (L.filter fun l => (v.fill i b k).ref i l = 0) =
      (L.filter fun l => v.ref i l = 0).erase k := by
    ext l
    rw [Finset.mem_filter, Finset.mem_erase, Finset.mem_filter, h.ref_fill hi hb hk hi]
    by_cases hl : l = k
    · simp [hl, h.ofNat_ne_zero hb]
    · simp [hl]
  have hbm : b ∈ v.freeBlocks := Finset.mem_filter.mpr ⟨Finset.mem_range.mpr hb.1, hb⟩
  have hkm : k ∈ L.filter fun l => v.ref i l = 0 := Finset.mem_filter.mpr ⟨hkL, hk.empty⟩
  have h1 := Finset.card_erase_add_one hbm
  have h2 := Finset.card_erase_add_one hkm
  rw [need, need, hfree, hneed]
  omega

/-- A position is filled. -/
theorem Sane.wrote_fill (h : v.Sane) (hi : v.Inode i) (hb : v.Free b) (hk : v.Open i k)
    (off : ℕ) : Wrote i off [] {k} v (v.fill i b k) where
  sb := fill_sb v i b k
  sane := h.fill hi hb hk
  ino j hj := fill_ino_other hj
  node := fill_ino v i b k
  blk n hn := by
    have hlt := hn.trans (bmapstart_lt_dataStart v.sb)
    refine fill_blk (fun he => absurd (h.free b hb) (not_le.mpr (he ▸ hlt)))
      (fun he => absurd (bmapstart_le_bblock v.sb b) (not_le.mpr (he ▸ hn))) fun m hm he => ?_
    have hd := h.data i (.addr Fs.indirect) hi (hk.indirect m hm).1
    exact absurd hd.1 (not_le.mpr (he ▸ hlt))
  keep j l hj hl := by
    rw [h.ref_fill hi hb hk hj, if_neg]
    rintro ⟨rfl, rfl⟩
    exact hl hk.empty
  other j l hji hj := by
    rw [h.ref_fill hi hb hk hj, if_neg fun he => hji he.1]
  new l hl := by
    rw [h.ref_fill hi hb hk hi] at hl
    by_cases he : l = k
    · exact .inr (Finset.mem_singleton.mpr he)
    · rw [if_neg fun h => he h.2] at hl
      exact .inl hl
  count L hL := h.count_fill hi hb hk (Finset.singleton_subset_iff.mp hL)
  filled m hm := absurd hm (Nat.not_lt_zero m)
  byte j m hj hr _ := h.byte_fill hi hb hk hj hr

/-- Data is stored within one block. -/
theorem Sane.wrote_store (h : v.Sane) (hi : v.Inode i) (hr : v.ref i (.ofBn (off / BSIZE)) ≠ 0)
    (hlen : off % BSIZE + src.length ≤ BSIZE) :
    Wrote i off src ∅ v (v.store (v.ref i (.ofBn (off / BSIZE))).toNat
      (overlay (v.blk (v.ref i (.ofBn (off / BSIZE))).toNat) (off % BSIZE) src)) where
  sb := rfl
  sane := h.store hi hr
  ino _ _ := rfl
  node := ⟨_, rfl⟩
  blk n hn := by
    refine store_blk_other fun he => ?_
    have hd := (h.data i _ hi hr).1
    rw [← he] at hd
    exact absurd hd (not_le.mpr (hn.trans (bmapstart_lt_dataStart v.sb)))
  keep j k hj _ := h.ref_store hi hr hj
  other j k _ hj := h.ref_store hi hr hj
  new k hk := .inl (by rwa [h.ref_store hi hr hi] at hk)
  count L _ := by
    have hfree : ∀ n, (v.store (v.ref i (.ofBn (off / BSIZE))).toNat
        (overlay (v.blk (v.ref i (.ofBn (off / BSIZE))).toNat) (off % BSIZE) src)).Free n ↔
          v.Free n := fun _ => free_store fun _ hb => (h.ref_ne_bblock hi hr hb).symm
    rw [freeBlocks, freeBlocks, need, need]
    simp only [hfree, h.ref_store hi hr hi, store_sb]
  filled m hm := by
    have hlt : off % BSIZE + m < BSIZE := (Nat.add_lt_add_left hm _).trans_le hlen
    have hdiv := div_block hlt
    have hmod := mod_block hlt
    rw [h.ref_store hi hr hi, h.byte_store hi hr hi (hdiv.symm ▸ hr), hdiv, if_pos ⟨rfl, rfl⟩,
      hmod, byte_overlay hlt, if_pos ⟨by omega, by omega⟩, Nat.add_sub_cancel_left]
    exact ⟨hr, rfl⟩
  byte j m hj hk hout := by
    rw [h.byte_store hi hr hj hk]
    split_ifs with he
    · obtain ⟨rfl, hm⟩ := he
      rw [byte_overlay (Nat.mod_lt m (by decide)), if_neg, byte, hm]
      rintro ⟨h1, h2⟩
      exact hout ⟨rfl, between_of_div hm h1 h2⟩
    · rfl

end

end Volume

end Xv6.Fs
