import Xv6.Fs.Inode
import Mathlib.Data.Finset.Card
import Mathlib.Data.Finset.Range
import Mathlib.Tactic.ByContra
import Mathlib.Tactic.SplitIfs

/-! @src fs.c mkfs.c | name:Volumes | layer:model,proof

    What the disk and the inode cache say together: the blocks, and an inode for each number. A block
    number stands in an inode or in an indirect block. In a sane volume no two positions have the same
    block, and the free blocks are none of these. A volume changes by a block that fills an empty
    position, by data that is stored in a block of a file, and by fields of an inode. -/

namespace Xv6.Fs
open Xv6.Disk

/-- Where a block number stands: in the inode, or in its indirect block. -/
inductive Pos where
  | addr (i : Slot)
  | entry (j : ℕ)
  deriving DecidableEq

/-- The position of the `bn`-th block of a file. -/
def Pos.ofBn (bn : ℕ) : Pos := if bn < NDIRECT then .addr (direct bn) else .entry (bn - NDIRECT)

structure Volume where
  sb : Superblock
  blk : ℕ → Block
  ino : ℕ → Dinode

namespace Volume

/-- The number of the indirect block. -/
def ind (v : Volume) (i : ℕ) : UInt32 := (v.ino i).addrs indirect

/-- The block number at a position of inode `i`. -/
def ref (v : Volume) (i : ℕ) : Pos → UInt32
  | .addr k => (v.ino i).addrs k
  | .entry j => if v.ind i = 0 then 0 else (v.blk (v.ind i).toNat).getInt j

/-- The `k`-th byte of a file. -/
def byte (v : Volume) (i k : ℕ) : UInt8 :=
  (v.blk (v.ref i (.ofBn (k / BSIZE))).toNat).byte (k % BSIZE)

def size (v : Volume) (i : ℕ) : ℕ := (v.ino i).size.toNat

/-- The contents of a file. -/
def content (v : Volume) (i : ℕ) : List UInt8 := (List.range (v.size i)).map (v.byte i)

/-- An inode that is allocated. -/
def Inode (v : Volume) (i : ℕ) : Prop :=
  0 < i ∧ i < v.sb.ninodes.toNat ∧ (v.ino i).type ≠ 0

/-- The inode as it is stored. -/
def disk (v : Volume) (i : ℕ) : Dinode := getDinode (v.blk (v.sb.IBLOCK i)) (i % IPB)

/-- All blocks below the size are there. -/
def NoHoles (v : Volume) (i : ℕ) : Prop :=
  v.size i ≤ MAXFILE * BSIZE ∧ ∀ bn, bn * BSIZE < v.size i → v.ref i (.ofBn bn) ≠ 0

def Free (v : Volume) (b : ℕ) : Prop :=
  b < v.sb.size.toNat ∧ getBit (v.blk (v.sb.BBLOCK b)) (b % BPB) = false

instance (v : Volume) (b : ℕ) : Decidable (v.Free b) := inferInstanceAs (Decidable (_ ∧ _))

/-- The free blocks. -/
def freeBlocks (v : Volume) : Finset ℕ := (Finset.range v.sb.size.toNat).filter v.Free

end Volume

/-- The first block after the bitmap. -/
def Superblock.dataStart (sb : Superblock) : ℕ := sb.bmapstart.toNat + sb.size.toNat / BPB + 1

/-- The regions of the disk follow each other, as `mkfs` lays them out. -/
structure Superblock.Layout (sb : Superblock) : Prop where
  inodes : 2 ≤ sb.inodestart.toNat
  bitmap : sb.inodestart.toNat + sb.ninodes.toNat / IPB + 1 ≤ sb.bmapstart.toNat
  data : sb.dataStart ≤ sb.size.toNat

namespace Volume

/-- No block number occurs twice, and none is free or outside of the data blocks. -/
structure Sane (v : Volume) : Prop where
  layout : v.sb.Layout
  data : ∀ i k, v.Inode i → v.ref i k ≠ 0 →
    v.sb.dataStart ≤ (v.ref i k).toNat ∧ (v.ref i k).toNat < v.sb.size.toNat
  used : ∀ i k, v.Inode i → v.ref i k ≠ 0 → ¬ v.Free (v.ref i k).toNat
  apart : ∀ i j k l, v.Inode i → v.Inode j → v.ref i k ≠ 0 → v.ref i k = v.ref j l → i = j ∧ k = l
  free : ∀ b, v.Free b → v.sb.dataStart ≤ b

/-- A block is stored. -/
def store (v : Volume) (n : ℕ) (x : Block) : Volume := { v with blk := Function.update v.blk n x }

/-- An inode is changed. -/
def setIno (v : Volume) (i : ℕ) (d : Dinode) : Volume :=
  { v with ino := Function.update v.ino i d }

/-- Block `b` is taken from the free blocks and zeroed. -/
def took (v : Volume) (b : ℕ) : Volume :=
  (v.store (v.sb.BBLOCK b) (setBit (v.blk (v.sb.BBLOCK b)) (b % BPB))).store b Block.zero

/-- Block `b` is taken for a position of inode `i`. -/
def fill (v : Volume) (i b : ℕ) : Pos → Volume
  | .addr k => (v.took b).setIno i (setAddr k (UInt32.ofNat b) (v.ino i))
  | .entry j => (v.took b).store (v.ind i).toNat
      (((v.took b).blk (v.ind i).toNat).putInt j (UInt32.ofNat b))

end Volume

/-! ### Positions -/

section

variable {bn bn' : ℕ}

theorem direct_val (h : bn < NDIRECT) : (direct bn).val = bn := by
  rw [direct, Fin.val_ofNat]
  exact Nat.mod_eq_of_lt (Nat.lt_succ_of_lt h)

theorem direct_ne_indirect (h : bn < NDIRECT) : direct bn ≠ indirect := by
  intro he
  have hval := congrArg Fin.val he
  rw [direct_val h] at hval
  exact absurd hval (Nat.ne_of_lt h)

theorem Pos.ofBn_ne_indirect (bn : ℕ) : Pos.ofBn bn ≠ .addr indirect := by
  rw [ofBn]
  split_ifs with h
  · exact fun he => direct_ne_indirect h (Pos.addr.inj he)
  · exact fun he => Pos.noConfusion he

theorem Pos.ofBn_inj (h : Pos.ofBn bn = Pos.ofBn bn') : bn = bn' := by
  rw [ofBn, ofBn] at h
  split_ifs at h with h1 h2 h2
  · rw [← direct_val h1, ← direct_val h2, Pos.addr.inj h]
  · have he := Pos.entry.inj h
    omega

end

namespace Volume

section

variable {v : Volume} {i j b n : ℕ} {k l : Pos} {d : Dinode} {x : Block}

/-! ### Regions -/

theorem bblock_lt (b : ℕ) (hb : b < v.sb.size.toNat) : v.sb.BBLOCK b < v.sb.dataStart := by
  have hle : b / BPB ≤ v.sb.size.toNat / BPB := Nat.div_le_div_right hb.le
  rw [Superblock.BBLOCK, Superblock.dataStart]
  omega

theorem iblock_lt (h : v.sb.Layout) (hi : i < v.sb.ninodes.toNat) :
    v.sb.IBLOCK i < v.sb.bmapstart.toNat := by
  have hle : i / IPB ≤ v.sb.ninodes.toNat / IPB := Nat.div_le_div_right hi.le
  have hb := h.bitmap
  rw [Superblock.IBLOCK]
  omega

theorem bmapstart_le_bblock (sb : Superblock) (b : ℕ) : sb.bmapstart.toNat ≤ sb.BBLOCK b :=
  Nat.le_add_left _ _

theorem bmapstart_lt_dataStart (sb : Superblock) : sb.bmapstart.toNat < sb.dataStart := by
  rw [Superblock.dataStart]
  exact Nat.lt_succ_of_le (Nat.le_add_right _ _)

theorem toNat_ofNat_block (hb : b < v.sb.size.toNat) : (UInt32.ofNat b).toNat = b := by
  rw [UInt32.toNat_ofNat', Nat.mod_eq_of_lt (hb.trans v.sb.size.toNat_lt)]

/-- A free block is not numbered 0. -/
theorem Sane.ofNat_ne_zero (h : v.Sane) (hb : v.Free b) : UInt32.ofNat b ≠ 0 := by
  intro he
  have hz := congrArg UInt32.toNat he
  rw [toNat_ofNat_block hb.1] at hz
  have hd := h.free b hb
  rw [hz, Superblock.dataStart] at hd
  exact absurd hd (by simp)

/-- The block of a position is no free block. -/
theorem Sane.ref_ne (h : v.Sane) (hi : v.Inode i) (hk : v.ref i k ≠ 0) (hb : v.Free b) :
    (v.ref i k).toNat ≠ b :=
  fun he => h.used i k hi hk (he ▸ hb)

theorem Sane.ref_ne_bblock (h : v.Sane) (hi : v.Inode i) (hk : v.ref i k ≠ 0)
    (hb : b < v.sb.size.toNat) : (v.ref i k).toNat ≠ v.sb.BBLOCK b := by
  have h1 := (h.data i k hi hk).1
  have h2 := bblock_lt b hb
  omega

/-! ### Blocks and inodes -/

@[simp] theorem store_sb (v : Volume) (n : ℕ) (x : Block) : (v.store n x).sb = v.sb := rfl

@[simp] theorem store_ino (v : Volume) (n : ℕ) (x : Block) : (v.store n x).ino = v.ino := rfl

@[simp] theorem store_ind (v : Volume) (n : ℕ) (x : Block) (i : ℕ) :
    (v.store n x).ind i = v.ind i := rfl

theorem store_blk_self (v : Volume) (n : ℕ) (x : Block) : (v.store n x).blk n = x :=
  Function.update_self ..

theorem store_blk_other {m : ℕ} (h : m ≠ n) : (v.store n x).blk m = v.blk m :=
  Function.update_of_ne h ..

@[simp] theorem setIno_sb (v : Volume) (i : ℕ) (d : Dinode) : (v.setIno i d).sb = v.sb := rfl

@[simp] theorem setIno_blk (v : Volume) (i : ℕ) (d : Dinode) : (v.setIno i d).blk = v.blk := rfl

theorem setIno_ino_self (v : Volume) (i : ℕ) (d : Dinode) : (v.setIno i d).ino i = d :=
  Function.update_self ..

theorem setIno_ino_other (h : j ≠ i) : (v.setIno i d).ino j = v.ino j :=
  Function.update_of_ne h ..

@[simp] theorem took_sb (v : Volume) (b : ℕ) : (v.took b).sb = v.sb := rfl

@[simp] theorem took_ino (v : Volume) (b : ℕ) : (v.took b).ino = v.ino := rfl

theorem took_blk_self (v : Volume) (b : ℕ) : (v.took b).blk b = Block.zero := store_blk_self ..

theorem took_blk_other (h : n ≠ b) (h' : n ≠ v.sb.BBLOCK b) : (v.took b).blk n = v.blk n := by
  rw [took, store_blk_other h, store_blk_other h']

theorem ref_addr (v : Volume) (i : ℕ) (m : Slot) : v.ref i (.addr m) = (v.ino i).addrs m := rfl

theorem ref_indirect (v : Volume) (i : ℕ) : v.ref i (.addr indirect) = v.ind i := rfl

theorem ref_entry (v : Volume) (i m : ℕ) :
    v.ref i (.entry m) = if v.ind i = 0 then 0 else (v.blk (v.ind i).toNat).getInt m := rfl

/-- The bits of the bitmap after a block is taken that is not in the bitmap itself. -/
theorem free_took (hb : ∀ n < v.sb.size.toNat, v.sb.BBLOCK n ≠ b) :
    (v.took b).Free n ↔ v.Free n ∧ n ≠ b := by
  by_cases hn : n < v.sb.size.toNat
  · have hbb := hb n hn
    rw [Free, took_sb]
    by_cases hnb : v.sb.BBLOCK n = v.sb.BBLOCK b
    · have hblk : (v.took b).blk (v.sb.BBLOCK n) =
          setBit (v.blk (v.sb.BBLOCK b)) (b % BPB) := by
        rw [took, store_blk_other hbb, hnb, store_blk_self]
      have hq : n / BPB = b / BPB := Nat.add_right_cancel hnb
      rw [hblk, getBit_setBit (Nat.mod_lt _ (by decide)), ← hnb]
      by_cases he : n = b
      · rw [he, if_pos rfl]
        simp
      · have hm : n % BPB ≠ b % BPB := by
          intro hm
          have h1 := Nat.div_add_mod n BPB
          have h2 := Nat.div_add_mod b BPB
          rw [hq, hm] at h1
          exact he (h1.symm.trans h2)
        rw [if_neg hm]
        exact (and_iff_left he).symm
    · have he : n ≠ b := fun he => hnb (by rw [he])
      rw [took_blk_other hbb hnb]
      exact (and_iff_left he).symm
  · exact iff_of_false (fun hf => hn hf.1) (fun hf => hn hf.1.1)

theorem Sane.free_took (h : v.Sane) (hb : v.Free b) : (v.took b).Free n ↔ v.Free n ∧ n ≠ b :=
  Volume.free_took fun m hm he => absurd (he ▸ h.free b hb) (not_le.mpr (bblock_lt m hm))

/-! ### Filling a position -/

@[simp] theorem fill_sb (v : Volume) (i b : ℕ) (k : Pos) : (v.fill i b k).sb = v.sb := by
  cases k <;> rfl

/-- The position is empty, and it exists. -/
structure Open (v : Volume) (i : ℕ) (k : Pos) : Prop where
  empty : v.ref i k = 0
  indirect : ∀ m, k = .entry m → v.ind i ≠ 0 ∧ m < NINDIRECT

/-- The blocks that are not touched when a position is filled. -/
theorem fill_blk (hb : n ≠ b) (hbb : n ≠ v.sb.BBLOCK b)
    (ha : ∀ m, k = .entry m → n ≠ (v.ind i).toNat) : (v.fill i b k).blk n = v.blk n := by
  cases k with
  | addr m => exact took_blk_other hb hbb
  | entry m => rw [fill, store_blk_other (ha m rfl), took_blk_other hb hbb]

theorem fill_ino_other (h : j ≠ i) : (v.fill i b k).ino j = v.ino j := by
  cases k with
  | addr m => exact setIno_ino_other h
  | entry m => rfl

theorem fill_ino (v : Volume) (i b : ℕ) (k : Pos) :
    ∃ addrs, (v.fill i b k).ino i = { v.ino i with addrs := addrs } := by
  cases k with
  | addr m => exact ⟨_, setIno_ino_self ..⟩
  | entry m => exact ⟨_, rfl⟩

theorem inode_fill : (v.fill i b k).Inode j ↔ v.Inode j := by
  rw [Inode, Inode, fill_sb]
  by_cases h : j = i
  · obtain ⟨addrs, he⟩ := fill_ino v i b k
    rw [h, he]
  · rw [fill_ino_other h]

/-- The indirect block of an inode is neither free nor in the bitmap. -/
theorem Sane.took_ind (h : v.Sane) (hb : v.Free b) (hj : v.Inode j) (ha : v.ind j ≠ 0) :
    (v.took b).blk (v.ind j).toNat = v.blk (v.ind j).toNat :=
  took_blk_other (h.ref_ne (k := .addr Fs.indirect) hj ha hb)
    (h.ref_ne_bblock (k := .addr Fs.indirect) hj ha hb.1)

theorem Sane.ref_fill_addr (h : v.Sane) (hb : v.Free b) {m : Slot} (hm : v.ref i (.addr m) = 0)
    (hj : v.Inode j) : (v.fill i b (.addr m)).ref j l =
      if j = i ∧ l = .addr m then UInt32.ofNat b else v.ref j l := by
  by_cases hji : j = i
  · subst hji
    have hino : ∀ q, ((v.fill j b (.addr m)).ino j).addrs q =
        if q = m then UInt32.ofNat b else (v.ino j).addrs q := fun q => by
      rw [fill, setIno_ino_self, setAddr]
      exact Function.update_apply ..
    cases l with
    | addr q =>
      rw [ref_addr, hino, ref_addr]
      by_cases hq : q = m
      · rw [if_pos hq, if_pos ⟨rfl, congrArg Pos.addr hq⟩]
      · rw [if_neg hq, if_neg fun he => hq (Pos.addr.inj he.2)]
    | entry q =>
      have hind : (v.fill j b (.addr m)).ind j =
          if indirect = m then UInt32.ofNat b else v.ind j := hino indirect
      have hne : ¬ (j = j ∧ Pos.entry q = .addr m) := fun he => Pos.noConfusion he.2
      rw [if_neg hne, ref_entry, hind, ref_entry]
      by_cases hmi : indirect = m
      · have hempty : v.ind j = 0 := by rwa [← ref_indirect, hmi]
        rw [if_pos hmi, if_neg (h.ofNat_ne_zero hb), toNat_ofNat_block hb.1, if_pos hempty]
        change ((v.took b).blk b).getInt q = 0
        rw [took_blk_self, Block.getInt_zero]
      · rw [if_neg hmi]
        change (if v.ind j = 0 then _ else ((v.took b).blk (v.ind j).toNat).getInt q) = _
        split_ifs with ha
        · rfl
        · rw [h.took_ind hb hj ha]
  · rw [if_neg fun he => hji he.1]
    have hino : (v.fill i b (.addr m)).ino j = v.ino j := fill_ino_other hji
    cases l with
    | addr q => rw [ref_addr, hino, ref_addr]
    | entry q =>
      have hind : (v.fill i b (.addr m)).ind j = v.ind j := congrArg (·.addrs indirect) hino
      rw [ref_entry, hind, ref_entry]
      change (if v.ind j = 0 then _ else ((v.took b).blk (v.ind j).toNat).getInt q) = _
      split_ifs with ha
      · rfl
      · rw [h.took_ind hb hj ha]

theorem Sane.ref_fill_entry (h : v.Sane) (hi : v.Inode i) (hb : v.Free b) {m : ℕ}
    (ha : v.ind i ≠ 0) (hm : m < NINDIRECT) (hj : v.Inode j) : (v.fill i b (.entry m)).ref j l =
      if j = i ∧ l = .entry m then UInt32.ofNat b else v.ref j l := by
  have hind : ∀ j, (v.fill i b (.entry m)).ind j = v.ind j := fun _ => rfl
  cases l with
  | addr q =>
    rw [if_neg fun he => nomatch he.2]
    rfl
  | entry q =>
    rw [ref_entry, hind, ref_entry]
    by_cases haj : v.ind j = 0
    · have hji : j ≠ i := fun he => ha (he ▸ haj)
      rw [if_pos haj, if_neg fun he => hji he.1, if_pos haj]
    · rw [if_neg haj, if_neg haj, fill]
      by_cases hji : j = i
      · subst hji
        rw [store_blk_self, h.took_ind hb hj haj]
        by_cases hq : q = m
        · rw [hq, Block.getInt_putInt_same _ hm, if_pos ⟨rfl, rfl⟩]
        · rw [Block.getInt_putInt_other _ _ hq, if_neg fun he => hq (Pos.entry.inj he.2)]
      · have hne : (v.ind j).toNat ≠ (v.ind i).toNat := fun he =>
          hji (h.apart j i (.addr indirect) (.addr indirect) hj hi haj (UInt32.toNat_inj.mp he)).1
        rw [store_blk_other hne, h.took_ind hb hj haj, if_neg fun he => hji he.1]

/-- The block numbers after a position is filled. -/
theorem Sane.ref_fill (h : v.Sane) (hi : v.Inode i) (hb : v.Free b) (hk : v.Open i k)
    (hj : v.Inode j) :
    (v.fill i b k).ref j l = if j = i ∧ l = k then UInt32.ofNat b else v.ref j l := by
  cases k with
  | addr m => exact h.ref_fill_addr hb hk.empty hj
  | entry m =>
    obtain ⟨ha, hm⟩ := hk.indirect m rfl
    exact h.ref_fill_entry hi hb ha hm hj

theorem free_store (hx : ∀ b < v.sb.size.toNat, v.sb.BBLOCK b ≠ n) :
    (v.store n x).Free b ↔ v.Free b := by
  by_cases hb : b < v.sb.size.toNat
  · rw [Free, store_sb, store_blk_other (hx b hb), Free]
  · exact iff_of_false (fun hf => hb hf.1) (fun hf => hb hf.1)

theorem Sane.free_fill (h : v.Sane) (hi : v.Inode i) (hb : v.Free b) (hk : v.Open i k) :
    (v.fill i b k).Free n ↔ v.Free n ∧ n ≠ b := by
  rw [← h.free_took hb]
  cases k with
  | addr m => exact Iff.rfl
  | entry m =>
    obtain ⟨ha, -⟩ := hk.indirect m rfl
    exact free_store fun n hn => (h.ref_ne_bblock (k := .addr Fs.indirect) hi ha hn).symm

theorem Sane.fill (h : v.Sane) (hi : v.Inode i) (hb : v.Free b) (hk : v.Open i k) :
    (v.fill i b k).Sane where
  layout := (fill_sb v i b k).symm ▸ h.layout
  data := by
    intro j l hj hl
    rw [inode_fill] at hj
    rw [h.ref_fill hi hb hk hj] at hl ⊢
    rw [fill_sb]
    split_ifs at hl ⊢ with he
    · rw [toNat_ofNat_block hb.1]
      exact ⟨h.free b hb, hb.1⟩
    · exact h.data j l hj hl
  used := by
    intro j l hj hl
    rw [inode_fill] at hj
    rw [h.free_fill hi hb hk]
    rw [h.ref_fill hi hb hk hj] at hl ⊢
    split_ifs at hl ⊢ with he
    · rw [toNat_ofNat_block hb.1]
      exact fun hf => hf.2 rfl
    · exact fun hf => h.used j l hj hl hf.1
  apart := by
    intro j j' l l' hj hj' hl he
    rw [inode_fill] at hj hj'
    rw [h.ref_fill hi hb hk hj] at hl he
    rw [h.ref_fill hi hb hk hj'] at he
    have hnew : ∀ {j l}, v.Inode j → v.ref j l ≠ 0 → v.ref j l ≠ UInt32.ofNat b :=
      fun hj hl he => h.ref_ne hj hl hb (by rw [he, toNat_ofNat_block hb.1])
    split_ifs at hl he with h1 h2 h2
    · exact ⟨h1.1.trans h2.1.symm, h1.2.trans h2.2.symm⟩
    · exact absurd he.symm (hnew hj' (he ▸ hl))
    · exact absurd he (hnew hj hl)
    · exact h.apart j j' l l' hj hj' hl he
  free := by
    intro n hn
    rw [fill_sb]
    exact h.free n ((h.free_fill hi hb hk).mp hn).1

/-- The bytes that were there stay when a position is filled. -/
theorem Sane.byte_fill (h : v.Sane) (hi : v.Inode i) (hb : v.Free b) (hk : v.Open i k)
    (hj : v.Inode j) (hn : v.ref j (.ofBn (n / BSIZE)) ≠ 0) :
    (v.fill i b k).byte j n = v.byte j n := by
  have hne : ¬ (j = i ∧ Pos.ofBn (n / BSIZE) = k) := by
    rintro ⟨rfl, rfl⟩
    exact hn hk.empty
  rw [byte, h.ref_fill hi hb hk hj, if_neg hne, byte, fill_blk (h.ref_ne hj hn hb)
    (h.ref_ne_bblock hj hn hb.1)]
  intro m _ he
  exact Pos.ofBn_ne_indirect _ (h.apart j i _ (.addr Fs.indirect) hj hi hn
    (UInt32.toNat_inj.mp he)).2

/-! ### Storing data -/

/-- Data is stored in a block of a file. -/
theorem Sane.ref_store (h : v.Sane) (hi : v.Inode i) {bn : ℕ} (hn : v.ref i (.ofBn bn) ≠ 0)
    (hj : v.Inode j) : (v.store (v.ref i (.ofBn bn)).toNat x).ref j l = v.ref j l := by
  cases l with
  | addr m => rfl
  | entry m =>
    rw [ref_entry, store_ind, ref_entry]
    split_ifs with ha
    · rfl
    · have hne : (v.ind j).toNat ≠ (v.ref i (.ofBn bn)).toNat := fun he =>
        Pos.ofBn_ne_indirect bn
          (h.apart i j _ (.addr indirect) hi hj hn (UInt32.toNat_inj.mp he.symm)).2
      rw [store_blk_other hne]

/-- A volume with the same inodes, block numbers and free blocks. -/
theorem Sane.congr {w : Volume} (h : v.Sane) (hsb : w.sb = v.sb)
    (hinode : ∀ i, w.Inode i ↔ v.Inode i) (href : ∀ i k, v.Inode i → w.ref i k = v.ref i k)
    (hfree : ∀ b, w.Free b ↔ v.Free b) : w.Sane where
  layout := hsb ▸ h.layout
  data := by
    intro i k hi hk
    rw [hinode] at hi
    rw [href i k hi] at hk ⊢
    rw [hsb]
    exact h.data i k hi hk
  used := by
    intro i k hi hk
    rw [hinode] at hi
    rw [href i k hi] at hk ⊢
    rw [hfree]
    exact h.used i k hi hk
  apart := by
    intro i j k l hi hj hk he
    rw [hinode] at hi hj
    rw [href i k hi] at hk he
    rw [href j l hj] at he
    exact h.apart i j k l hi hj hk he
  free := by
    intro b hb
    rw [hsb]
    exact h.free b ((hfree b).mp hb)

theorem Sane.store (h : v.Sane) (hi : v.Inode i) {bn : ℕ} (hn : v.ref i (.ofBn bn) ≠ 0) :
    (v.store (v.ref i (.ofBn bn)).toNat x).Sane :=
  h.congr rfl (fun _ => Iff.rfl) (fun _ _ hj => h.ref_store hi hn hj)
    fun _ => free_store fun _ hb => (h.ref_ne_bblock hi hn hb).symm

theorem Sane.byte_store (h : v.Sane) (hi : v.Inode i) {bn : ℕ} (hn : v.ref i (.ofBn bn) ≠ 0)
    (hj : v.Inode j) (hk : v.ref j (.ofBn (n / BSIZE)) ≠ 0) :
    (v.store (v.ref i (.ofBn bn)).toNat x).byte j n =
      if j = i ∧ n / BSIZE = bn then x.byte (n % BSIZE) else v.byte j n := by
  rw [byte, h.ref_store hi hn hj]
  by_cases he : j = i ∧ n / BSIZE = bn
  · rw [if_pos he, he.1, he.2, store_blk_self]
  · rw [if_neg he, store_blk_other, byte]
    intro heq
    obtain ⟨h1, h2⟩ := h.apart j i _ _ hj hi hk (UInt32.toNat_inj.mp heq)
    exact he ⟨h1, Pos.ofBn_inj h2⟩

end

end Volume

end Xv6.Fs
