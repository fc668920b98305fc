import Xv6.Fs.Sequential
import Xv6.Fs.Wrote
import Mathlib.Order.Nat

/-! @src fs.c | name:What writei does to a volume | layer:proof

    The contents of a file are spliced with the bytes that are written, its size grows to their end,
    and the inode is stored if it does. The inode as it is stored stays up to date. -/

namespace Xv6.Fs
open Xv6.Disk

/-- The list with `src` written over it at `off`. -/
def splice (l : List UInt8) (off : ℕ) (src : List UInt8) : List UInt8 :=
  l.take off ++ src ++ l.drop (off + src.length)

section

variable {l src : List UInt8} {off m : ℕ}

theorem length_splice (h : off ≤ l.length) :
    (splice l off src).length = max l.length (off + src.length) := by
  rw [splice, List.length_append, List.length_append, List.length_take, List.length_drop]
  omega

/-- What is written next to what was written before. -/
theorem splice_splice {src' : List UInt8} (h : off ≤ l.length) :
    splice (splice l off src) (off + src.length) src' = splice l off (src ++ src') := by
  have hlen : (l.take off ++ src).length = off + src.length := by
    rw [List.length_append, List.length_take, min_eq_left h]
  rw [splice, splice, List.take_append_of_le_length hlen.ge, List.take_of_length_le hlen.le,
    List.drop_append, hlen, List.drop_of_length_le (by omega), List.drop_drop, splice,
    List.length_append]
  simp only [List.nil_append, List.append_assoc]
  congr 3
  exact congrArg (l.drop ·) (by omega)

theorem getD_splice (h : off ≤ l.length) : (splice l off src).getD m 0 =
    if off ≤ m ∧ m < off + src.length then src.getD (m - off) 0 else l.getD m 0 := by
  have hlen : (l.take off).length = off := by rw [List.length_take, min_eq_left h]
  rw [splice, List.append_assoc]
  by_cases h1 : m < off
  · rw [if_neg (by omega), List.getD_append _ _ _ _ (by omega), List.getD_eq_getElem?_getD,
      List.getElem?_take_of_lt h1, ← List.getD_eq_getElem?_getD]
  · rw [List.getD_append_right _ _ _ _ (by omega), hlen]
    by_cases h2 : m < off + src.length
    · rw [if_pos ⟨by omega, h2⟩, List.getD_append _ _ _ _ (by omega)]
    · rw [if_neg (by omega), List.getD_append_right _ _ _ _ (by omega), List.getD_eq_getElem?_getD,
        List.getElem?_drop, ← List.getD_eq_getElem?_getD]
      exact congrArg (l.getD · 0) (by omega)

end

namespace Volume

/-- The inode is changed, and stored. -/
def flush (v : Volume) (i : ℕ) (d : Dinode) : Volume :=
  (v.setIno i d).store (v.sb.IBLOCK i) (putDinode (v.blk (v.sb.IBLOCK i)) (i % IPB) d)

section

variable {v w : Volume} {i j n m off : ℕ} {k : Pos} {d : Dinode} {K L : Finset Pos}
  {src : List UInt8}

@[simp] theorem length_content (v : Volume) (i : ℕ) : (v.content i).length = v.size i := by
  rw [content, List.length_map, List.length_range]

theorem getD_content (h : m < v.size i) : (v.content i).getD m 0 = v.byte i m := by
  rw [List.getD_eq_getElem _ _ (by rwa [length_content])]
  simp [content]

/-- A list of the bytes of a file. -/
theorem eq_content {l : List UInt8} (hlen : l.length = v.size i)
    (h : ∀ m < v.size i, l.getD m 0 = v.byte i m) : l = v.content i := by
  refine List.ext_getElem (hlen.trans (length_content v i).symm) fun m hl hm => ?_
  rw [← List.getD_eq_getElem l 0 hl, h m (hlen ▸ hl)]
  simp [content]

/-! ### Storing an inode -/

@[simp] theorem flush_sb (v : Volume) (i : ℕ) (d : Dinode) : (v.flush i d).sb = v.sb := rfl

theorem flush_ino_self (v : Volume) (i : ℕ) (d : Dinode) : (v.flush i d).ino i = d :=
  setIno_ino_self v i d

theorem flush_ino_other (h : j ≠ i) : (v.flush i d).ino j = v.ino j := setIno_ino_other h

theorem flush_blk_other (h : n ≠ v.sb.IBLOCK i) : (v.flush i d).blk n = v.blk n :=
  store_blk_other h

theorem disk_flush_self (v : Volume) (i : ℕ) (d : Dinode) : (v.flush i d).disk i = d := by
  rw [disk, flush_sb, flush, store_blk_self]
  exact getDinode_putDinode d (Nat.mod_lt i (by decide))

theorem disk_flush_other (h : j ≠ i) : (v.flush i d).disk j = v.disk j := by
  rw [disk, flush_sb]
  by_cases hb : v.sb.IBLOCK j = v.sb.IBLOCK i
  · have hm : i % IPB ≠ j % IPB := by
      have hq : j / IPB = i / IPB := Nat.add_right_cancel hb
      intro hm
      have h1 := Nat.div_add_mod j IPB
      have h2 := Nat.div_add_mod i IPB
      rw [hq, ← hm] at h1
      exact h (h1.symm.trans h2)
    rw [hb, flush, store_blk_self, getDinode_putDinode_other _ hm, disk, hb]
  · rw [flush_blk_other hb, disk]

/-- The blocks of inodes are no data blocks. -/
theorem Sane.ref_ne_iblock (h : v.Sane) (hi : i < v.sb.ninodes.toNat) (hj : v.Inode j) :
    (v.ref j k).toNat ≠ v.sb.IBLOCK i := by
  by_cases hk : v.ref j k = 0
  · have h1 := h.layout.inodes
    rw [hk, UInt32.toNat_zero, Superblock.IBLOCK]
    exact Nat.ne_of_lt (Nat.lt_of_lt_of_le (by omega) (Nat.le_add_left _ _))
  · have h1 := (h.data j k hj hk).1
    have h2 := iblock_lt h.layout hi
    have h3 := bmapstart_lt_dataStart v.sb
    omega

/-- Fields of the inode change, and not the addresses. -/
theorem Sane.ref_flush (h : v.Sane) (hi : i < v.sb.ninodes.toNat)
    (hd : d.addrs = (v.ino i).addrs) (hj : v.Inode j) : (v.flush i d).ref j k = v.ref j k := by
  have haddrs : ((v.flush i d).ino j).addrs = (v.ino j).addrs := by
    by_cases hji : j = i
    · rw [hji, flush_ino_self, hd]
    · rw [flush_ino_other hji]
  cases k with
  | addr m => rw [ref_addr, haddrs, ref_addr]
  | entry m =>
    have hind : (v.flush i d).ind j = v.ind j := congrFun haddrs indirect
    rw [ref_entry, hind, ref_entry]
    split_ifs with ha
    · rfl
    · have hne := h.ref_ne_iblock (k := .addr Fs.indirect) hi hj
      rw [ref_indirect] at hne
      rw [flush_blk_other hne]

theorem Sane.free_flush (h : v.Sane) (hi : i < v.sb.ninodes.toNat) :
    (v.flush i d).Free n ↔ v.Free n := by
  rw [Free, flush_sb, flush_blk_other]
  · rfl
  · have h1 := iblock_lt h.layout hi
    have h2 := bmapstart_le_bblock v.sb n
    omega

theorem inode_flush (hd : d.type = (v.ino i).type) : (v.flush i d).Inode j ↔ v.Inode j := by
  rw [Inode, Inode, flush_sb]
  by_cases h : j = i
  · rw [h, flush_ino_self, hd]
  · rw [flush_ino_other h]

theorem Sane.flush (h : v.Sane) (hi : i < v.sb.ninodes.toNat) (hd : d.addrs = (v.ino i).addrs)
    (ht : d.type = (v.ino i).type) : (v.flush i d).Sane :=
  h.congr rfl (fun _ => inode_flush ht) (fun _ _ hj => h.ref_flush hi hd hj)
    fun _ => h.free_flush hi

theorem Sane.byte_flush (h : v.Sane) (hi : i < v.sb.ninodes.toNat)
    (hd : d.addrs = (v.ino i).addrs) (hj : v.Inode j) : (v.flush i d).byte j m = v.byte j m := by
  rw [byte, h.ref_flush hi hd hj, flush_blk_other (h.ref_ne_iblock hi hj), byte]

theorem Sane.count_flush (h : v.Sane) (hi : v.Inode i) (hd : d.addrs = (v.ino i).addrs)
    (L : Finset Pos) : (v.flush i d).freeBlocks = v.freeBlocks ∧
      (v.flush i d).need i L = v.need i L := by
  rw [freeBlocks, freeBlocks, need, need]
  simp only [h.free_flush hi.2.1, h.ref_flush hi.2.1 hd hi, flush_sb, and_self]

/-! ### The relation -/

/-- A write of one inode leaves the others. -/
theorem Wrote.local (h : Wrote i off src K v w) (hv : v.Sane) : v.Local i w where
  sb := h.sb
  ino := h.ino
  disk j _ hj := by rw [disk, disk, h.sb, h.blk _ (iblock_lt hv.layout hj)]

/-- `writei` has written `src` to inode `i` at `off`. -/
structure Updated (i off : ℕ) (src : List UInt8) (K : Finset Pos) (v w : Volume) : Prop where
  sb : w.sb = v.sb
  sane : w.Sane
  ino : ∀ j, j ≠ i → w.ino j = v.ino j
  node : ∃ addrs size, w.ino i = { v.ino i with addrs := addrs, size := size }
  disk : ∀ j, j ≠ i → j < v.sb.ninodes.toNat → w.disk j = v.disk j
  stored : v.disk i = v.ino i → w.disk i = w.ino i
  noHoles : w.NoHoles i
  content : w.content i = splice (v.content i) off src
  keep : ∀ j k, v.Inode j → v.ref j k ≠ 0 → w.ref j k = v.ref j k
  other : ∀ j k, j ≠ i → v.Inode j → w.ref j k = v.ref j k
  byte : ∀ j m, j ≠ i → v.Inode j → w.byte j m = v.byte j m
  count : ∀ L, K ⊆ L → w.freeBlocks.card + v.need i L = v.freeBlocks.card + w.need i L

theorem Updated.inode (h : Updated i off src K v w) : w.Inode j ↔ v.Inode j := by
  rw [Inode, Inode, h.sb]
  by_cases hj : j = i
  · obtain ⟨addrs, size, he⟩ := h.node
    rw [hj, he]
  · rw [h.ino j hj]

theorem Updated.local (h : Updated i off src K v w) : v.Local i w := ⟨h.sb, h.ino, h.disk⟩

theorem Updated.content_other (h : Updated i off src K v w) (hji : j ≠ i) (hj : v.Inode j) :
    w.content j = v.content j := by
  have hsize : w.size j = v.size j := by rw [size, h.ino j hji, size]
  rw [Volume.content, hsize, Volume.content]
  exact List.map_congr_left fun m _ => h.byte j m hji hj

/-- The bytes of another inode stay, those of its holes too. -/
theorem Wrote.byte_other (h : Wrote i off src K v w) (hv : v.Sane) (hji : j ≠ i)
    (hj : v.Inode j) : w.byte j m = v.byte j m := by
  by_cases hr : v.ref j (.ofBn (m / BSIZE)) = 0
  · have hpos : 0 < v.sb.bmapstart.toNat := (Nat.succ_pos _).trans_le hv.layout.bitmap
    rw [Volume.byte, h.other j _ hji hj, hr, UInt32.toNat_zero, h.blk 0 hpos, Volume.byte, hr]
    rfl
  · exact h.byte j m hj hr fun he => hji he.1

theorem Wrote.size (h : Wrote i off src K v w) (j : ℕ) : w.size j = v.size j := by
  rw [Volume.size, Volume.size]
  by_cases hj : j = i
  · obtain ⟨addrs, he⟩ := h.node
    rw [hj, he]
  · rw [h.ino j hj]

/-- The blocks below the end of the write are there. -/
theorem Wrote.ref_ne_zero (h : Wrote i off src K v w) (hi : v.Inode i) (hn : v.NoHoles i)
    (hoff : off ≤ v.size i) {bn : ℕ} (hbn : bn * BSIZE < max (v.size i) (off + src.length)) :
    w.ref i (.ofBn bn) ≠ 0 := by
  by_cases hlt : bn * BSIZE < v.size i
  · have hr := hn.2 bn hlt
    rwa [h.keep i _ hi hr]
  · have hm : off + (bn * BSIZE - off) = bn * BSIZE := by omega
    have hf := (h.filled (bn * BSIZE - off) (by omega)).1
    rwa [hm, Nat.mul_div_cancel _ (by decide)] at hf

/-- The bytes below the end of the write. -/
theorem Wrote.byte_eq (h : Wrote i off src K v w) (hi : v.Inode i) (hn : v.NoHoles i)
    (hoff : off ≤ v.size i) (hm : m < max (v.size i) (off + src.length)) :
    (splice (v.content i) off src).getD m 0 = w.byte i m := by
  rw [getD_splice (by rwa [length_content])]
  split_ifs with hin
  · have hf := (h.filled (m - off) (by omega)).2
    rw [Nat.add_sub_cancel' hin.1] at hf
    exact hf.symm
  · have hlt : m < v.size i := by omega
    rw [getD_content hlt]
    refine (h.byte i m hi (hn.2 _ ?_) fun he => hin he.2).symm
    exact (Nat.div_mul_le_self m BSIZE).trans_lt hlt

/-- A write within the file allocates nothing. -/
theorem Wrote.ino_eq (h : Wrote i off src K v w) (hi : v.Inode i)
    (hK : ∀ k ∈ K, v.ref i k ≠ 0) : w.ino i = v.ino i := by
  obtain ⟨addrs, he⟩ := h.node
  have haddrs : addrs = (v.ino i).addrs := by
    funext k
    have hk : w.ref i (.addr k) = v.ref i (.addr k) := by
      by_cases hz : v.ref i (.addr k) = 0
      · by_contra hne
        have hnew := h.new (.addr k) (fun hw => hne (hw.trans hz.symm))
        exact hnew.elim (fun hv => hv hz) fun hm => hK _ hm hz
      · exact h.keep i _ hi hz
    rwa [ref_addr, he, ref_addr] at hk
  rw [he, haddrs]

/-- The positions on the way to a block that is there. -/
theorem ref_path_ne_zero {bn : ℕ} (hr : v.ref i (.ofBn bn) ≠ 0) (hk : k ∈ Pos.path bn) :
    v.ref i k ≠ 0 := by
  rw [Pos.path] at hk
  split_ifs at hk with h
  · rwa [Finset.mem_singleton.mp hk]
  · rcases Finset.mem_insert.mp hk with rfl | hk
    · rw [Pos.ofBn, if_neg h, ref_entry] at hr
      exact fun ha => hr (if_pos ha)
    · rwa [Finset.mem_singleton.mp hk]

/-- The positions of bytes of the file. -/
theorem NoHoles.ref_span_ne_zero (h : v.NoHoles i) (hend : off + n ≤ v.size i)
    (hk : k ∈ Pos.span off n) : v.ref i k ≠ 0 := by
  rw [Pos.span] at hk
  split_ifs at hk with hn
  · exact absurd hk (Finset.notMem_empty k)
  · obtain ⟨bn, hbn, hkb⟩ := Finset.mem_biUnion.mp hk
    have hle : bn ≤ (off + n - 1) / BSIZE := Nat.le_of_lt_succ (Finset.mem_Ico.mp hbn).2
    have hmul := (Nat.le_div_iff_mul_le (show 0 < BSIZE by decide)).mp hle
    exact ref_path_ne_zero (h.2 bn (by omega)) hkb

/-- The size stays. -/
theorem Wrote.updated (h : Wrote i off src K v w) (hv : v.Sane) (hi : v.Inode i)
    (hn : v.NoHoles i) (hend : off + src.length ≤ v.size i) (hK : ∀ k ∈ K, v.ref i k ≠ 0) :
    Updated i off src K v w where
  sb := h.sb
  sane := h.sane
  ino := h.ino
  node := ⟨_, _, h.ino_eq hi hK⟩
  disk := (h.local hv).disk
  stored hd := by
    rw [h.ino_eq hi hK, ← hd, disk, disk, h.sb, h.blk _ (iblock_lt hv.layout hi.2.1)]
  noHoles := by
    rw [NoHoles, h.size]
    refine ⟨hn.1, fun bn hbn => h.ref_ne_zero hi hn (by omega) ?_⟩
    rwa [max_eq_left hend]
  content := by
    refine (eq_content ?_ fun m hm => ?_).symm
    · rw [length_splice (by rw [length_content]; omega), length_content, h.size, max_eq_left hend]
    · rw [h.size] at hm
      exact h.byte_eq hi hn (by omega) (by rwa [max_eq_left hend])
  keep := h.keep
  other := h.other
  byte _ _ hji hj := h.byte_other hv hji hj
  count := h.count

/-- The size grows, and the inode is stored. -/
theorem Wrote.updated_grown (h : Wrote i off src K v w) (hv : v.Sane) (hi : v.Inode i)
    (hn : v.NoHoles i) (hoff : off ≤ v.size i) (hend : v.size i ≤ off + src.length)
    (hmax : off + src.length ≤ MAXFILE * BSIZE)
    (hd : d = { w.ino i with size := UInt32.ofNat (off + src.length) }) :
    Updated i off src K v (w.flush i d) := by
  have hwi := h.inode.mpr hi
  have hni : i < w.sb.ninodes.toNat := hwi.2.1
  have haddrs : d.addrs = (w.ino i).addrs := by rw [hd]
  have href : ∀ j k, v.Inode j → (w.flush i d).ref j k = w.ref j k := fun j k hj =>
    h.sane.ref_flush hni haddrs (h.inode.mpr hj)
  have hsize : (w.flush i d).size i = off + src.length := by
    rw [Volume.size, flush_ino_self, hd, UInt32.toNat_ofNat', Nat.mod_eq_of_lt]
    exact hmax.trans_lt (by decide)
  exact {
    sb := h.sb
    sane := h.sane.flush hni haddrs (by rw [hd])
    ino := fun j hj => (flush_ino_other hj).trans (h.ino j hj)
    node := by
      obtain ⟨addrs, he⟩ := h.node
      exact ⟨addrs, _, by rw [flush_ino_self, hd, he]⟩
    disk := fun j hj hlt => (disk_flush_other hj).trans ((h.local hv).disk j hj hlt)
    stored := fun _ => by rw [disk_flush_self, flush_ino_self]
    noHoles := by
      rw [NoHoles, hsize]
      refine ⟨hmax, fun bn hbn => ?_⟩
      rw [href i _ hi]
      exact h.ref_ne_zero hi hn hoff (by rwa [max_eq_right hend])
    content := by
      refine (eq_content ?_ fun m hm => ?_).symm
      · rw [length_splice (by rwa [length_content]), length_content, hsize, max_eq_right hend]
      · rw [hsize] at hm
        rw [h.sane.byte_flush hni haddrs hwi]
        exact h.byte_eq hi hn hoff (by rwa [max_eq_right hend])
    keep := fun j k hj hk => (href j k hj).trans (h.keep j k hj hk)
    other := fun j k hji hj => (href j k hj).trans (h.other j k hji hj)
    byte := fun j m hji hj => by
      rw [h.sane.byte_flush hni haddrs (h.inode.mpr hj)]
      exact h.byte_other hv hji hj
    count := fun L hL => by
      obtain ⟨hf, hneed⟩ := h.sane.count_flush hwi haddrs L
      rw [hf, hneed]
      exact h.count L hL }

/-! ### One write after the other -/

theorem Updated.mono (h : Updated i off src K v w) (hKL : K ⊆ L) : Updated i off src L v w :=
  { h with count := fun L' hL => h.count L' (hKL.trans hL) }

theorem Updated.refl (hv : v.Sane) (hn : v.NoHoles i) (off : ℕ) (K : Finset Pos) :
    Updated i off [] K v v where
  sb := rfl
  sane := hv
  ino _ _ := rfl
  node := ⟨_, _, rfl⟩
  disk _ _ _ := rfl
  stored hd := hd
  noHoles := hn
  content := by rw [splice, List.append_nil, List.length_nil, Nat.add_zero, List.take_append_drop]
  keep _ _ _ _ := rfl
  other _ _ _ _ := rfl
  byte _ _ _ _ := rfl
  count _ _ := rfl

theorem Updated.trans {u : Volume} {src' : List UInt8} (h : Updated i off src K u v)
    (h' : Updated i (off + src.length) src' K v w) (hoff : off ≤ u.size i) :
    Updated i off (src ++ src') K u w where
  sb := h'.sb.trans h.sb
  sane := h'.sane
  ino j hj := (h'.ino j hj).trans (h.ino j hj)
  node := by
    obtain ⟨a, n, ha⟩ := h.node
    obtain ⟨a', n', ha'⟩ := h'.node
    exact ⟨a', n', by rw [ha', ha]⟩
  disk j hj hlt := (h'.disk j hj (h.sb.symm ▸ hlt)).trans (h.disk j hj hlt)
  stored hd := h'.stored (h.stored hd)
  noHoles := h'.noHoles
  content := by
    rw [h'.content, h.content, splice_splice (by rwa [length_content])]
  keep j k hj hk := by
    have he := h.keep j k hj hk
    exact (h'.keep j k (h.inode.mpr hj) (he.symm ▸ hk)).trans he
  other j k hji hj := (h'.other j k hji (h.inode.mpr hj)).trans (h.other j k hji hj)
  byte j m hji hj := (h'.byte j m hji (h.inode.mpr hj)).trans (h.byte j m hji hj)
  count L hL := by
    have h1 := h.count L hL
    have h2 := h'.count L hL
    omega

theorem Updated.size (h : Updated i off src K v w) (hoff : off ≤ v.size i) :
    w.size i = max (v.size i) (off + src.length) := by
  rw [← length_content, h.content, length_splice (by rwa [length_content]), length_content]

end

end Volume

end Xv6.Fs
