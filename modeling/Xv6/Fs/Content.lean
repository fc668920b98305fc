import Xv6.Fs.Bmap

/-! @src fs.c | name:readi and writei | layer:proof

    The two loops go over the blocks of a range of bytes. The one that reads leaves the state as it is,
    the one that writes does what `Wrote` says. -/

namespace Xv6.Fs
open Xv6.Disk Xv6.Schemes

section

variable {off m n : ℕ}

theorem Pos.path_subset_span (h : 0 < n) : Pos.path (off / BSIZE) ⊆ Pos.span off n := by
  rw [Pos.span, if_neg (by omega)]
  refine Finset.subset_biUnion_of_mem Pos.path (Finset.mem_Ico.mpr ⟨le_rfl, ?_⟩)
  exact Nat.lt_succ_of_le (Nat.div_le_div_right (by omega))

theorem Pos.span_subset_span (h : m ≤ n) : Pos.span (off + m) (n - m) ⊆ Pos.span off n := by
  rw [Pos.span]
  split_ifs with hz
  · exact Finset.empty_subset _
  · rw [Pos.span, if_neg (by omega)]
    refine Finset.biUnion_subset_biUnion_of_subset_left _ (Finset.Ico_subset_Ico ?_ ?_)
    · exact Nat.div_le_div_right (by omega)
    · exact Nat.succ_le_succ (Nat.div_le_div_right (by omega))

theorem Pos.span_subset_span' (h : m ≤ n) : Pos.span off m ⊆ Pos.span off n := by
  rw [Pos.span]
  split_ifs with hz
  · exact Finset.empty_subset _
  · rw [Pos.span, if_neg (by omega)]
    refine Finset.biUnion_subset_biUnion_of_subset_left _ (Finset.Ico_subset_Ico le_rfl ?_)
    exact Nat.succ_le_succ (Nat.div_le_div_right (by omega))

theorem div_lt_MAXFILE (h : off < MAXFILE * BSIZE) : off / BSIZE < MAXFILE :=
  Nat.div_lt_of_lt_mul (by rwa [Nat.mul_comm])

end

section

variable {τ α : Type} [DecidableEq τ] {p : τ} {x : Option (List UInt8)} {E : End → Prop}
  {s t : Sys τ} {ip : Ip} {fuel off n : ℕ} {src : List UInt8} {R : α → Sys τ → Prop}

/-! ### Reading -/

/-- The part of the bytes in one block. -/
theorem slice_bytes (v : Volume) (i : ℕ) {m : ℕ} (hm : off % BSIZE + m ≤ BSIZE) :
    slice (v.blk (v.ref i (.ofBn (off / BSIZE))).toNat) (off % BSIZE) m =
      (List.range m).map fun j => v.byte i (off + j) := by
  refine List.map_congr_left fun j hj => ?_
  have hlt : off % BSIZE + j < BSIZE :=
    (Nat.add_lt_add_left (List.mem_range.mp hj) _).trans_le hm
  rw [Volume.byte, div_block hlt, mod_block hlt]

theorem readLoop_spec (h : Ready s ip) (hfuel : n ≤ fuel) (hmax : off + n ≤ MAXFILE * BSIZE)
    (hthere : ∀ m < n, s.vol.ref (s.inode ip).inum (.ofBn ((off + m) / BSIZE)) ≠ 0) :
    Wp (Sys.act p x) E (readLoop ip fuel off n) s fun l t =>
      l = (List.range n).map (fun m => s.vol.byte (s.inode ip).inum (off + m)) ∧ t = s := by
  induction fuel generalizing off n with
  | zero =>
    obtain rfl : n = 0 := Nat.le_zero.mp hfuel
    exact Wp.pure ⟨rfl, rfl⟩
  | succ fuel ih =>
    rw [readLoop]
    split_ifs with hn
    · rw [hn]
      exact Wp.pure ⟨rfl, rfl⟩
    · have hr := hthere 0 (Nat.pos_of_ne_zero hn)
      rw [Nat.add_zero] at hr
      refine Wp.bind (bmap_there h (div_lt_MAXFILE (by omega)) hr) ?_
      rintro a t ⟨ha, ht⟩
      rw [ha, ht]
      refine wp_read (l := .block _) (h.ref_lt hr) (h.buf _) ?_
      have hmod := Nat.mod_lt off (show 0 < BSIZE by decide)
      have hm1 : 1 ≤ min n (BSIZE - off % BSIZE) := by omega
      have hm2 : min n (BSIZE - off % BSIZE) ≤ n := Nat.min_le_left _ _
      have hm3 : off % BSIZE + min n (BSIZE - off % BSIZE) ≤ BSIZE := by omega
      generalize min n (BSIZE - off % BSIZE) = m at hm1 hm2 hm3 ⊢
      refine Wp.bind (@ih (off + m) (n - m) (by omega) (by omega) fun j hj => ?_) ?_
      · rw [Nat.add_assoc]
        exact hthere (m + j) (by omega)
      rintro rest t ⟨hrest, ht⟩
      rw [hrest, ht]
      refine Wp.pure ⟨?_, rfl⟩
      calc
        _ = (List.range m).map (fun j => s.vol.byte (s.inode ip).inum (off + j)) ++
            (List.range (n - m)).map fun j => s.vol.byte (s.inode ip).inum (off + m + j) :=
          congrArg (· ++ _) (slice_bytes s.vol _ hm3)
        _ = (List.range (m + (n - m))).map fun j => s.vol.byte (s.inode ip).inum (off + j) := by
          rw [List.range_add, List.map_append, List.map_map]
          simp only [Function.comp_def, Nat.add_assoc]
        _ = _ := by rw [Nat.add_sub_cancel' hm2]

/-- What `readi` reads of a file without holes. -/
theorem readi_spec (h : Ready s ip) (htype : (s.inode ip).d.type ≠ T_DEV)
    (hn : s.vol.NoHoles (s.inode ip).inum) (hoff : off ≤ s.vol.size (s.inode ip).inum)
    (hlt : off + n < 2 ^ 32) :
    Wp (Sys.act p x) E (readi ip off n) s fun r t =>
      r = some (((s.vol.content (s.inode ip).inum).drop off).take n) ∧ t = s := by
  have hsize : s.vol.size (s.inode ip).inum = (s.inode ip).d.size.toNat := by
    rw [Volume.size, vol_ino, h.cache.ino_eq h.loaded]
  refine Wp.perform_bind rfl ?_
  dsimp only
  rw [if_neg htype, Nat.mod_eq_of_lt hlt, ← hsize, if_neg (by omega)]
  have hlen : (if s.vol.size (s.inode ip).inum < off + n then s.vol.size (s.inode ip).inum - off
      else n) = min n (s.vol.size (s.inode ip).inum - off) := by
    split_ifs <;> omega
  rw [hlen]
  have hmin := Nat.min_le_right n (s.vol.size (s.inode ip).inum - off)
  have hmax := hn.1
  refine Wp.bind (readLoop_spec h le_rfl (by omega) fun m hm => hn.2 _ ?_) ?_
  · exact (Nat.div_mul_le_self _ _).trans_lt (by omega)
  rintro l t ⟨hl, ht⟩
  rw [hl, ht]
  refine Wp.pure ⟨congrArg some ?_, rfl⟩
  refine List.ext_getElem (by simp) fun m h1 h2 => ?_
  simp [Volume.content]

/-! ### Writing -/

/-- The part of the write in one block. -/
theorem store_spec {w : Volume} {K : Finset Pos} {f : ℕ × Block → Code α} (h : Writing s ip)
    (hw : Volume.Wrote (s.inode ip).inum off [] K s.vol w)
    (hr : w.ref (s.inode ip).inum (.ofBn (off / BSIZE)) ≠ 0)
    (hlen : off % BSIZE + src.length ≤ BSIZE)
    (hf : ∀ bp w', Volume.Wrote (s.inode ip).inum off src K s.vol w' →
      Wp (Sys.act p x) E (f bp) (s.put ip w') R) :
    Wp (Sys.act p x) E (do
      let bp ← bread (.block (w.ref (s.inode ip).inum (.ofBn (off / BSIZE))).toNat)
      logged bp.1 (overlay bp.2 (off % BSIZE) src)
      brelse bp.1
      f bp) (s.put ip w) R := by
  have ht := h.wrote hw
  have hvol := h.vol_wrote hw
  have hwi := hw.inode.mpr h.inode
  refine wp_write (l := .block _) (fun b => overlay b (off % BSIZE) src) ?_ (ht.buf _) ht.trans ?_
  · exact (hw.sane.data _ _ hwi hr).2.trans_le (hw.sb ▸ h.disk)
  · exact hf _ _ (hw.trans h.inode ((hw.sane.wrote_store hwi hr hlen).mono (Finset.empty_subset _)))

theorem writeLoop_spec (h : Writing s ip) (hfuel : src.length ≤ fuel)
    (hmax : off + src.length ≤ MAXFILE * BSIZE)
    (hroom : Room E s.vol (s.inode ip).inum (Pos.span off src.length)) :
    Wp (Sys.act p x) E (writeLoop ip fuel off src) s fun r t => r = off + src.length ∧ ∃ w,
      Volume.Wrote (s.inode ip).inum off src (Pos.span off src.length) s.vol w ∧
        t = s.put ip w := by
  induction fuel generalizing s off src with
  | zero =>
    obtain rfl : src = [] := List.length_eq_zero_iff.mp (Nat.le_zero.mp hfuel)
    exact Wp.pure ⟨rfl, s.vol, h.wrote_nil off _⟩
  | succ fuel ih =>
    rw [writeLoop]
    split_ifs with hn
    · subst hn
      exact Wp.pure ⟨rfl, s.vol, h.wrote_nil off _⟩
    · have hpos : 0 < src.length := List.length_pos_iff.mpr hn
      have hpath : Pos.path (off / BSIZE) ⊆ Pos.span off src.length := Pos.path_subset_span hpos
      refine Wp.bind (bmap_spec h (div_lt_MAXFILE (by omega)) (hroom.mono hpath) off) ?_
      rintro a t ⟨w, hw, rfl, rfl, ha⟩
      have hmod := Nat.mod_lt off (show 0 < BSIZE by decide)
      have hm1 : 1 ≤ min src.length (BSIZE - off % BSIZE) := by omega
      have hm2 : min src.length (BSIZE - off % BSIZE) ≤ src.length := Nat.min_le_left _ _
      have hm3 : off % BSIZE + min src.length (BSIZE - off % BSIZE) ≤ BSIZE := by omega
      dsimp only
      generalize min src.length (BSIZE - off % BSIZE) = m at hm1 hm2 hm3 ⊢
      have hlen : (src.take m).length = m := by rw [List.length_take, min_eq_left hm2]
      refine store_spec h (hw.mono hpath) ha (by rwa [hlen]) fun bp w1 hw1 => ?_
      -- The rest is written in the state after this block.
      have hspan : Pos.span (off + m) (src.length - m) ⊆ Pos.span off src.length :=
        Pos.span_subset_span hm2
      have hdrop : (src.drop m).length = src.length - m := List.length_drop
      have hrest := @ih _ (off + m) (src.drop m) (h.wrote hw1) (by omega) (by omega)
      rw [put_inum, h.vol_wrote hw1, hdrop] at hrest
      refine (hrest ((hroom.wrote hw1 subset_rfl).mono hspan)).imp ?_
      rintro r t ⟨rfl, w2, hw2, rfl⟩
      have hw2' : Volume.Wrote (s.inode ip).inum (off + (src.take m).length) (src.drop m)
          (Pos.span off src.length) w1 w2 := by
        rw [hlen]
        exact hw2.mono hspan
      have hall := hw1.trans h.inode hw2'
      rw [List.take_append_drop] at hall
      exact ⟨by omega, w2, hall, put_put s ip w1 w2⟩

theorem wp_iupdate {f : Unit → Code α} (hn : s.sb.IBLOCK (s.inode ip).inum < s.disksize)
    (hb : s.buf (s.sb.IBLOCK (s.inode ip).inum) = none) (ho : 1 ≤ s.outstanding)
    (h : Wp (Sys.act p x) E (f ()) (s.setBlk (s.sb.IBLOCK (s.inode ip).inum)
      (putDinode (s.blk (s.sb.IBLOCK (s.inode ip).inum)) ((s.inode ip).inum % IPB)
        (s.inode ip).d)) R) :
    Wp (Sys.act p x) E (iupdate ip >>= f) s R := by
  rw [iupdate, perform, Prog.bind_assoc]
  refine Wp.perform_bind rfl ?_
  simp only [Prog.bind_assoc]
  exact wp_write (l := .inode _) (f := fun _ => f ())
    (fun b => putDinode b ((s.inode ip).inum % IPB) (s.inode ip).d) hn hb ho h

/-- The inode in memory is changed and stored. -/
theorem wp_modify_iupdate {f : Unit → Code α} (g : Dinode → Dinode) (h : Writing s ip)
    (hf : Wp (Sys.act p x) E (f ()) (s.put ip (s.vol.flush (s.inode ip).inum
      (g (s.inode ip).d))) R) :
    Wp (Sys.act p x) E (perform (.modify ip g) >>= fun _ => iupdate ip >>= f) s R := by
  have hinode : (s.setD ip (g (s.inode ip).d)).inode ip =
      { s.inode ip with d := g (s.inode ip).d } := Function.update_self ..
  refine Wp.perform_bind rfl (wp_iupdate ?_ (h.buf _) h.trans ?_)
  · rw [hinode]
    exact h.iblock
  · rw [hinode]
    rw [Sys.put, Volume.flush_ino_self] at hf
    exact hf

theorem writei_spec (h : Writing s ip) (htype : (s.inode ip).d.type ≠ T_DEV)
    (hn : s.vol.NoHoles (s.inode ip).inum) (hoff : off ≤ s.vol.size (s.inode ip).inum)
    (hmax : off + src.length ≤ MAXFILE * BSIZE)
    (hroom : Room E s.vol (s.inode ip).inum (Pos.span off src.length)) :
    Wp (Sys.act p x) E (writei ip src off) s fun r t => r = some src.length ∧ ∃ w,
      Volume.Updated (s.inode ip).inum off src (Pos.span off src.length) s.vol w ∧
        t = s.put ip w := by
  have hsize : s.vol.size (s.inode ip).inum = (s.inode ip).d.size.toNat := by
    rw [Volume.size, vol_ino, h.cache.ino_eq h.loaded]
  have hlt : off + src.length < 2 ^ 32 := hmax.trans_lt (by decide)
  refine Wp.perform_bind rfl ?_
  dsimp only
  rw [if_neg htype, Nat.mod_eq_of_lt hlt, ← hsize, if_neg (by omega), if_neg (not_lt.mpr hmax)]
  refine Wp.bind (writeLoop_spec h le_rfl hmax hroom) ?_
  rintro r t ⟨rfl, w, hw, rfl⟩
  have hsize' : ((s.put ip w).inode ip).d.size.toNat = s.vol.size (s.inode ip).inum := by
    rw [put_inode_self, ← hw.size]
    rfl
  refine Wp.perform_bind rfl ?_
  rw [hsize']
  split_ifs with hgrow
  · refine wp_modify_iupdate _ (h.wrote hw) (Wp.pure ⟨rfl, _, ?_, put_put s ip w _⟩)
    rw [put_inum, h.vol_wrote hw, put_inode_self]
    exact hw.updated_grown h.sane h.inode hn hoff hgrow.2.le hmax rfl
  · refine Wp.pure ⟨rfl, w, ?_, rfl⟩
    rcases Nat.eq_zero_or_pos src.length with hz | hpos
    · refine hw.updated h.sane h.inode hn (by omega) fun k hk => ?_
      rw [Pos.span, if_pos hz] at hk
      exact absurd hk (Finset.notMem_empty k)
    · have hend : off + src.length ≤ s.vol.size (s.inode ip).inum := by omega
      exact hw.updated h.sane h.inode hn hend fun k hk => hn.ref_span_ne_zero hend hk

/-- A write that is refused. -/
theorem writei_none (h : Ready s ip) (htype : (s.inode ip).d.type ≠ T_DEV)
    (hoff : off < 2 ^ 32) (hlen : src.length < 2 ^ 32)
    (hbad : s.vol.size (s.inode ip).inum < off ∨ 2 ^ 32 ≤ off + src.length ∨
      MAXFILE * BSIZE < off + src.length) :
    Wp (Sys.act p x) E (writei ip src off) s fun r t => r = none ∧ t = s := by
  have hsize : s.vol.size (s.inode ip).inum = (s.inode ip).d.size.toNat := by
    rw [Volume.size, vol_ino, h.cache.ino_eq h.loaded]
  refine Wp.perform_bind rfl ?_
  dsimp only
  rw [if_neg htype, ← hsize]
  by_cases h1 : s.vol.size (s.inode ip).inum < off ∨ (off + src.length) % 2 ^ 32 < off
  · rw [if_pos h1]
    exact Wp.pure ⟨rfl, rfl⟩
  · have hlt : off + src.length < 2 ^ 32 := by omega
    rw [if_neg h1, Nat.mod_eq_of_lt hlt, if_pos (by omega)]
    exact Wp.pure ⟨rfl, rfl⟩

/-- An inode is a byte array: `readi` reads what `writei` has written over the old contents. -/
theorem readi_writei (h : Writing s ip) (htype : (s.inode ip).d.type ≠ T_DEV)
    (hn : s.vol.NoHoles (s.inode ip).inum) (p : τ) (x : Option (List UInt8)) (off : ℕ)
    (src : List UInt8) :
    (off ≤ s.vol.size (s.inode ip).inum → off + src.length ≤ MAXFILE * BSIZE →
      s.vol.need (s.inode ip).inum (Pos.span off src.length) ≤ s.vol.freeBlocks.card →
      ∃ t, (writei ip src off).run (Sys.act p x) s = .ok (some src.length, t) ∧
        t.vol.size (s.inode ip).inum = max (s.vol.size (s.inode ip).inum) (off + src.length) ∧
        t.vol.NoHoles (s.inode ip).inum ∧
        (∀ off' n, off' ≤ t.vol.size (s.inode ip).inum → off' + n < 2 ^ 32 →
          ∃ l, (readi ip off' n).run (Sys.act p x) t = .ok (some l, t) ∧
            l.length = min n (t.vol.size (s.inode ip).inum - off') ∧
            l = ((splice (s.vol.content (s.inode ip).inum) off src).drop off').take n) ∧
        ∀ j, j ≠ (s.inode ip).inum → s.vol.Inode j → t.vol.content j = s.vol.content j) ∧
    (off < 2 ^ 32 → src.length < 2 ^ 32 → s.vol.size (s.inode ip).inum < off ∨
        2 ^ 32 ≤ off + src.length ∨ MAXFILE * BSIZE < off + src.length →
      (writei ip src off).run (Sys.act p x) s = .ok (none, s)) := by
  constructor
  · intro hoff hmax hneed
    obtain ⟨r, t, hrun, rfl, w, hw, rfl⟩ :=
      (writei_spec (p := p) (x := x) (E := fun _ => False) h htype hn hoff hmax (.inl hneed)).total
    have hvol := h.cache.vol_put h.loaded hw.local
    have ht := h.toReady.put hw.local hw.sane (hw.inode.mpr h.inode)
    have hsize : w.size (s.inode ip).inum =
        max (s.vol.size (s.inode ip).inum) (off + src.length) := by
      rw [← Volume.length_content, hw.content, length_splice (by rwa [Volume.length_content]),
        Volume.length_content]
    refine ⟨_, hrun, ?_, ?_, ?_, ?_⟩
    · rw [hvol, hsize]
    · rw [hvol]
      exact hw.noHoles
    · intro off' n hoff' hlt
      have htype' : ((s.put ip w).inode ip).d.type ≠ T_DEV := by
        obtain ⟨addrs, size, he⟩ := hw.node
        rw [put_inode_self, he, vol_ino, h.cache.ino_eq h.loaded]
        exact htype
      have hread := readi_spec (p := p) (x := x) (E := fun _ => False) (n := n) ht
        htype' (by rw [put_inum, hvol]; exact hw.noHoles) (by rwa [put_inum]) hlt
      rw [put_inum, hvol, hw.content] at hread
      obtain ⟨l, t, hrun', hl, rfl⟩ := hread.total
      refine ⟨_, hl ▸ hrun', ?_, rfl⟩
      rw [List.length_take, List.length_drop, length_splice (by rwa [Volume.length_content]),
        Volume.length_content, hvol, hsize]
    · intro j hj hji
      rw [hvol]
      exact hw.content_other hj hji
  · intro hoff hlen hbad
    obtain ⟨r, t, hrun, rfl, rfl⟩ :=
      (writei_none (p := p) (x := x) (E := fun _ => False) h.toReady htype hoff hlen hbad).total
    exact hrun

end

/-! ### A disk with one inode -/

/-- A disk of 200 blocks: the inodes are in block 2, the bitmap is block 3. -/
def Superblock.small : Superblock := ⟨200, 196, 2, 0, 2, 2, 3⟩

/-- The disk has one inode, which is in the cache. -/
def Sys.single (d : Dinode) : Sys Unit where
  sb := .small
  disksize := 200
  blk n := if n = 2 then putDinode Block.zero 1 d else if n = 3 then Block.zero.setByte 0 15
    else Block.zero
  buf _ := none
  inode ip := ⟨⟨ROOTDEV, ROOTINO, decide (ip = 0), d⟩, if ip = 0 then 1 else 0, none⟩
  file _ := ⟨.FD_NONE, 0, false, false, 0, 0⟩
  ofile _ _ := none
  cwd _ := none
  outstanding := 1

theorem small_dataStart : Superblock.small.dataStart = 4 := by decide

theorem small_layout : Superblock.small.Layout := ⟨by decide, by decide, by decide⟩

section

variable {d : Dinode}

theorem single_free {b : ℕ} : (Sys.single d).vol.Free b ↔ 4 ≤ b ∧ b < 200 := by
  have hbit : ∀ b, getBit (Block.zero.setByte 0 15) b = decide (b < 4) := by
    intro b
    rw [getBit, Block.byte_setByte]
    by_cases hz : b / 8 = 0
    · have hlow : ∀ b < 8, (15 : UInt8).toNat.testBit (b % 8) = decide (b < 4) := by decide
      rw [if_pos ⟨hz, by rw [hz]; decide⟩, hlow b (by omega)]
    · have hge : ¬ b < 4 := by omega
      rw [if_neg fun h => hz h.1, Block.byte_zero, decide_eq_false hge]
      exact Nat.zero_testBit _
  by_cases hb : b < 200
  · have hblk : (Sys.single d).vol.sb.BBLOCK b = 3 := by
      change b / 4096 + 3 = 3
      omega
    have hmod : b % BPB = b := Nat.mod_eq_of_lt (hb.trans (by decide))
    rw [Volume.Free, hblk, hmod]
    change b < 200 ∧ getBit (Block.zero.setByte 0 15) b = false ↔ _
    rw [hbit b, decide_eq_false_iff_not, not_lt, and_comm]
  · exact iff_of_false (fun h => hb h.1) fun h => hb h.2

theorem single_loaded : Loaded (Sys.single d) 0 := ⟨Int.one_pos, rfl⟩

theorem single_cache : Cache (Sys.single d) where
  dev _ _ := rfl
  unique ip jp hi hj _ := by
    have hzero : ∀ kp, 0 < ((Sys.single d).inode kp).ref → kp = 0 := by
      intro kp hk
      by_contra hne
      have hz : ((Sys.single d).inode kp).ref = 0 := if_neg hne
      exact absurd (hz ▸ hk) (lt_irrefl 0)
    rw [hzero ip hi, hzero jp hj]

theorem single_ino : (Sys.single d).ino 1 = d := single_cache.ino_eq single_loaded

theorem single_disk : (Sys.single d).vol.disk 1 = d := by
  have hb : Superblock.small.IBLOCK 1 = 2 := by decide
  have hblk : (Sys.single d).blk 2 = putDinode Block.zero 1 d := by
    simp only [Sys.single, if_true]
  change getDinode ((Sys.single d).blk (Superblock.small.IBLOCK 1)) (1 % IPB) = d
  rw [hb, hblk, Nat.mod_eq_of_lt (by decide)]
  exact getDinode_putDinode d (by decide)

theorem single_inode {i : ℕ} (h : (Sys.single d).vol.Inode i) : i = 1 := by
  have h1 : 0 < i := h.1
  have h2 : i < 2 := h.2.1
  omega

theorem single_ref (ha : ∀ k, d.addrs k = 0) (k : Pos) : (Sys.single d).vol.ref 1 k = 0 := by
  have hz : ∀ k, ((Sys.single d).vol.ino 1).addrs k = 0 := fun k => by
    rw [vol_ino, single_ino, ha]
  cases k with
  | addr k => exact hz k
  | entry j => exact if_pos (hz indirect)

theorem single_writing (ht : d.type ≠ 0) (ha : ∀ k, d.addrs k = 0) :
    Writing (Sys.single d) 0 where
  cache := single_cache
  loaded := single_loaded
  inode := ⟨Nat.one_pos, Nat.one_lt_two, (congrArg Dinode.type (single_ino (d := d))).trans_ne ht⟩
  sane := {
    layout := small_layout
    data := fun _ k hi hk => absurd (single_ref ha k) (single_inode hi ▸ hk)
    used := fun _ k hi hk => absurd (single_ref ha k) (single_inode hi ▸ hk)
    apart := fun _ _ k _ hi _ hk _ => absurd (single_ref ha k) (single_inode hi ▸ hk)
    free := fun _ hb => small_dataStart.symm ▸ (single_free.mp hb).1 }
  buf _ := rfl
  disk := le_rfl
  trans := le_rfl

theorem single_freeBlocks : (Sys.single d).vol.freeBlocks.card = 196 := by
  have he : (Sys.single d).vol.freeBlocks = Finset.Ico 4 200 := by
    ext b
    rw [Volume.freeBlocks, Finset.mem_filter, single_free, Finset.mem_Ico, Finset.mem_range]
    exact and_iff_right_of_imp fun h => h.2
  rw [he]
  rfl

theorem single_noHoles (hs : d.size = 0) : (Sys.single d).vol.NoHoles 1 := by
  have hz : (Sys.single d).vol.size 1 = 0 := by rw [Volume.size, vol_ino, single_ino, hs]; rfl
  rw [Volume.NoHoles, hz]
  exact ⟨Nat.zero_le _, fun bn hbn => absurd hbn (Nat.not_lt_zero _)⟩

end

theorem readi_writei_single : ∃ t,
    (writei 0 [7] 0).run (Sys.act () none) (Sys.single { Dinode.zero with type := T_FILE }) =
      .ok (some 1, t) := by
  have hw : Writing (Sys.single { Dinode.zero with type := T_FILE }) 0 :=
    single_writing (by decide) fun _ => rfl
  have hneed := Finset.card_filter_le (Pos.span 0 1) fun k =>
    (Sys.single { Dinode.zero with type := T_FILE }).vol.ref 1 k = 0
  have h := (readi_writei hw (show T_FILE ≠ T_DEV by decide) (single_noHoles rfl) () none 0 [7]).1
    (Nat.zero_le _) (by decide) (hneed.trans (by rw [single_freeBlocks]; decide))
  obtain ⟨t, ht, -⟩ := h
  exact ⟨t, ht⟩

end Xv6.Fs
