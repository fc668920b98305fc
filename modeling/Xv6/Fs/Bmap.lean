import Xv6.Fs.Alloc
import Xv6.Fs.Update
import Mathlib.Order.Nat

/-! @src fs.c | name:The block map of an inode | layer:proof

    `bmap` finds the block of a position or fills the position. A block that is there is found without
    a change of the state. -/

namespace Xv6.Fs
open Xv6.Disk Xv6.Schemes

section

variable {τ : Type}

/-- The inode is in the cache with its contents, and no block is in use. -/
structure Ready (s : Sys τ) (ip : Ip) : Prop where
  cache : Cache s
  loaded : Loaded s ip
  inode : s.vol.Inode (s.inode ip).inum
  sane : s.vol.Sane
  buf : ∀ n, s.buf n = none
  disk : s.sb.size.toNat ≤ s.disksize

/-- The process is in a transaction too. -/
structure Writing (s : Sys τ) (ip : Ip) : Prop extends Ready s ip where
  trans : 1 ≤ s.outstanding

end

/-- There are free blocks for the positions, unless a panic is tolerated. -/
def Room (E : End → Prop) (v : Volume) (i : ℕ) (K : Finset Pos) : Prop :=
  v.need i K ≤ v.freeBlocks.card ∨ E (.panic "balloc: out of blocks")

section

variable {E : End → Prop} {v w : Volume} {i off : ℕ} {K L : Finset Pos} {src : List UInt8}

theorem Volume.need_mono (h : K ⊆ L) : v.need i K ≤ v.need i L :=
  Finset.card_le_card (Finset.filter_subset_filter _ h)

theorem Room.mono (h : Room E v i L) (hKL : K ⊆ L) : Room E v i K :=
  h.imp_left (Volume.need_mono hKL).trans

theorem Room.wrote (h : Room E v i L) (hw : Volume.Wrote i off src K v w) (hKL : K ⊆ L) :
    Room E w i L := by
  refine h.imp_left fun hle => ?_
  have hc := hw.count L hKL
  omega

theorem Room.updated (h : Room E v i L) (hw : Volume.Updated i off src K v w) (hKL : K ⊆ L) :
    Room E w i L := by
  refine h.imp_left fun hle => ?_
  have hc := hw.count L hKL
  omega

/-- Where a position is empty there is a free block. -/
theorem Room.exists_free (h : Room E v i K) {k : Pos} (hk : k ∈ K) (hz : v.ref i k = 0)
    (hE : ¬ E (.panic "balloc: out of blocks")) : ∃ b, v.Free b := by
  have hpos : 0 < v.need i K := Finset.card_pos.mpr ⟨k, Finset.mem_filter.mpr ⟨hk, hz⟩⟩
  obtain ⟨b, hb⟩ := Finset.card_pos.mp (hpos.trans_le (h.resolve_right hE))
  exact ⟨b, (Finset.mem_filter.mp hb).2⟩

end

section

variable {τ : Type} {s t : Sys τ} {ip : Ip} {b off : ℕ} {w : Volume} {K : Finset Pos}
  {src : List UInt8}

theorem Ready.put (h : Ready s ip) (hw : s.vol.Local (s.inode ip).inum w) (hs : w.Sane)
    (hi : w.Inode (s.inode ip).inum) : Ready (s.put ip w) ip where
  cache := h.cache.put
  loaded := loaded_put.mpr h.loaded
  inode := by rwa [put_inum, h.cache.vol_put h.loaded hw]
  sane := by rwa [h.cache.vol_put h.loaded hw]
  buf := h.buf
  disk := h.disk

/-- The inode in the cache stays. -/
theorem Cache.put_blk (h : Cache s) (hip : Loaded s ip)
    (hw : w.ino (s.inode ip).inum = s.ino (s.inode ip).inum) :
    s.put ip w = s.withBlk w.blk := by
  rw [Sys.put, hw]
  exact congrArg (fun t : Sys τ => t.withBlk w.blk) (h.put_vol hip)

theorem Ready.vol_wrote (h : Ready s ip)
    (hw : Volume.Wrote (s.inode ip).inum off src K s.vol w) : (s.put ip w).vol = w :=
  h.cache.vol_put h.loaded (hw.local h.sane)

theorem Writing.wrote (h : Writing s ip)
    (hw : Volume.Wrote (s.inode ip).inum off src K s.vol w) : Writing (s.put ip w) ip where
  toReady := h.toReady.put (hw.local h.sane) hw.sane (hw.inode.mpr h.inode)
  trans := h.trans

/-- The blocks of the bitmap can be read. -/
theorem Ready.bitmap (h : Ready s ip) (hb : b < s.sb.size.toNat) : s.sb.BBLOCK b < s.disksize :=
  (Volume.bblock_lt (v := s.vol) b hb).trans_le (h.sane.layout.data.trans h.disk)

theorem Writing.readable (h : Writing s ip) : Readable s where
  disk _ hb := h.bitmap hb
  buf _ _ := h.buf _
  trans := h.trans

/-- The block of the inode can be read. -/
theorem Ready.iblock (h : Ready s ip) : s.sb.IBLOCK (s.inode ip).inum < s.disksize :=
  ((Volume.iblock_lt h.sane.layout h.inode.2.1).trans (Volume.bmapstart_lt_dataStart s.sb)).trans_le
    (h.sane.layout.data.trans h.disk)

/-- The block of a position can be read. -/
theorem Ready.ref_lt (h : Ready s ip) {k : Pos} (hk : s.vol.ref (s.inode ip).inum k ≠ 0) :
    (s.vol.ref (s.inode ip).inum k).toNat < s.disksize :=
  (h.sane.data _ k h.inode hk).2.trans_le h.disk

theorem Ready.addr (h : Ready s ip) (k : Slot) :
    s.vol.ref (s.inode ip).inum (.addr k) = (s.inode ip).d.addrs k := by
  rw [Volume.ref_addr, vol_ino, h.cache.ino_eq h.loaded]

/-- Nothing is written. -/
theorem Ready.wrote_nil (h : Ready s ip) (off : ℕ) (K : Finset Pos) :
    Volume.Wrote (s.inode ip).inum off [] K s.vol s.vol ∧ s = s.put ip s.vol :=
  ⟨(Volume.Wrote.refl h.sane _ off).mono (Finset.empty_subset _),
    (h.cache.put_vol h.loaded).symm⟩

end

section

variable {τ α : Type} [DecidableEq τ] {p : τ} {x : Option (List UInt8)} {E : End → Prop}
  {s t : Sys τ} {ip : Ip} {bn i off : ℕ} {K : Finset Pos} {R : α → Sys τ → Prop}

/-- A block is allocated for an empty position. -/
theorem wp_balloc {f : UInt32 → Code α} (h : Readable s) (hd : s.sb.size.toNat ≤ s.disksize)
    (hbuf : ∀ b, s.vol.Free b → s.buf b = none) (hroom : Room E s.vol i K) {k : Pos} (hk : k ∈ K)
    (hz : s.vol.ref i k = 0)
    (hf : ∀ b, s.vol.Free b →
      Wp (Sys.act p x) E (f (UInt32.ofNat b)) (s.withBlk (s.vol.took b).blk) R) :
    Wp (Sys.act p x) E (balloc >>= f) s R := by
  by_cases hex : ∃ b, s.vol.Free b
  · have hb := Nat.find_spec hex
    refine Wp.bind (balloc_spec h hb (lt_of_lt_of_le hb.1 hd) (hbuf _ hb)
      fun b' hb' => Nat.find_min hex hb') ?_
    rintro a t ⟨rfl, rfl⟩
    exact hf _ hb
  · have hE : E (.panic "balloc: out of blocks") := by
      by_contra hE
      exact hex (hroom.exists_free hk hz hE)
    exact Wp.bind (balloc_none (Q := fun _ _ => False) h (not_exists.mp hex) hE)
      fun _ _ hq => hq.elim

/-- A block that is there is found. -/
theorem slot_there {k : Slot} (h : Ready s ip) (hk : s.vol.ref (s.inode ip).inum (.addr k) ≠ 0) :
    Wp (Sys.act p x) E (slot ip k) s
      fun a t => a = s.vol.ref (s.inode ip).inum (.addr k) ∧ t = s := by
  rw [h.addr] at hk ⊢
  refine Wp.perform_bind rfl ?_
  rw [if_neg hk]
  exact Wp.pure ⟨rfl, rfl⟩

theorem slot_spec {k : Slot} (h : Writing s ip) (hroom : Room E s.vol (s.inode ip).inum {.addr k})
    (off : ℕ) : Wp (Sys.act p x) E (slot ip k) s fun a t => ∃ w,
      Volume.Wrote (s.inode ip).inum off [] {.addr k} s.vol w ∧ t = s.put ip w ∧
        a = w.ref (s.inode ip).inum (.addr k) ∧ a ≠ 0 := by
  by_cases hz : s.vol.ref (s.inode ip).inum (.addr k) = 0
  · have hd : (s.inode ip).d.addrs k = 0 := by rw [← h.addr, hz]
    refine Wp.perform_bind rfl ?_
    rw [if_pos hd]
    refine wp_balloc h.readable h.disk (fun b _ => h.buf b) hroom (Finset.mem_singleton_self _) hz
      fun b hb => ?_
    refine Wp.perform_bind rfl (Wp.pure ?_)
    have ho : s.vol.Open (s.inode ip).inum (.addr k) := ⟨hz, fun m he => nomatch he⟩
    refine ⟨s.vol.fill (s.inode ip).inum b (.addr k), h.sane.wrote_fill h.inode hb ho off, ?_, ?_,
      h.sane.ofNat_ne_zero hb⟩
    · rw [Sys.put, Volume.fill, Volume.setIno_ino_self, vol_ino, h.cache.ino_eq h.loaded]
      rfl
    · rw [h.sane.ref_fill h.inode hb ho h.inode, if_pos ⟨rfl, rfl⟩]
  · refine (slot_there h.toReady hz).imp ?_
    rintro a t ⟨ha, ht⟩
    obtain ⟨hw, hs⟩ := h.wrote_nil off {.addr k}
    exact ⟨s.vol, hw, ht.trans hs, ha, ha ▸ hz⟩

/-- A block that is there is found. -/
theorem bmap_there (h : Ready s ip) (hbn : bn < MAXFILE)
    (hk : s.vol.ref (s.inode ip).inum (.ofBn bn) ≠ 0) :
    Wp (Sys.act p x) E (bmap ip bn) s
      fun a t => a = s.vol.ref (s.inode ip).inum (.ofBn bn) ∧ t = s := by
  rw [bmap]
  rw [Pos.ofBn] at hk ⊢
  split_ifs at hk ⊢ with hdir hind
  · exact slot_there h hk
  · have ha : s.vol.ref (s.inode ip).inum (.addr indirect) ≠ 0 := by
      intro ha
      rw [Volume.ref_entry, ← Volume.ref_indirect, if_pos ha] at hk
      exact hk rfl
    have he : s.vol.ref (s.inode ip).inum (.entry (bn - NDIRECT)) =
        (s.blk (s.vol.ref (s.inode ip).inum (.addr indirect)).toNat).getInt (bn - NDIRECT) := by
      rw [Volume.ref_entry, ← Volume.ref_indirect, if_neg ha]
      rfl
    refine Wp.bind (slot_there h ha) ?_
    rintro a t ⟨ht, hs⟩
    rw [ht, hs]
    refine wp_bread (h.ref_lt ha) (h.buf _) ?_
    dsimp only [Loc.at]
    rw [← he, if_neg hk]
    refine wp_brelse (setBuf_self ..) (Wp.pure ⟨rfl, ?_⟩)
    exact setBuf_setBuf (h.buf _) _
  · change bn < 140 at hbn
    change ¬ bn < 12 at hdir
    change ¬ bn - 12 < 128 at hind
    omega

/-- An entry of the indirect block is found or filled. -/
theorem entry_spec {m : ℕ} (h : Writing s ip) (hm : m < NINDIRECT)
    (ha : s.vol.ref (s.inode ip).inum (.addr indirect) ≠ 0)
    (hroom : Room E s.vol (s.inode ip).inum {.entry m}) (off : ℕ) :
    Wp (Sys.act p x) E (do
      let bp ← bread (.block (s.vol.ref (s.inode ip).inum (.addr indirect)).toNat)
      if bp.2.getInt m = 0 then
        let addr ← balloc
        logged bp.1 (bp.2.putInt m addr)
        brelse bp.1
        return addr
      else
        brelse bp.1
        return bp.2.getInt m) s fun a t => ∃ w,
      Volume.Wrote (s.inode ip).inum off [] {.entry m} s.vol w ∧ t = s.put ip w ∧
        a = w.ref (s.inode ip).inum (.entry m) ∧ a ≠ 0 := by
  have he : s.vol.ref (s.inode ip).inum (.entry m) =
      (s.blk (s.vol.ref (s.inode ip).inum (.addr indirect)).toNat).getInt m := by
    rw [Volume.ref_entry, ← Volume.ref_indirect, if_neg ha]
    rfl
  refine wp_bread (h.ref_lt ha) (h.buf _) ?_
  dsimp only [Loc.at]
  rw [← he]
  split_ifs with hz
  · have ho : s.vol.Open (s.inode ip).inum (.entry m) :=
      ⟨hz, fun m' he => Pos.entry.inj he ▸ ⟨ha, hm⟩⟩
    have hbuf : ∀ n, n ≠ (s.vol.ref (s.inode ip).inum (.addr indirect)).toNat →
        (s.setBuf (s.vol.ref (s.inode ip).inum (.addr indirect)).toNat (some p)).buf n = none :=
      fun n hn => (Function.update_of_ne hn ..).trans (h.buf n)
    have hr : Readable
        (s.setBuf (s.vol.ref (s.inode ip).inum (.addr indirect)).toNat (some p)) :=
      ⟨fun b hb => h.bitmap hb,
        fun b hb => hbuf _ (h.sane.ref_ne_bblock h.inode ha hb).symm, h.trans⟩
    refine wp_balloc hr h.disk (fun b hb => hbuf b (h.sane.ref_ne h.inode ha hb).symm) hroom
      (Finset.mem_singleton_self _) hz fun b hb => ?_
    refine wp_logged h.trans (wp_brelse (setBuf_self ..) (Wp.pure ?_))
    refine ⟨s.vol.fill (s.inode ip).inum b (.entry m), h.sane.wrote_fill h.inode hb ho off, ?_, ?_,
      h.sane.ofNat_ne_zero hb⟩
    · rw [h.cache.put_blk h.loaded (w := s.vol.fill (s.inode ip).inum b (.entry m)) rfl,
        Volume.fill, h.sane.took_ind hb h.inode ha]
      exact setBuf_setBuf (s := s.withBlk (Function.update (s.vol.took b).blk
        (s.vol.ind (s.inode ip).inum).toNat
        ((s.blk (s.vol.ind (s.inode ip).inum).toNat).putInt m (UInt32.ofNat b)))) (h.buf _) (some p)
    · rw [h.sane.ref_fill h.inode hb ho h.inode, if_pos ⟨rfl, rfl⟩]
  · refine wp_brelse (setBuf_self ..) (Wp.pure ?_)
    obtain ⟨hw, hs⟩ := h.wrote_nil off {.entry m}
    exact ⟨s.vol, hw, (setBuf_setBuf (h.buf _) _).trans hs, rfl, hz⟩

/-- The block of a position is found or allocated. -/
theorem bmap_spec (h : Writing s ip) (hbn : bn < MAXFILE)
    (hroom : Room E s.vol (s.inode ip).inum (Pos.path bn)) (off : ℕ) :
    Wp (Sys.act p x) E (bmap ip bn) s fun a t => ∃ w,
      Volume.Wrote (s.inode ip).inum off [] (Pos.path bn) s.vol w ∧ t = s.put ip w ∧
        a = w.ref (s.inode ip).inum (.ofBn bn) ∧ a ≠ 0 := by
  rw [bmap]
  rw [Pos.path] at hroom ⊢
  split_ifs at hroom ⊢ with hdir hind
  · rw [Pos.ofBn, if_pos hdir] at hroom ⊢
    exact slot_spec h hroom off
  · rw [Pos.ofBn, if_neg hdir] at hroom ⊢
    refine Wp.bind (slot_spec h (hroom.mono (by simp)) off) ?_
    rintro a t ⟨w, hw, rfl, rfl, ha⟩
    have hw' := hw.mono (L := {.addr indirect, .entry (bn - NDIRECT)}) (by simp)
    have hvol := h.vol_wrote hw
    have hroom' := (hroom.wrote hw' subset_rfl).mono (K := {.entry (bn - NDIRECT)}) (by simp)
    have hentry := entry_spec (p := p) (x := x) (E := E) (m := bn - NDIRECT) (h.wrote hw) hind
      (by rwa [put_inum, hvol]) (by rwa [put_inum, hvol]) off
    rw [put_inum, hvol] at hentry
    refine hentry.imp ?_
    rintro a t ⟨w2, hw2, rfl, rfl, ha2⟩
    refine ⟨w2, hw'.trans h.inode (hw2.mono (by simp)), put_put s ip w w2, rfl, ha2⟩
  · change bn < 140 at hbn
    change ¬ bn < 12 at hdir
    change ¬ bn - 12 < 128 at hind
    omega

end

end Xv6.Fs
