import Xv6.Fs.Reserve

/-! @src fs.c file.c | name:A transaction that is too large | layer:proof

    The bitmap has block 0 among the free blocks. The allocator hands it out as the indirect block; its
    number is that of no block, so the next block of the file takes another one. -/

namespace Xv6.Fs
open Xv6.Disk Xv6.Schemes

/-! ### Runs with the blocks that they log -/

section

variable {τ α β : Type} [DecidableEq τ] {p : τ} {x : Option (List UInt8)} {s t : Sys τ}
  {m : Code α} {f : α → Code β} {n : ℕ} {L : Finset ℕ} {P : α → Sys τ → Finset ℕ → Prop}
  {Q : β → Sys τ → Finset ℕ → Prop}

/-- The program returns; `Q` holds of the result, the state and the blocks that it logs. -/
def Ends (p : τ) (x : Option (List UInt8)) (m : Code α) (s : Sys τ)
    (Q : α → Sys τ → Finset ℕ → Prop) : Prop :=
  ∃ a t L, Logs p x m s a t L ∧ Q a t L

theorem Logs.ends {a : α} (h : Logs p x m s a t L) :
    Ends p x m s fun b u K => b = a ∧ u = t ∧ K = L :=
  ⟨a, t, L, h, rfl, rfl, rfl⟩

theorem Ends.pure {a : α} (h : P a s ∅) : Ends p x (pure a) s P := ⟨a, s, ∅, .pure s a, h⟩

theorem Ends.bind (h : Ends p x m s P)
    (h' : ∀ a t L, P a t L → Ends p x (f a) t fun b u L' => Q b u (L ∪ L')) :
    Ends p x (m >>= f) s Q := by
  obtain ⟨a, t, L, hl, hp⟩ := h
  obtain ⟨b, u, L', hl', hq⟩ := h' a t L hp
  exact ⟨b, u, _, hl.bind hl', hq⟩

theorem Ends.op {o : Op} {a : Ans o} {f : Ans o → Code β} (h : Sys.act p x o s = .ok (a, t))
    (hn : ∀ D, note D o = D) (h' : Ends p x (f a) t Q) : Ends p x (Fs.perform o >>= f) s Q := by
  obtain ⟨b, u, L, hl, hq⟩ := h'
  exact ⟨b, u, L, .op h hn hl, hq⟩

theorem Ends.bread {l : Loc} {f : ℕ × Block → Code β} (hn : l.at s.sb < s.disksize)
    (hb : s.buf (l.at s.sb) = none)
    (h : Ends p x (f (l.at s.sb, s.blk (l.at s.sb))) (s.setBuf (l.at s.sb) (some p)) Q) :
    Ends p x (Fs.bread l >>= f) s Q := by
  obtain ⟨b, u, L, hl, hq⟩ := h
  exact ⟨b, u, L, .bread hn hb hl, hq⟩

theorem Ends.brelse {f : Unit → Code β} (hb : s.buf n = some p)
    (h : Ends p x (f ()) (s.setBuf n none) Q) : Ends p x (Fs.brelse n >>= f) s Q := by
  obtain ⟨b, u, L, hl, hq⟩ := h
  exact ⟨b, u, L, .brelse hb hl, hq⟩

theorem Ends.logged {c : Block} {f : Unit → Code β} (ho : 1 ≤ s.outstanding)
    (h : Ends p x (f ()) (s.setBlk n c) fun b u L => Q b u (insert n L)) :
    Ends p x (Fs.logged n c >>= f) s Q := by
  obtain ⟨b, u, L, hl, hq⟩ := h
  exact ⟨b, u, _, .logged ho hl, hq⟩

/-- A block is changed and logged. -/
theorem Ends.write {l : Loc} {f : ℕ × Block → Code β} (g : Block → Block)
    (hn : l.at s.sb < s.disksize) (hb : s.buf (l.at s.sb) = none) (ho : 1 ≤ s.outstanding)
    (h : Ends p x (f (l.at s.sb, s.blk (l.at s.sb)))
      (s.setBlk (l.at s.sb) (g (s.blk (l.at s.sb)))) fun b u L => Q b u (insert (l.at s.sb) L)) :
    Ends p x
      (Fs.bread l >>= fun bp => Fs.logged bp.1 (g bp.2) >>= fun _ => Fs.brelse bp.1 >>= fun _ => f bp)
      s Q := by
  refine .bread hn hb (.logged ho (.brelse (setBuf_self ..) ?_))
  have he : ((s.setBuf (l.at s.sb) (some p)).setBlk (l.at s.sb)
      (g (s.blk (l.at s.sb)))).setBuf (l.at s.sb) none =
      s.setBlk (l.at s.sb) (g (s.blk (l.at s.sb))) :=
    setBuf_setBuf (s := s.setBlk _ _) hb _
  rwa [he]

end

/-! ### The disk -/

/-- A disk with five bitmap blocks. -/
def Superblock.large : Superblock := ⟨20480, 20471, 2, 0, 2, 2, 3⟩

/-- A file that ends with the first byte of its last direct block. -/
def Dinode.long : Dinode where
  type := T_FILE
  major := 0
  minor := 0
  nlink := 1
  size := 5633
  addrs k := if k = indirect then 0 else UInt32.ofNat (100 + k)

/-- All bits but the first are set. -/
def Block.crowded : Block := fun j => if j.val = 0 then 254 else 255

/-- The long file is open at its end. -/
def Sys.crowded : Sys Unit where
  sb := .large
  disksize := 20480
  blk n := if n = 2 then putDinode Block.zero 1 .long
    else if 3 ≤ n ∧ n < 8 then Block.crowded else Block.zero
  buf _ := none
  inode ip := ⟨⟨ROOTDEV, ROOTINO, decide (ip = 0), .long⟩, if ip = 0 then 1 else 0, none⟩
  file _ := ⟨.FD_INODE, 1, true, true, 0, 5633⟩
  ofile _ _ := none
  cwd _ := none
  outstanding := 0

/-- The free blocks are the first ones of the bitmap blocks from the `k`-th on, and `a` is the number
    of the indirect block. -/
structure Crowd (s : Sys Unit) (k : ℕ) (a : UInt32) : Prop where
  sb : s.sb = .large
  disksize : s.disksize = 20480
  buf : ∀ n, s.buf n = none
  trans : 1 ≤ s.outstanding
  free : ∀ b, s.vol.Free b ↔ ∃ j, k ≤ j ∧ j < 5 ∧ b = 4096 * j
  inode : s.inode 0 = { Sys.crowded.inode 0 with
    lock := some (), d := { Dinode.long with addrs := Function.update Dinode.long.addrs indirect a } }
  file : s.file = Sys.crowded.file

theorem large_bblock (b : ℕ) : Superblock.large.BBLOCK b = b / 4096 + 3 := rfl

theorem getBit_crowded {i : ℕ} (hi : i < BPB) : getBit Block.crowded i = decide (i ≠ 0) := by
  have hlt : i / 8 < BSIZE := by
    change i < 4096 at hi
    change i / 8 < 512
    omega
  have hbyte : ∀ j, j < 8 → (254 : UInt8).toNat.testBit j = decide (j ≠ 0) := by decide
  have hall : ∀ j, j < 8 → (255 : UInt8).toNat.testBit j = true := by decide
  rw [getBit, Block.byte, dif_pos hlt, Block.crowded]
  by_cases hz : i / 8 = 0
  · rw [if_pos hz, hbyte _ (Nat.mod_lt i (by decide))]
    exact decide_eq_decide.mpr (by omega)
  · rw [if_neg hz, hall _ (Nat.mod_lt i (by decide))]
    exact (decide_eq_true (by omega)).symm

theorem crowded_free (b : ℕ) : Sys.crowded.vol.Free b ↔ ∃ j, 0 ≤ j ∧ j < 5 ∧ b = 4096 * j := by
  have hmod : b % BPB < BPB := Nat.mod_lt b (by decide)
  have hblk : b < 20480 → Sys.crowded.blk (b / 4096 + 3) = Block.crowded := by
    intro hb
    have h2 : ¬ b / 4096 + 3 = 2 := by omega
    have h3 : 3 ≤ b / 4096 + 3 ∧ b / 4096 + 3 < 8 := by omega
    simp only [Sys.crowded, if_neg h2, if_pos h3]
  change b < 20480 ∧ getBit (Sys.crowded.blk (b / 4096 + 3)) (b % BPB) = false ↔ _
  constructor
  · rintro ⟨hb, hbit⟩
    rw [hblk hb, getBit_crowded hmod, decide_eq_false_iff_not, not_not] at hbit
    change b % 4096 = 0 at hbit
    exact ⟨b / 4096, Nat.zero_le _, by omega, by omega⟩
  · rintro ⟨j, -, hj, rfl⟩
    have hb : 4096 * j < 20480 := by omega
    refine ⟨hb, ?_⟩
    rw [hblk hb, getBit_crowded hmod]
    change decide (4096 * j % 4096 ≠ 0) = false
    rw [Nat.mul_mod_right]
    rfl

section

variable {s t : Sys Unit} {j k m n : ℕ} {a : UInt32}

theorem toNat_first (hk : k < 5) : (UInt32.ofNat (4096 * k)).toNat = 4096 * k := by
  rw [UInt32.toNat_ofNat', Nat.mod_eq_of_lt (by omega)]

theorem first_ne_zero (hj : 0 < j) (hk : j < 5) : UInt32.ofNat (4096 * j) ≠ 0 := by
  intro hz
  have h := congrArg UInt32.toNat hz
  rw [toNat_first hk] at h
  change 4096 * j = 0 at h
  omega

theorem Crowd.addrs (h : Crowd s k a) (i : Slot) :
    (s.inode 0).d.addrs i = Function.update Dinode.long.addrs indirect a i := by
  rw [h.inode]

theorem Crowd.bblock_ne (h : Crowd s k a) (hn : n < 3 ∨ 8 ≤ n) :
    ∀ b < s.vol.sb.size.toNat, s.vol.sb.BBLOCK b ≠ n := by
  intro b hb
  rw [vol_sb, h.sb] at hb ⊢
  change b < 20480 at hb
  rw [large_bblock]
  omega

/-- A block is stored that is not in the bitmap. -/
theorem Crowd.store (h : Crowd s k a) (hn : n < 3 ∨ 8 ≤ n) (x : Block) : Crowd (s.setBlk n x) k a :=
  { h with
    free := fun b => (Volume.free_store (v := s.vol) (x := x) (h.bblock_ne hn)).trans (h.free b) }

theorem Crowd.take (h : Crowd s k a) (hk : k < 5) :
    Crowd (s.withBlk (s.vol.took (4096 * k)).blk) (k + 1) a :=
  { h with
    free := by
      intro b
      have hfree := Volume.free_took (v := s.vol) (b := 4096 * k) (n := b) (h.bblock_ne (by omega))
      refine hfree.trans ?_
      rw [h.free]
      constructor
      · rintro ⟨⟨j, hj, hj5, rfl⟩, hne⟩
        exact ⟨j, by omega, hj5, rfl⟩
      · rintro ⟨j, hj, hj5, rfl⟩
        exact ⟨⟨j, by omega, hj5, rfl⟩, by omega⟩ }

/-- The first free block is taken. -/
theorem Crowd.alloc (h : Crowd s k a) (hk : k < 5) {B : ℕ → Option Unit}
    (hB : ∀ n, n = 4096 * k ∨ 3 ≤ n ∧ n < 8 → B n = none) :
    Logs () none balloc { s with buf := B } (UInt32.ofNat (4096 * k))
      { s with buf := B, blk := (s.vol.took (4096 * k)).blk } {k + 3, 4096 * k} := by
  have hsize : s.sb.size.toNat = 20480 := by rw [h.sb]; rfl
  have hread : Readable { s with buf := B } := by
    refine ⟨fun b hb => ?_, fun b hb => ?_, h.trans⟩
    · change s.sb.BBLOCK b < s.disksize
      change b < s.sb.size.toNat at hb
      rw [h.sb, h.disksize, large_bblock]
      omega
    · change b < s.sb.size.toNat at hb
      refine hB _ (.inr ?_)
      change 3 ≤ s.sb.BBLOCK b ∧ s.sb.BBLOCK b < 8
      rw [h.sb, large_bblock]
      omega
  have hd : 4096 * k < s.disksize := by
    rw [h.disksize]
    omega
  have hbl : s.sb.BBLOCK (4096 * k) = k + 3 := by
    rw [h.sb, large_bblock]
    omega
  have hlogs := balloc_logs (p := ()) (x := none) hread ((h.free _).mpr ⟨k, le_rfl, hk, rfl⟩) hd
    (hB _ (.inl rfl)) fun b hb hf => ?_
  · rw [← hbl]
    exact hlogs
  · obtain ⟨j, hj, -, rfl⟩ := (h.free b).mp hf
    omega

theorem Crowd.slot_new (h : Crowd s k 0) (hk : k < 5) :
    Ends () none (slot 0 indirect) s fun b t L => b = UInt32.ofNat (4096 * k) ∧
      L = {k + 3, 4096 * k} ∧ Crowd t (k + 1) b ∧ t.blk (4096 * k) = Block.zero := by
  have hz : (s.inode 0).d.addrs indirect = 0 := by rw [h.addrs, Function.update_self]
  refine .op rfl (fun _ => rfl) ?_
  rw [if_pos hz]
  refine .bind (h.alloc hk (B := s.buf) fun n _ => h.buf n).ends ?_
  rintro a t L ⟨rfl, rfl, rfl⟩
  refine .op rfl (fun _ => rfl) (.pure ⟨rfl, Finset.union_empty _, ?_, ?_⟩)
  · refine { h.take hk with inode := ?_ }
    rw [Sys.setD, setInode_self]
    change ({ s.inode 0 with d := setAddr indirect _ (s.inode 0).d } : Inode Unit) = _
    rw [h.inode, setAddr]
    dsimp only
    rw [Function.update_idem]
  · exact Volume.took_blk_self s.vol (4096 * k)

theorem Crowd.slot_there (h : Crowd s k a) (ha : a ≠ 0) :
    Ends () none (slot 0 indirect) s fun b t L => b = a ∧ L = ∅ ∧ t = s := by
  have he : (s.inode 0).d.addrs indirect = a := by rw [h.addrs, Function.update_self]
  refine .op rfl (fun _ => rfl) ?_
  rw [he, if_neg ha]
  exact .pure ⟨rfl, rfl, rfl⟩

/-- An entry of the indirect block is filled. -/
theorem Crowd.entry (h : Crowd s k (UInt32.ofNat (4096 * j))) (hj : j < k) (hk : k < 5)
    (hz : (s.blk (4096 * j)).getInt m = 0) :
    Ends () none (do
      let bp ← bread (.block (UInt32.ofNat (4096 * j)).toNat)
      if bp.2.getInt m = 0 then
        let addr ← balloc
        logged bp.1 (bp.2.putInt m addr)
        brelse bp.1
        return addr
      else
        brelse bp.1
        return bp.2.getInt m) s fun b t L => b = UInt32.ofNat (4096 * k) ∧
      L = {k + 3, 4096 * k, 4096 * j} ∧ Crowd t (k + 1) (UInt32.ofNat (4096 * j)) ∧
      t.blk (4096 * j) = (s.blk (4096 * j)).putInt m b := by
  rw [toNat_first (hj.trans hk)]
  have hd : 4096 * j < s.disksize := by
    rw [h.disksize]
    omega
  refine .bread (l := .block (4096 * j)) hd (h.buf _) ?_
  dsimp only [Loc.at]
  rw [if_pos hz]
  have hB : ∀ n, n = 4096 * k ∨ 3 ≤ n ∧ n < 8 →
      Function.update s.buf (4096 * j) (some ()) n = none := fun n hn =>
    (Function.update_of_ne (by omega) ..).trans (h.buf n)
  refine .bind (h.alloc hk hB).ends ?_
  rintro a t L ⟨rfl, rfl, rfl⟩
  refine .logged h.trans (.brelse (Function.update_self ..) (.pure ⟨rfl, ?_, ?_, ?_⟩))
  · rw [insert_empty_eq, Finset.insert_union, Finset.singleton_union]
  · have he := (h.take hk).store (n := 4096 * j) (by omega)
      ((s.blk (4096 * j)).putInt m (UInt32.ofNat (4096 * k)))
    have hset := setBuf_setBuf (s := (s.withBlk (s.vol.took (4096 * k)).blk).setBlk (4096 * j)
      ((s.blk (4096 * j)).putInt m (UInt32.ofNat (4096 * k)))) (h.buf (4096 * j)) (some ())
    rw [← hset] at he
    exact he
  · exact Function.update_self ..

/-- The indirect block is there, with no entry for the block. -/
theorem Crowd.bmap_there {bn : ℕ} (h : Crowd s k (UInt32.ofNat (4096 * j))) (hj : 0 < j ∧ j < k)
    (hk : k < 5) (hbn : 12 ≤ bn ∧ bn < 140) (hz : (s.blk (4096 * j)).getInt (bn - 12) = 0) :
    Ends () none (bmap 0 bn) s fun b t L => b = UInt32.ofNat (4096 * k) ∧
      L = {k + 3, 4096 * k, 4096 * j} ∧ Crowd t (k + 1) (UInt32.ofNat (4096 * j)) ∧
      t.blk (4096 * j) = (s.blk (4096 * j)).putInt (bn - 12) b := by
  have h1 : ¬ bn < NDIRECT := not_lt.mpr hbn.1
  have h2 : bn - NDIRECT < NINDIRECT := by
    change bn - 12 < 128
    omega
  rw [bmap, if_neg h1, if_pos h2]
  refine .bind (h.slot_there (first_ne_zero hj.1 (hj.2.trans hk))) ?_
  rintro a t L ⟨rfl, rfl, rfl⟩
  simp only [Finset.empty_union]
  exact h.entry hj.2 hk hz

/-- There is no indirect block. -/
theorem Crowd.bmap_new {bn : ℕ} (h : Crowd s k 0) (hk : k + 1 < 5) (hbn : 12 ≤ bn ∧ bn < 140) :
    Ends () none (bmap 0 bn) s fun b t L => b = UInt32.ofNat (4096 * (k + 1)) ∧
      L = {k + 3, 4096 * k, k + 4, 4096 * (k + 1)} ∧
      Crowd t (k + 2) (UInt32.ofNat (4096 * k)) ∧
      t.blk (4096 * k) = Block.zero.putInt (bn - 12) b := by
  have h1 : ¬ bn < NDIRECT := not_lt.mpr hbn.1
  have h2 : bn - NDIRECT < NINDIRECT := by
    change bn - 12 < 128
    omega
  rw [bmap, if_neg h1, if_pos h2]
  refine .bind (h.slot_new (by omega)) ?_
  rintro a t L ⟨rfl, rfl, ht, hzero⟩
  have hentry := ht.entry (m := bn - 12) (Nat.lt_succ_self k) hk (by
    rw [hzero, Block.getInt_zero])
  rw [hzero] at hentry
  obtain ⟨b, u, L, hl, rfl, rfl, hu, hb⟩ := hentry
  refine ⟨_, u, _, hl, rfl, ?_, hu, hb⟩
  ext n
  simp only [Finset.mem_union, Finset.mem_insert, Finset.mem_singleton]
  tauto

/-- A direct block is there. -/
theorem Crowd.bmap_direct (h : Crowd s k a) :
    Ends () none (bmap 0 11) s fun b t L => b = 111 ∧ L = ∅ ∧ t = s := by
  have he : (s.inode 0).d.addrs (direct 11) = 111 := by
    rw [h.addrs, Function.update_of_ne (by decide)]
    rfl
  rw [bmap, if_pos (by decide)]
  refine .op rfl (fun _ => rfl) ?_
  rw [he, if_neg (by decide)]
  exact .pure ⟨rfl, rfl, rfl⟩

/-- A turn of the loop: the block is found or allocated, and written. -/
theorem Ends.turn {fuel off : ℕ} {src : List UInt8} {P : UInt32 → Sys Unit → Finset ℕ → Prop}
    {Q : ℕ → Sys Unit → Finset ℕ → Prop} (hm : 0 < m) (hle : m ≤ src.length)
    (hmin : min src.length (BSIZE - off % BSIZE) = m)
    (hb : Ends () none (bmap 0 (off / BSIZE)) s P)
    (hP : ∀ b t L, P b t L → ∃ k a, Crowd t k a ∧ 8 ≤ b.toNat ∧ b.toNat < 20480 ∧
      ∀ u, Crowd u k a → (∀ n, n ≠ b.toNat → u.blk n = t.blk n) →
        Ends () none (writeLoop 0 fuel (off + m) (src.drop m)) u fun r v L' =>
          Q r v (L ∪ insert b.toNat L')) :
    Ends () none (writeLoop 0 (fuel + 1) off src) s Q := by
  have hne : src ≠ [] := by
    rintro rfl
    rw [List.length_nil] at hle
    omega
  rw [writeLoop, if_neg hne]
  refine .bind hb fun b t L hp => ?_
  obtain ⟨k, a, ht, h8, hlt, hrest⟩ := hP b t L hp
  dsimp only
  rw [hmin]
  refine .write (l := .block b.toNat) (fun c => overlay c (off % BSIZE) (src.take m)) ?_ (ht.buf _)
    ht.trans ?_
  · rw [ht.disksize]
    exact hlt
  · exact hrest _ (ht.store (.inr h8) _) fun n hn => Function.update_of_ne hn ..

end

/-! ### The transaction -/

section

variable {s : Sys Unit} {src : List UInt8}

/-- The blocks of the transaction. -/
def crowdedBlocks : Finset ℕ := {0, 3, 4, 5, 6, 7, 111, 4096, 8192, 12288, 16384}

/-- The first of the four blocks is there, each of the next two takes an indirect block, and the last
    one finds the second of these. -/
theorem Crowd.writeLoop (h : Crowd s 0 0) (hlen : src.length = 1536) :
    Ends () none (writeLoop 0 1536 5633 src) s fun off t L =>
      (off = 7169 ∧ L = crowdedBlocks) ∧ Crowd t 5 (UInt32.ofNat 8192) := by
  have h12 : (UInt32.ofNat (4096 * 1)).toNat = 4096 := toNat_first (by decide)
  have h13 : (UInt32.ofNat (4096 * 3)).toNat = 12288 := toNat_first (by decide)
  have h14 : (UInt32.ofNat (4096 * 4)).toNat = 16384 := toNat_first (by decide)
  refine .turn (m := 511) (by decide) (by omega) (by rw [hlen]; rfl) h.bmap_direct ?_
  rintro a t L ⟨rfl, rfl, rfl⟩
  refine ⟨0, 0, h, by decide, by decide, fun u hu _ => ?_⟩
  refine .turn (m := 512) (by decide) (by rw [List.length_drop]; omega)
    (by rw [List.length_drop, hlen]; rfl) (hu.bmap_new (by decide) (by decide)) ?_
  rintro a t L ⟨rfl, rfl, ht, -⟩
  rw [h12]
  refine ⟨2, 0, ht, by decide, by decide, fun u hu _ => ?_⟩
  refine .turn (m := 512) (by decide) (by simp only [List.length_drop]; omega)
    (by simp only [List.length_drop, hlen]; rfl) (hu.bmap_new (by decide) (by decide)) ?_
  rintro a t L ⟨rfl, rfl, ht, hind⟩
  rw [h13]
  refine ⟨4, _, ht, by decide, by decide, fun u hu hsame => ?_⟩
  refine .turn (m := 1) (by decide) (by simp only [List.length_drop]; omega)
    (by simp only [List.length_drop, hlen]; rfl)
    (hu.bmap_there (j := 2) (by decide) (by decide) (by decide) ?_) ?_
  · rw [hsame _ (by decide), hind, Block.getInt_putInt_other _ _ (by decide), Block.getInt_zero]
  rintro a t L ⟨rfl, rfl, ht, -⟩
  rw [h14]
  refine ⟨5, _, ht, by decide, by decide, fun u hu _ => ?_⟩
  have hnil : (((src.drop 511).drop 512).drop 512).drop 1 = [] := by
    rw [List.drop_drop, List.drop_drop, List.drop_drop]
    exact List.drop_eq_nil_of_le hlen.le
  rw [hnil]
  exact .pure ⟨⟨rfl, by decide⟩, hu⟩

end

/-! ### The run up to it -/

section

variable {τ α β : Type} [DecidableEq τ] {p : τ} {x : Option (List UInt8)} {s t : Sys τ}
  {l : List Op}

theorem prefix_perform {o : Op} {a : Ans o} {f : Ans o → Code β}
    (h : Sys.act p x o s = .ok (a, t)) (hl : l <+: (f a).trace (Sys.act p x) t) :
    o :: l <+: (perform o >>= f).trace (Sys.act p x) s := by
  rw [perform, Prog.perform, Prog.bind_def, Prog.bind, Prog.trace, h]
  exact List.cons_prefix_cons.mpr ⟨rfl, hl⟩

theorem prefix_run {m : Code α} {a : α} {f : α → Code β} (h : m.run (Sys.act p x) s = .ok (a, t))
    (hl : l <+: (f a).trace (Sys.act p x) t) :
    m.trace (Sys.act p x) s ++ l <+: (m >>= f).trace (Sys.act p x) s := by
  rw [trace_bind, h]
  exact (List.prefix_append_right_inj _).mpr hl

theorem prefix_bind {m : Code α} {f : α → Code β} (hl : l <+: m.trace (Sys.act p x) s) :
    l <+: (m >>= f).trace (Sys.act p x) s := by
  rw [trace_bind]
  exact hl.trans (List.prefix_append _ _)

end

/-- The transaction has begun. -/
def Sys.entered : Sys Unit := { Sys.crowded with outstanding := 1 }

/-- And the file is locked. -/
def Sys.begun : Sys Unit := Sys.entered.setLock 0 (some ())

theorem begun_inode : Sys.begun.inode 0 = { Sys.crowded.inode 0 with lock := some () } :=
  setInode_self ..

theorem begun_crowd : Crowd Sys.begun 0 0 where
  sb := rfl
  disksize := rfl
  buf _ := rfl
  trans := le_rfl
  free := crowded_free
  inode := by
    have haddrs : Function.update Dinode.long.addrs indirect 0 = Dinode.long.addrs :=
      Function.update_eq_self indirect Dinode.long.addrs
    rw [haddrs]
    exact begun_inode
  file := rfl

theorem crowded_loaded : Loaded Sys.crowded 0 := ⟨Int.one_pos, rfl⟩

theorem crowded_cache : Cache Sys.crowded where
  dev _ _ := rfl
  unique ip jp hi hj _ := by
    have hzero : ∀ kp, 0 < (Sys.crowded.inode kp).ref → kp = 0 := by
      intro kp hk
      by_contra hne
      have hz : (Sys.crowded.inode kp).ref = 0 := if_neg hne
      exact absurd (hz ▸ hk) (lt_irrefl 0)
    rw [hzero ip hi, hzero jp hj]

theorem crowded_ino : Sys.crowded.ino 1 = Dinode.long := crowded_cache.ino_eq crowded_loaded

theorem crowded_size : Sys.crowded.vol.size 1 = 5633 := by
  rw [Volume.size, vol_ino, crowded_ino]
  rfl

/-- All of its blocks are direct. -/
theorem crowded_regular : Regular Sys.crowded 0 where
  ref := Int.one_pos
  inode := ⟨Nat.one_pos, Nat.one_lt_two, (congrArg Dinode.type crowded_ino).trans_ne (by decide)⟩
  file := congrArg Dinode.type crowded_ino
  noHoles := by
    refine ⟨?_, fun bn hbn => ?_⟩
    · change Sys.crowded.vol.size 1 ≤ _
      rw [crowded_size]
      decide
    · change bn * BSIZE < Sys.crowded.vol.size 1 at hbn
      rw [crowded_size] at hbn
      change bn * 512 < 5633 at hbn
      have hdir : bn < NDIRECT := by
        change bn < 12
        omega
      rw [Pos.ofBn, if_pos hdir]
      change (Sys.crowded.ino 1).addrs (direct bn) ≠ 0
      rw [crowded_ino]
      change (if direct bn = indirect then 0 else UInt32.ofNat (100 + (direct bn).val)) ≠ 0
      rw [if_neg (direct_ne_indirect hdir), direct_val hdir]
      intro hz
      have hnat := congrArg UInt32.toNat hz
      rw [UInt32.toNat_ofNat', Nat.mod_eq_of_lt (by omega)] at hnat
      change 100 + bn = 0 at hnat
      omega

/-- The operations of `filewrite` before the loop of `writei`. -/
def crowdedStart (f : Fp) : List Op :=
  .file f :: .beginOp :: ((ilock 0).trace (Sys.act () none) Sys.entered ++ [.file f, .get 0])

theorem pending_crowdedStart (f : Fp) (l : List Op) :
    pending (crowdedStart f ++ l) = l.foldl note ∅ := by
  rw [pending, List.foldl_append]
  rfl

theorem crowded_prefix {src : List UInt8} (hlen : src.length = 1536) :
    crowdedStart 0 ++ (writeLoop 0 1536 5633 src).trace (Sys.act () none) Sys.begun <+:
      (filewrite 0 src).trace (Sys.act () none) Sys.crowded := by
  have hne : src ≠ [] := by
    rintro rfl
    exact absurd hlen (by decide)
  have htake : src.take maxWrite = src := List.take_of_length_le hlen.le
  have hlock : (ilock 0).run (Sys.act () none) Sys.entered = .ok ((), Sys.begun) := rfl
  have hsize : ¬ ((Sys.crowded.inode 0).toCopy.d.size.toNat < (Sys.crowded.file 0).off ∨
      ((Sys.crowded.file 0).off + src.length) % 2 ^ 32 < (Sys.crowded.file 0).off) := by
    rw [hlen]
    decide
  have hmax : ¬ MAXFILE * BSIZE < ((Sys.crowded.file 0).off + src.length) % 2 ^ 32 := by
    rw [hlen]
    decide
  have hcopy : (Sys.begun.inode 0).toCopy = (Sys.crowded.inode 0).toCopy := by rw [begun_inode]
  rw [crowdedStart, List.cons_append, List.cons_append, List.append_assoc]
  refine prefix_perform (a := Sys.crowded.file 0) rfl ?_
  change _ <+: (filewriteLoop 0 0 src.length src >>= _).trace _ _
  rw [hlen, filewriteLoop, if_neg hne, htake]
  refine prefix_bind (prefix_bind (prefix_perform (a := ()) rfl (prefix_run hlock ?_)))
  refine prefix_perform (a := Sys.crowded.file 0) rfl (prefix_bind ?_)
  refine prefix_perform (a := (Sys.begun.inode 0).toCopy) rfl ?_
  rw [hcopy, if_neg (by decide), if_neg hsize, if_neg hmax, hlen]
  exact prefix_bind (List.prefix_refl _)

end Xv6.Fs
