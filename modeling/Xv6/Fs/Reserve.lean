import Xv6.Fs.Filewrite
import Xv6.Schemes.Watch
import Mathlib.Data.Finset.Insert

/-! @src file.c fs.c | name:The blocks of a transaction of filewrite | layer:proof

    A chunk of `filewrite` takes at most four data blocks, and as many bitmap blocks as it takes new
    ones. A watch counts the blocks that are passed to `log_write`; the disk, the bitmap and the super
    block may be what they like, as long as block 0 is not handed out. -/

namespace Xv6.Fs
open Xv6.Disk Xv6.Schemes

/-- Block 0 is read, not for an inode or for the bitmap. -/
def Op.isBoot : Op → Bool
  | .bread (.block 0) => true
  | _ => false

theorem isBoot_iff {o : Op} : o.isBoot = true ↔ o = .bread (.block 0) := by
  refine ⟨fun h => ?_, fun h => h ▸ rfl⟩
  rw [Op.isBoot.eq_def] at h
  split at h
  · rfl
  · exact absurd h Bool.false_ne_true

def tooBig : End := .panic "transaction too big"

/-- The watch on the reservation; it gives up when block 0 is read. -/
def reservation : Watch Op (Finset ℕ) := fun o D =>
  if o.isBoot then .error .blocked
  else if (note D o).card ≤ MAXOPBLOCKS then .ok (note D o) else .error tooBig

/-- A trace that the watch has nothing against. -/
theorem card_along {l : List Op} {D : Finset ℕ} (hD : D.card ≤ MAXOPBLOCKS)
    (hboot : ∀ o ∈ l, o.isBoot = false)
    (h : ∀ e, reservation.along l D = .error e → e ≠ tooBig) :
    (l.foldl note D).card ≤ MAXOPBLOCKS := by
  induction l generalizing D with
  | nil => exact hD
  | cons o l ih =>
    have ho := hboot o List.mem_cons_self
    have hle : (note D o).card ≤ MAXOPBLOCKS := by
      by_contra hgt
      refine h tooBig ?_ rfl
      rw [Watch.along, reservation, ho, if_neg (by decide), if_neg hgt]
      rfl
    refine ih hle (fun o' ho' => hboot o' (List.mem_cons_of_mem o ho')) fun e he => h e ?_
    rw [Watch.along, reservation, ho, if_neg (by decide), if_pos hle]
    exact he

/-- The inodes and the open files are the same. -/
structure Same {τ : Type} (s t : Sys τ) : Prop where
  inode : t.inode = s.inode
  file : t.file = s.file

theorem Same.trans {τ : Type} {s t u : Sys τ} (h : Same s t) (h' : Same t u) : Same s u :=
  ⟨h'.inode.trans h.inode, h'.file.trans h.file⟩

/-- Only the contents of `ip` have changed, to `d`. -/
structure Edit {τ : Type} (ip : Ip) (d : Dinode) (s t : Sys τ) : Prop where
  inode : t.inode = Function.update s.inode ip { s.inode ip with d := d }
  file : t.file = s.file

section

variable {τ : Type} {s t u : Sys τ} {ip : Ip} {d d' : Dinode}

theorem Same.edit (h : Same s t) (ip : Ip) : Edit ip (s.inode ip).d s t :=
  ⟨by rw [Function.update_eq_self]; exact h.inode, h.file⟩

theorem Edit.self (h : Edit ip d s t) : t.inode ip = { s.inode ip with d := d } := by
  rw [h.inode, Function.update_self]

theorem Edit.trans (h : Edit ip d s t) (h' : Edit ip d' t u) : Edit ip d' s u where
  inode := by rw [h'.inode, h.self, h.inode, Function.update_idem]
  file := h'.file.trans h.file

end

/-- What the indirect block can still add. -/
def due (a : UInt32) (D : Finset ℕ) : ℕ := if a = 0 then 2 else if a.toNat ∈ D then 0 else 1

/-- The slot of the inode that `bmap` looks at first. -/
def first (bn : ℕ) : Slot := if bn < NDIRECT then direct bn else indirect

section

variable {a : UInt32} {D D' : Finset ℕ}

theorem due_mono (h : D ⊆ D') : due a D' ≤ due a D := by
  rw [due, due]
  by_cases ha : a = 0
  · rw [if_pos ha, if_pos ha]
  · rw [if_neg ha, if_neg ha]
    by_cases hm : a.toNat ∈ D
    · rw [if_pos hm, if_pos (h hm)]
    · rw [if_neg hm]
      split_ifs <;> decide

theorem due_mem (ha : a ≠ 0) (h : a.toNat ∈ D) : due a D = 0 := by
  rw [due, if_neg ha, if_pos h]

/-- No address is lost. -/
theorem update_ne_zero {addrs : Slot → UInt32} {i : Slot} (ha : a ≠ 0) (k : Slot)
    (hk : addrs k ≠ 0) : Function.update addrs i a k ≠ 0 := by
  rw [Function.update_apply]
  split_ifs
  · exact ha
  · exact hk

/-- The indirect block is logged. -/
theorem card_insert_due (ha : a ≠ 0) : (insert a.toNat D).card ≤ D.card + due a D := by
  rw [due, if_neg ha]
  split_ifs with h
  · rw [Finset.insert_eq_of_mem h]
    exact le_rfl
  · exact Finset.card_insert_le _ _

end

section

variable {τ α : Type} [DecidableEq τ] {p : τ} {x : Option (List UInt8)} {s t : Sys τ}
  {D : Finset ℕ} {R : α → Sys τ × Finset ℕ → Prop}

/-- The operations themselves do not end so. -/
theorem act_ne_tooBig {o : Op} (ho : ∀ msg, o ≠ .panic msg) {e : End}
    (h : Sys.act p x o s = .error e) : e ≠ tooBig := by
  rintro rfl
  cases o with
  | panic msg => exact ho msg rfl
  | bread l =>
    rw [Sys.act] at h
    split_ifs at h <;> exact absurd (Except.error.inj h) (by decide)
  | logWrite n =>
    rw [Sys.act] at h
    split_ifs at h
    exact absurd (Except.error.inj h) (by decide)
  | brelse n =>
    rw [Sys.act] at h
    split_ifs at h
    exact absurd (Except.error.inj h) (by decide)
  | iget dev inum =>
    rw [Sys.act, Sys.iget] at h
    split at h
    · cases h
    · split at h
      · cases h
      · exact absurd (Except.error.inj h) (by decide)
  | acquiresleep ip =>
    rw [Sys.act] at h
    split_ifs at h
    exact absurd (Except.error.inj h) (by decide)
  | fileDrop f =>
    rw [Sys.act, Sys.fileDrop] at h
    split_ifs at h
    exact absurd (Except.error.inj h) (by decide)
  | _ => cases h

/-- The kernel under the watch. -/
abbrev Watched (p : τ) (x : Option (List UInt8)) : Machine Op Ans (Sys τ × Finset ℕ) :=
  (Sys.act p x).watch reservation

/-- What a program under the watch does not come to. -/
abbrev Small : End → Prop := fun e => e ≠ tooBig

/-- An operation that logs nothing. -/
theorem wp_silent {o : Op} {f : Ans o → Code α} (ho : ∀ msg, o ≠ .panic msg)
    (hboot : o.isBoot = false) (hn : note D o = D) (hD : D.card ≤ MAXOPBLOCKS)
    (h : ∀ a t, Sys.act p x o s = .ok (a, t) → Wp (Watched p x) Small (f a) (t, D) R) :
    Wp (Watched p x) Small (perform o >>= f) (s, D) R := by
  refine Wp.watch_bind ?_ (fun e he => act_ne_tooBig ho he) h
  rw [reservation, hboot, hn, if_neg (by decide), if_pos hD]

theorem wp_silent_last {o : Op} {Q : Ans o → Sys τ × Finset ℕ → Prop} (ho : ∀ msg, o ≠ .panic msg)
    (hboot : o.isBoot = false) (hn : note D o = D) (hD : D.card ≤ MAXOPBLOCKS)
    (h : ∀ a t, Sys.act p x o s = .ok (a, t) → Q a (t, D)) :
    Wp (Watched p x) Small (perform o) (s, D) Q := by
  have hbind := wp_silent (f := fun a => (pure a : Code (Ans o))) ho hboot hn hD h
  exact hbind

theorem wp_panic {msg : String} (hmsg : msg ≠ "transaction too big") (hD : D.card ≤ MAXOPBLOCKS) :
    Wp (Watched p x) Small (panic msg : Code α) (s, D) R := by
  have hw : reservation (.panic msg) D = .ok D := if_pos hD
  have hrun : (panic msg : Code α).run (Watched p x) (s, D) = .error (.panic msg) := by
    change ((reservation (.panic msg) D).bind _ : Outcome _).bind _ = _
    rw [hw]
    rfl
  rw [Wp, hrun]
  exact fun he => hmsg (End.panic.inj he)

/-- A block is read that is not block 0. -/
theorem wp_bread' {l : Loc} {f : ℕ × Block → Code α} (hD : D.card ≤ MAXOPBLOCKS)
    (h : l ≠ .block 0 → ∀ b t, Same s t → Wp (Watched p x) Small (f (l.at s.sb, b)) (t, D) R) :
    Wp (Watched p x) Small (bread l >>= f) (s, D) R := by
  by_cases hl : l = .block 0
  · rw [hl]
    exact (by decide : End.blocked ≠ tooBig)
  · have hboot : (Op.bread l).isBoot = false := by
      rcases l with (_ | n) | _ | _
      · exact absurd rfl hl
      · rfl
      · rfl
      · rfl
    refine wp_silent (by simp) hboot rfl hD fun a t ht => ?_
    rw [Sys.act] at ht
    split_ifs at ht
    cases ht
    exact h hl _ _ ⟨rfl, rfl⟩

theorem wp_brelse' {n : ℕ} {f : Unit → Code α} (hD : D.card ≤ MAXOPBLOCKS)
    (h : ∀ t, Same s t → Wp (Watched p x) Small (f ()) (t, D) R) :
    Wp (Watched p x) Small (brelse n >>= f) (s, D) R := by
  refine wp_silent (by simp) rfl rfl hD fun a t ht => ?_
  rw [Sys.act] at ht
  split_ifs at ht
  cases ht
  exact h _ ⟨rfl, rfl⟩

theorem wp_logged' {n : ℕ} {b : Block} {f : Unit → Code α}
    (hD : (insert n D).card ≤ MAXOPBLOCKS)
    (h : ∀ t, Same s t → Wp (Watched p x) Small (f ()) (t, insert n D) R) :
    Wp (Watched p x) Small (logged n b >>= f) (s, D) R := by
  have hD' : D.card ≤ MAXOPBLOCKS := (Finset.card_le_card (Finset.subset_insert n D)).trans hD
  rw [logged, Prog.bind_assoc]
  refine wp_silent (by simp) rfl rfl hD' fun a t ht => ?_
  cases ht
  have hne : ∀ msg, Op.logWrite n ≠ .panic msg := by simp
  refine Wp.watch_bind (o := Op.logWrite n) (if_pos hD)
    (fun e he => act_ne_tooBig hne he) fun a t ht => ?_
  rw [Sys.act] at ht
  split_ifs at ht
  cases ht
  exact h _ ⟨rfl, rfl⟩

/-! ### Allocation -/

/-- A new block takes itself and a block of the bitmap. -/
theorem ballocLoop_watch {size n k : ℕ} (hsize : size < 2 ^ 32) (hD : D.card + 2 ≤ MAXOPBLOCKS) :
    Wp (Watched p x) Small (ballocLoop size n k) (s, D) fun a r =>
      a ≠ 0 ∧ Same s r.1 ∧ ∃ c, r.2 = insert a.toNat (insert c D) := by
  induction n generalizing s k with
  | zero => exact wp_panic (by decide) (by omega)
  | succ n ih =>
    rw [ballocLoop]
    refine wp_bread' (by omega) fun _ data t ht => ?_
    dsimp only
    generalize Loc.at s.sb (.bitmap (k * BPB)) = c
    have h1 := Finset.card_insert_le c D
    cases hf : freeBit size (k * BPB) data with
    | some bi =>
      obtain ⟨⟨-, hlt, -⟩, -⟩ := freeBit_eq_some.mp hf
      dsimp only
      generalize k * BPB + bi = b at hlt ⊢
      have h2 := Finset.card_insert_le b (insert c D)
      refine wp_logged' (by omega) fun t1 ht1 => ?_
      refine wp_brelse' (by omega) fun t2 ht2 => ?_
      rw [bzero]
      simp only [Prog.bind_assoc]
      refine wp_bread' (l := .block b) (by omega) fun hb data t3 ht3 => ?_
      dsimp only [Loc.at]
      refine wp_logged' (by omega) fun t4 ht4 => ?_
      refine wp_brelse' (by omega) fun t5 ht5 => ?_
      have hnat : (UInt32.ofNat b).toNat = b := by
        rw [UInt32.toNat_ofNat', Nat.mod_eq_of_lt (hlt.trans hsize)]
      refine Wp.pure ⟨fun hz => hb ?_, ((((ht.trans ht1).trans ht2).trans ht3).trans ht4).trans ht5,
        c, ?_⟩
      · have hz' := congrArg UInt32.toNat hz
        rw [hnat] at hz'
        exact congrArg Loc.block hz'
      · rw [hnat]
    | none =>
      refine wp_brelse' (by omega) fun t1 ht1 => (ih (s := t1)).imp ?_
      rintro a r ⟨ha, hr, hc⟩
      exact ⟨ha, (ht.trans ht1).trans hr, hc⟩

theorem balloc_watch (hD : D.card + 2 ≤ MAXOPBLOCKS) :
    Wp (Watched p x) Small balloc (s, D) fun a r =>
      a ≠ 0 ∧ Same s r.1 ∧ ∃ c, r.2 = insert a.toNat (insert c D) := by
  refine wp_silent (by simp) rfl rfl (by omega) fun sb t ht => ?_
  cases ht
  exact ballocLoop_watch s.sb.size.toNat_lt hD

theorem slot_watch {ip : Ip} {k : Slot} (hD : D.card ≤ MAXOPBLOCKS)
    (hnew : (s.inode ip).d.addrs k = 0 → D.card + 2 ≤ MAXOPBLOCKS) :
    Wp (Watched p x) Small (slot ip k) (s, D) fun a r =>
      a ≠ 0 ∧ Edit ip (setAddr k a (s.inode ip).d) s r.1 ∧
        if (s.inode ip).d.addrs k = 0 then ∃ c, r.2 = insert a.toNat (insert c D)
        else a = (s.inode ip).d.addrs k ∧ r.2 = D := by
  refine wp_silent (by simp) rfl rfl hD fun c t ht => ?_
  cases ht
  by_cases hz : (s.inode ip).d.addrs k = 0
  · rw [if_pos hz]
    have hD2 := hnew hz
    refine Wp.bind (balloc_watch hD2) ?_
    rintro a ⟨t, D'⟩ ⟨ha, ht, c, rfl⟩
    have h1 := Finset.card_insert_le c D
    have h2 := Finset.card_insert_le a.toNat (insert c D)
    refine wp_silent (by simp) rfl rfl (by omega) fun _ t1 ht1 => ?_
    cases ht1
    refine Wp.pure ⟨ha, ⟨?_, ht.file⟩, ?_⟩
    · change Function.update t.inode ip _ = _
      rw [ht.inode]
    · rw [if_pos hz]
      exact ⟨c, rfl⟩
  · rw [if_neg hz]
    have hself : setAddr k ((s.inode ip).d.addrs k) (s.inode ip).d = (s.inode ip).d := by
      rw [setAddr, Function.update_eq_self]
    refine Wp.pure ⟨hz, ?_, ?_⟩
    · rw [hself]
      exact (⟨rfl, rfl⟩ : Same s s).edit ip
    · rw [if_neg hz]
      exact ⟨rfl, rfl⟩

/-- A block in the indirect block. -/
theorem entry_watch {a : UInt32} {m : ℕ} (ha : a ≠ 0) (hD : D.card + due a D + 2 ≤ MAXOPBLOCKS) :
    Wp (Watched p x) Small (do
      let bp ← bread (.block a.toNat)
      if bp.2.getInt m = 0 then
        let addr ← balloc
        logged bp.1 (bp.2.putInt m addr)
        brelse bp.1
        return addr
      else
        brelse bp.1
        return bp.2.getInt m) (s, D) fun b r => Same s r.1 ∧
      (insert b.toNat r.2).card + due a (insert b.toNat r.2) ≤ D.card + due a D + 2 := by
  refine wp_bread' (l := .block a.toNat) (by omega) fun _ data t ht => ?_
  dsimp only [Loc.at]
  split_ifs with hz
  · refine Wp.bind (balloc_watch (by omega)) ?_
    rintro b ⟨t1, D'⟩ ⟨-, ht1, c, rfl⟩
    -- The new block, its bitmap block and the indirect block.
    have hins : insert a.toNat (insert b.toNat (insert c D)) =
        insert b.toNat (insert c (insert a.toNat D)) := by
      rw [Finset.insert_comm, Finset.insert_comm a.toNat]
    have h1 := card_insert_due (D := D) ha
    have h2 := Finset.card_insert_le c (insert a.toNat D)
    have h3 := Finset.card_insert_le b.toNat (insert c (insert a.toNat D))
    refine wp_logged' (by rw [hins]; omega) fun t2 ht2 => ?_
    refine wp_brelse' (by rw [hins]; omega) fun t3 ht3 => Wp.pure ⟨?_, ?_⟩
    · exact ((ht.trans ht1).trans ht2).trans ht3
    · dsimp only
      rw [hins, Finset.insert_idem, due_mem ha (by simp)]
      omega
  · refine wp_brelse' (by omega) fun t1 ht1 => Wp.pure ⟨ht.trans ht1, ?_⟩
    have h1 := Finset.card_insert_le (data.getInt m).toNat D
    have h2 := due_mono (a := a) (Finset.subset_insert (data.getInt m).toNat D)
    dsimp only
    omega

/-- What a block of the file costs: one block if it is in the inode, else two at most. -/
theorem bmap_watch {ip : Ip} {bn cost : ℕ}
    (hcost : cost = if bn < NDIRECT ∧ (s.inode ip).d.addrs (direct bn) ≠ 0 then 1 else 2)
    (hD : D.card + due ((s.inode ip).d.addrs indirect) D + cost ≤ MAXOPBLOCKS) :
    Wp (Watched p x) Small (bmap ip bn) (s, D) fun a r => ∃ addrs,
      Edit ip { (s.inode ip).d with addrs := addrs } s r.1 ∧ addrs (first bn) ≠ 0 ∧
      (∀ k, (s.inode ip).d.addrs k ≠ 0 → addrs k ≠ 0) ∧
      (insert a.toNat r.2).card + due (addrs indirect) (insert a.toNat r.2) ≤
        D.card + due ((s.inode ip).d.addrs indirect) D + cost := by
  rw [bmap, first]
  split_ifs with hdir hind
  · refine (slot_watch (by omega) fun hz => ?_).imp ?_
    · rw [hcost, if_neg fun h => h.2 hz] at hD
      omega
    rintro a ⟨t, D'⟩ ⟨ha, ht, hD'⟩
    refine ⟨_, ht, ?_, update_ne_zero ha, ?_⟩
    · rwa [Function.update_self]
    · rw [Function.update_of_ne (direct_ne_indirect hdir).symm]
      dsimp only at hD' ⊢
      split_ifs at hD' with hz
      · obtain ⟨c, rfl⟩ := hD'
        rw [hcost, if_neg fun h => h.2 hz, Finset.insert_idem]
        have h1 := Finset.card_insert_le c D
        have h2 := Finset.card_insert_le a.toNat (insert c D)
        have h3 := due_mono (a := (s.inode ip).d.addrs indirect)
          ((Finset.subset_insert c D).trans (Finset.subset_insert a.toNat _))
        omega
      · obtain ⟨-, rfl⟩ := hD'
        rw [hcost, if_pos ⟨hdir, hz⟩]
        have h1 := Finset.card_insert_le a.toNat D'
        have h2 := due_mono (a := (s.inode ip).d.addrs indirect) (Finset.subset_insert a.toNat D')
        omega
  · have hc2 : cost = 2 := by rw [hcost, if_neg fun h => hdir h.1]
    rw [hc2] at hD ⊢
    refine Wp.bind (slot_watch (by omega) fun hz => ?_) ?_
    · rw [due, if_pos hz] at hD
      omega
    rintro a ⟨t, D'⟩ ⟨ha, ht, hD'⟩
    have hle : D'.card + due a D' ≤ D.card + due ((s.inode ip).d.addrs indirect) D := by
      dsimp only at hD'
      split_ifs at hD' with hz
      · obtain ⟨c, rfl⟩ := hD'
        have h1 := Finset.card_insert_le c D
        have h2 := Finset.card_insert_le a.toNat (insert c D)
        have h3 : due ((s.inode ip).d.addrs indirect) D = 2 := if_pos hz
        rw [due_mem ha (Finset.mem_insert_self _ _)]
        omega
      · obtain ⟨rfl, rfl⟩ := hD'
        exact le_rfl
    refine (entry_watch ha (by omega)).imp ?_
    rintro b ⟨t1, D1⟩ ⟨ht1, hD1⟩
    refine ⟨Function.update (s.inode ip).d.addrs indirect a,
      ⟨ht1.inode.trans ht.inode, ht1.file.trans ht.file⟩, ?_, update_ne_zero ha, ?_⟩
    · rwa [Function.update_self]
    · rw [Function.update_self]
      exact hD1.trans (by omega)
  · exact wp_panic (by decide) (by omega)

/-- The blocks that `n` bytes at `off` are in. -/
def blocks (off n : ℕ) : ℕ := if n = 0 then 0 else (off + n - 1) / BSIZE + 1 - off / BSIZE

/-- The inode itself has the block of the offset. -/
def Direct (d : Dinode) (off n : ℕ) : Prop :=
  0 < n ∧ off / BSIZE < NDIRECT ∧ d.addrs (direct (off / BSIZE)) ≠ 0

instance (d : Dinode) (off n : ℕ) : Decidable (Direct d off n) := inferInstanceAs (Decidable (_ ∧ _))

/-- A turn of the loop goes to the end of a block. -/
theorem blocks_turn (off : ℕ) {n : ℕ} (hn : 0 < n) :
    blocks (off + min n (BSIZE - off % BSIZE)) (n - min n (BSIZE - off % BSIZE)) + 1 =
      blocks off n := by
  rw [blocks, blocks, if_neg (Nat.pos_iff_ne_zero.mp hn)]
  change (if n - min n (512 - off % 512) = 0 then 0 else
    (off + min n (512 - off % 512) + (n - min n (512 - off % 512)) - 1) / 512 + 1 -
      (off + min n (512 - off % 512)) / 512) + 1 = (off + n - 1) / 512 + 1 - off / 512
  split_ifs with h <;> omega

/-- What is written last. -/
theorem last_turn (off : ℕ) {n : ℕ} (hn : 0 < n) (h : n - min n (BSIZE - off % BSIZE) = 0) :
    (off + n - 1) / BSIZE = off / BSIZE := by
  change n - min n (512 - off % 512) = 0 at h
  change (off + n - 1) / 512 = off / 512
  omega

/-- The loop logs no more than two blocks for each block of the range, and the indirect block. -/
theorem writeLoop_watch {ip : Ip} {fuel off : ℕ} {src : List UInt8} (hfuel : src.length ≤ fuel)
    (hD : D.card + due ((s.inode ip).d.addrs indirect) D + 2 * blocks off src.length + 1 ≤
      MAXOPBLOCKS + if Direct (s.inode ip).d off src.length then 1 else 0) :
    Wp (Watched p x) Small (writeLoop ip fuel off src) (s, D) fun r q =>
      r = off + src.length ∧ q.2.card + 1 ≤ MAXOPBLOCKS ∧ ∃ addrs,
        Edit ip { (s.inode ip).d with addrs := addrs } s q.1 ∧
        (∀ k, (s.inode ip).d.addrs k ≠ 0 → addrs k ≠ 0) ∧
        (0 < src.length → addrs (first ((off + src.length - 1) / BSIZE)) ≠ 0) := by
  have hnil : ∀ {s : Sys τ} {D : Finset ℕ} {off : ℕ},
      D.card + due ((s.inode ip).d.addrs indirect) D + 2 * blocks off 0 + 1 ≤
        MAXOPBLOCKS + (if Direct (s.inode ip).d off 0 then 1 else 0) →
      D.card + 1 ≤ MAXOPBLOCKS ∧ Edit ip (s.inode ip).d s s := by
    intro s D off h
    rw [if_neg fun hd => lt_irrefl 0 hd.1] at h
    exact ⟨by omega, (⟨rfl, rfl⟩ : Same s s).edit ip⟩
  induction fuel generalizing s D off src with
  | zero =>
    obtain rfl : src = [] := List.length_eq_zero_iff.mp (Nat.le_zero.mp hfuel)
    obtain ⟨h1, h2⟩ := hnil hD
    exact Wp.pure ⟨rfl, h1, _, h2, fun _ hk => hk, fun hlt => absurd hlt (lt_irrefl 0)⟩
  | succ fuel ih =>
    rw [writeLoop]
    split_ifs with hn
    · subst hn
      obtain ⟨h1, h2⟩ := hnil hD
      exact Wp.pure ⟨rfl, h1, _, h2, fun _ hk => hk, fun hlt => absurd hlt (lt_irrefl 0)⟩
    · have hpos : 0 < src.length := List.length_pos_iff.mpr hn
      have hturn := blocks_turn off hpos
      have hlast := last_turn off hpos
      have hmod := Nat.mod_lt off (show 0 < BSIZE by decide)
      have hm1 : 1 ≤ min src.length (BSIZE - off % BSIZE) := by omega
      obtain ⟨cost, hcost⟩ : ∃ cost, cost = if off / BSIZE < NDIRECT ∧
          (s.inode ip).d.addrs (direct (off / BSIZE)) ≠ 0 then 1 else 2 := ⟨_, rfl⟩
      have hbudget : D.card + due ((s.inode ip).d.addrs indirect) D +
          2 * blocks off src.length + cost ≤ MAXOPBLOCKS + 1 := by
        rw [hcost]
        split_ifs at hD ⊢ with hdirect hd hd
        · omega
        · exact absurd ⟨hpos, hdirect⟩ hd
        · exact absurd hd.2 hdirect
        · omega
      refine Wp.bind (bmap_watch hcost (by omega)) ?_
      rintro a ⟨t, D'⟩ ⟨addrs, ht, hfirst, hkeep, hD'⟩
      dsimp only at ht hD' ⊢
      have hm2 := Nat.min_le_left src.length (BSIZE - off % BSIZE)
      generalize min src.length (BSIZE - off % BSIZE) = m at hturn hlast hm1 hm2 ⊢
      have hsub := Finset.card_le_card (Finset.subset_insert a.toNat D')
      refine wp_bread' (l := .block a.toNat) (by omega) fun _ data t1 ht1 => ?_
      dsimp only [Loc.at]
      refine wp_logged' (by omega) fun t2 ht2 => ?_
      refine wp_brelse' (by omega) fun t3 ht3 => ?_
      have hsame := (ht1.trans ht2).trans ht3
      have hself : (t3.inode ip) = { s.inode ip with
          d := { (s.inode ip).d with addrs := addrs } } := by
        rw [hsame.inode, ht.self]
      have hdrop : (src.drop m).length = src.length - m := List.length_drop
      refine (@ih t3 _ (off + m) (src.drop m) (by omega) ?_).imp ?_
      · rw [hself, hdrop]
        refine le_trans ?_ (Nat.le_add_right _ _)
        dsimp only
        omega
      rintro r q ⟨rfl, hcard, addrs', hq, hkeep', hfirst'⟩
      rw [hself] at hq hkeep'
      refine ⟨by omega, hcard, addrs', ?_, fun k hk => hkeep' k (hkeep k hk), fun _ => ?_⟩
      · exact (Edit.trans ⟨hsame.inode.trans ht.inode, hsame.file.trans ht.file⟩ hq)
      · rcases Nat.eq_zero_or_pos (src.length - m) with hz | hlt
        · rw [hlast hz]
          exact hkeep' _ hfirst
        · have he : off + m + (src.length - m) - 1 = off + src.length - 1 := by omega
          rw [hdrop, he] at hfirst'
          exact hfirst' hlt

/-- A regular file, with a block where a write at the offset starts within one. -/
structure Started (d : Dinode) (off : ℕ) : Prop where
  file : d.type = T_FILE
  block : off % BSIZE ≠ 0 → d.addrs (first (off / BSIZE)) ≠ 0

/-- A chunk fits into an empty transaction. -/
theorem Started.budget {d : Dinode} {off n : ℕ} (h : Started d off) (hn : n ≤ maxWrite) :
    (∅ : Finset ℕ).card + due (d.addrs indirect) ∅ + 2 * blocks off n + 1 ≤
      MAXOPBLOCKS + if Direct d off n then 1 else 0 := by
  change n ≤ 1536 at hn
  have hdue : due (d.addrs indirect) ∅ ≤ 2 := by
    rw [due]
    split_ifs <;> decide
  have hmax : MAXOPBLOCKS = 10 := rfl
  rw [Finset.card_empty]
  rcases Nat.eq_zero_or_pos n with rfl | hpos
  · have hb : blocks off 0 = 0 := rfl
    omega
  · have hb : blocks off n = (off + n - 1) / 512 + 1 - off / 512 :=
      if_neg (Nat.pos_iff_ne_zero.mp hpos)
    by_cases hz : off % 512 = 0
    · omega
    · have hblock := h.block hz
      rw [first] at hblock
      split_ifs at hblock with hdir
      · rw [if_pos ⟨hpos, hdir, hblock⟩]
        omega
      · have hone : due (d.addrs indirect) ∅ = 1 := by
          rw [due, if_neg hblock, if_neg (Finset.notMem_empty _)]
        omega

/-- The chunk is written up to an offset where the next one can start. -/
theorem Started.next {d : Dinode} {off n : ℕ} {addrs : Slot → UInt32} {size : UInt32}
    (h : Started d off) (hkeep : ∀ k, d.addrs k ≠ 0 → addrs k ≠ 0)
    (hfirst : 0 < n → addrs (first ((off + n - 1) / BSIZE)) ≠ 0) :
    Started { d with addrs := addrs, size := size } (off + n) where
  file := h.file
  block hne := by
    rcases Nat.eq_zero_or_pos n with rfl | hpos
    · exact hkeep _ (h.block hne)
    · have he : (off + n) / BSIZE = (off + n - 1) / BSIZE := by
        change (off + n) % 512 ≠ 0 at hne
        change (off + n) / 512 = (off + n - 1) / 512
        omega
      rw [he]
      exact hfirst hpos

theorem iupdate_watch {ip : Ip} {f : Unit → Code α} (hD : D.card + 1 ≤ MAXOPBLOCKS)
    (h : ∀ t n, Same s t → Wp (Watched p x) Small (f ()) (t, insert n D) R) :
    Wp (Watched p x) Small (iupdate ip >>= f) (s, D) R := by
  rw [iupdate, Prog.bind_assoc]
  refine wp_silent (by simp) rfl rfl (by omega) fun c t ht => ?_
  cases ht
  simp only [Prog.bind_assoc]
  refine wp_bread' (by omega) fun _ data t1 ht1 => ?_
  have hins := Finset.card_insert_le (Loc.at s.sb (.inode (s.inode ip).inum)) D
  refine wp_logged' (by dsimp only; omega) fun t2 ht2 => ?_
  refine wp_brelse' (by dsimp only; omega) fun t3 ht3 => h t3 _ ((ht1.trans ht2).trans ht3)

theorem writei_watch {ip : Ip} {off : ℕ} {src : List UInt8} (hd : Started (s.inode ip).d off)
    (hlen : src.length ≤ maxWrite) :
    Wp (Watched p x) Small (writei ip src off) (s, ∅) fun r q => q.2.card ≤ MAXOPBLOCKS ∧
      ∃ d, Edit ip d s q.1 ∧ ∀ n, r = some n → n = src.length ∧ off + n < 2 ^ 32 ∧
        Started d (off + n) := by
  have hsame : Edit ip (s.inode ip).d s s := (⟨rfl, rfl⟩ : Same s s).edit ip
  have hnone : Wp (Watched p x) Small (pure none : Code (Option ℕ)) (s, ∅) fun r q =>
      q.2.card ≤ MAXOPBLOCKS ∧ ∃ d, Edit ip d s q.1 ∧
        ∀ n, r = some n → n = src.length ∧ off + n < 2 ^ 32 ∧ Started d (off + n) :=
    Wp.pure ⟨Nat.zero_le _, _, hsame, fun n hn => by cases hn⟩
  refine wp_silent (by simp) rfl rfl (Nat.zero_le _) fun c t ht => ?_
  cases ht
  have hdev : ¬ (s.inode ip).d.type = T_DEV := by
    rw [hd.file]
    decide
  rw [if_neg hdev]
  split_ifs with hbad hmax
  · exact hnone
  · exact hnone
  · refine Wp.bind (writeLoop_watch le_rfl (hd.budget hlen)) ?_
    rintro r ⟨t, D⟩ ⟨rfl, hD, addrs, ht, hkeep, hfirst⟩
    dsimp only at hD ht
    have hlt : off + src.length < 2 ^ 32 := by
      change src.length ≤ 1536 at hlen
      omega
    refine wp_silent (by simp) rfl rfl (by omega) fun c t1 ht1 => ?_
    cases ht1
    split_ifs with hgrow
    · refine wp_silent (by simp) rfl rfl (by omega) fun _ t2 ht2 => ?_
      cases ht2
      have hself : (t.inode ip).d = { (s.inode ip).d with addrs := addrs } := by rw [ht.self]
      refine iupdate_watch hD fun t3 n ht3 => Wp.pure ⟨?_, { (s.inode ip).d with
        addrs := addrs, size := UInt32.ofNat (off + src.length) }, ?_, ?_⟩
      · exact (Finset.card_insert_le _ _).trans hD
      · refine ht.trans ⟨?_, ht3.file⟩
        rw [ht3.inode, Sys.setD, Sys.setInode, hself]
      · rintro m hm
        obtain rfl : src.length = m := Option.some.inj hm
        exact ⟨rfl, hlt, hd.next hkeep hfirst⟩
    · refine Wp.pure ⟨by dsimp only; omega, _, ht, ?_⟩
      rintro n hn
      obtain rfl : src.length = n := Option.some.inj hn
      exact ⟨rfl, hlt, hd.next hkeep hfirst⟩

/-! ### The chunks -/

/-- What `ilock` finds. -/
def Sys.found (s : Sys τ) (ip : Ip) : Dinode :=
  if (s.inode ip).valid then (s.inode ip).d
  else getDinode (s.blk (s.sb.IBLOCK (s.inode ip).inum)) ((s.inode ip).inum % IPB)

theorem ilock_watch {ip : Ip} (hD : D.card ≤ MAXOPBLOCKS) :
    Wp (Watched p x) Small (ilock ip) (s, D) fun _ q => q.2 = D ∧ q.1.file = s.file ∧
      (q.1.inode ip).d = s.found ip ∧ (q.1.inode ip).valid = true := by
  refine wp_silent (by simp) rfl rfl hD fun r t ht => ?_
  cases ht
  split_ifs with hr
  · exact wp_panic (by decide) hD
  · refine wp_silent (by simp) rfl rfl hD fun _ t ht => ?_
    rw [Sys.act] at ht
    split_ifs at ht
    cases ht
    have hself : (s.setLock ip (some p)).inode ip = { s.inode ip with lock := some p } :=
      setInode_self ..
    refine wp_silent (by simp) rfl rfl hD fun c t ht => ?_
    cases ht
    rw [hself]
    dsimp only
    split_ifs with hv
    · refine Wp.pure ⟨rfl, rfl, ?_, ?_⟩
      · rw [hself, Sys.found, if_pos hv]
      · rw [hself]
        exact hv
    · refine wp_silent (by simp) rfl rfl hD fun bp t ht => ?_
      rw [Sys.act] at ht
      split_ifs at ht
      cases ht
      refine wp_silent (by simp) rfl rfl hD fun _ t ht => ?_
      cases ht
      refine wp_brelse' hD fun t ht => ?_
      refine wp_silent (by simp) rfl rfl hD fun _ t' ht' => ?_
      cases ht'
      split_ifs with hz
      · exact wp_panic (by decide) hD
      · have hself' := congrFun ht.inode ip
        rw [Sys.setD, setInode_self] at hself'
        refine Wp.pure ⟨rfl, ht.file, ?_, ?_⟩
        · dsimp only
          rw [setInode_self, hself', Sys.found, if_neg hv]
          rfl
        · dsimp only
          rw [setInode_self]

theorem iunlock_watch {ip : Ip} (hD : D.card ≤ MAXOPBLOCKS) :
    Wp (Watched p x) Small (iunlock ip) (s, D) fun _ q => q.2 = D ∧ q.1.file = s.file ∧
      (q.1.inode ip).d = (s.inode ip).d ∧ (q.1.inode ip).valid = (s.inode ip).valid := by
  refine wp_silent (by simp) rfl rfl hD fun h t ht => ?_
  cases ht
  refine wp_silent (by simp) rfl rfl hD fun r t ht => ?_
  cases ht
  split_ifs with hr
  · exact wp_panic (by decide) hD
  · refine wp_silent_last (by simp) rfl rfl hD fun _ t ht => ?_
    cases ht
    have hself' : (s.setLock ip none).inode ip = { s.inode ip with lock := none } :=
      setInode_self ..
    exact ⟨rfl, rfl, by rw [hself'], by rw [hself']⟩

/-- A chunk logs no more than is reserved, and leaves the file for the next one. -/
theorem writeChunk_watch {f : Fp} {ip : Ip} {chunk : List UInt8}
    (hd : Started (s.found ip) (s.file f).off) (hlen : chunk.length ≤ maxWrite)
    (hoff : (s.file f).off < 2 ^ 32) :
    Wp (Watched p x) Small (writeChunk f ip chunk) (s, D) fun r q => q.2.card ≤ MAXOPBLOCKS ∧
      (r ≠ none → Started (q.1.found ip) (q.1.file f).off ∧ (q.1.file f).off < 2 ^ 32) := by
  refine Wp.watch_bind rfl (fun e he => by cases he) fun _ t ht => ?_
  cases ht
  refine Wp.bind (ilock_watch (Nat.zero_le _)) ?_
  rintro _ ⟨t, D'⟩ ⟨hD', hfile, hd', hv⟩
  dsimp only at hD' hfile hd' hv
  subst hD'
  refine wp_silent (by simp) rfl rfl (Nat.zero_le _) fun g t1 ht1 => ?_
  cases ht1
  rw [hfile]
  refine Wp.bind (writei_watch (by rw [hd']; exact hd) hlen) ?_
  rintro r ⟨u, D'⟩ ⟨hD', d, hu, hnext⟩
  dsimp only at hD' hu
  have hend : ∀ v : Sys τ, v.inode = u.inode →
      (v.file f).off = ((s.file f).off + r.getD 0) % 2 ^ 32 →
      Wp (Watched p x) Small (do
        iunlock ip
        endOp
        return r) (v, D') fun r q => q.2.card ≤ MAXOPBLOCKS ∧
          (r ≠ none → Started (q.1.found ip) (q.1.file f).off ∧ (q.1.file f).off < 2 ^ 32) := by
    intro v hv1 hv2
    refine Wp.bind (iunlock_watch hD') ?_
    rintro _ ⟨v1, D1⟩ ⟨hD1, hfile1, hd1, hv1'⟩
    dsimp only at hD1 hfile1 hd1 hv1'
    subst hD1
    refine wp_silent (by simp) rfl rfl hD' fun _ v2 hv2' => ?_
    cases hv2'
    refine Wp.pure ⟨hD', fun hr => ?_⟩
    cases r with
    | none => exact absurd rfl hr
    | some n =>
      obtain ⟨-, hlt, hst⟩ := hnext n rfl
      have hoff' : (v1.file f).off = (s.file f).off + n := by
        rw [hfile1, hv2, Option.getD_some, Nat.mod_eq_of_lt hlt]
      have hfound : v1.found ip = d := by
        rw [Sys.found, hv1', hv1, hu.self]
        dsimp only
        rw [if_pos hv, hd1, hv1, hu.self]
      change Started (v1.found ip) (v1.file f).off ∧ (v1.file f).off < 2 ^ 32
      rw [hoff', hfound]
      exact ⟨hst, hlt⟩
  split_ifs with hr
  · refine wp_silent (by simp) rfl rfl hD' fun _ v hv' => ?_
    cases hv'
    refine hend _ rfl ?_
    rw [setFile_self]
  · refine hend u rfl ?_
    have hz : r.getD 0 = 0 := by omega
    rw [hu.file, hfile, hz, Nat.add_zero, Nat.mod_eq_of_lt hoff]

theorem filewriteLoop_watch {f : Fp} {ip : Ip} {fuel : ℕ} {src : List UInt8}
    (hD : D.card ≤ MAXOPBLOCKS) (hd : Started (s.found ip) (s.file f).off)
    (hoff : (s.file f).off < 2 ^ 32) :
    Wp (Watched p x) Small (filewriteLoop f ip fuel src) (s, D) fun _ _ => True := by
  induction fuel generalizing s D src with
  | zero => exact Wp.pure trivial
  | succ fuel ih =>
    rw [filewriteLoop]
    split_ifs with hn
    · exact Wp.pure trivial
    · refine Wp.bind (writeChunk_watch hd (by simp) hoff) ?_
      rintro r ⟨t, D'⟩ ⟨hD', hnext⟩
      cases r with
      | none => exact Wp.pure trivial
      | some r =>
        obtain ⟨hd', hoff'⟩ := hnext (by simp)
        dsimp only
        split_ifs with hr
        · exact wp_panic (by decide) hD'
        · exact ih hD' hd' hoff'

omit [DecidableEq τ] in
/-- A regular file without holes can be written where it ends, or before. -/
theorem Regular.started {ip : Ip} {off : ℕ} (h : Cache s) (hf : Regular s ip)
    (hoff : off ≤ s.vol.size (s.inode ip).inum) : Started (s.found ip) off := by
  have hnum : (s.inode ip).inum < s.sb.ninodes.toNat := hf.inode.2.1
  have hfound : s.found ip = s.ino (s.inode ip).inum := by
    rw [Sys.found]
    split_ifs with hv
    · exact (h.ino_eq ⟨hf.ref, hv⟩).symm
    · rw [ino_of_not_loaded, if_pos hnum]
      intro jp hj he
      obtain rfl : jp = ip := h.unique jp ip hj.ref hf.ref he
      exact hv hj.valid
  rw [hfound]
  refine ⟨hf.file, fun hne => ?_⟩
  have hlt : off / BSIZE * BSIZE < off := by
    change off % 512 ≠ 0 at hne
    change off / 512 * 512 < off
    omega
  have hr := hf.noHoles.2 (off / BSIZE) (hlt.trans_le hoff)
  rw [first]
  rw [Pos.ofBn] at hr
  split_ifs at hr ⊢ with hdir
  · exact hr
  · intro hz
    have hind : s.vol.ind (s.inode ip).inum = 0 := hz
    rw [Volume.ref_entry, if_pos hind] at hr
    exact hr rfl

theorem filewrite_watch {f : Fp} {src : List UInt8} (h : Cache s)
    (hf : Regular s (s.file f).ip)
    (hoff : (s.file f).off ≤ s.vol.size (s.inode (s.file f).ip).inum) :
    Wp (Watched p x) Small (filewrite f src) (s, ∅) fun _ _ => True := by
  refine wp_silent (by simp) rfl rfl (Nat.zero_le _) fun ff t ht => ?_
  cases ht
  split_ifs with hw
  · exact Wp.pure trivial
  · cases (s.file f).type with
    | FD_NONE => exact wp_panic (by decide) (Nat.zero_le _)
    | FD_PIPE =>
      exact wp_silent (by simp) rfl rfl (Nat.zero_le _) fun _ _ _ => Wp.pure trivial
    | FD_INODE =>
      refine Wp.bind (filewriteLoop_watch (Nat.zero_le _) (hf.started h hoff) ?_)
        fun _ _ _ => Wp.pure trivial
      exact hoff.trans_lt (UInt32.toNat_lt _)

end

end Xv6.Fs
