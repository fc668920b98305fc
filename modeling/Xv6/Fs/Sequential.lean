import Xv6.Fs.Volume

/-! @src fs.c bio.c | name:Programs of the file system run alone | layer:proof

    The rules for the operations of a process that runs alone: a block is read or changed in its
    buffer, a free block is found by the bitmap. What a process does to an inode that it has locked is
    a change of the volume, put back into the state. -/

namespace Xv6.Fs
open Xv6.Disk Xv6.Schemes

namespace Sys

variable {τ : Type}

/-- The inode as the cache has it, or else the disk. There are no inodes from `ninodes` on. -/
def ino (s : Sys τ) (inum : ℕ) : Dinode :=
  match (List.finRange NINODE).find? fun ip =>
    0 < (s.inode ip).ref ∧ (s.inode ip).valid = true ∧ (s.inode ip).inum = inum with
  | some ip => (s.inode ip).d
  | none =>
    if inum < s.sb.ninodes.toNat then getDinode (s.blk (s.sb.IBLOCK inum)) (inum % IPB)
    else Dinode.zero

def vol (s : Sys τ) : Volume := ⟨s.sb, s.blk, s.ino⟩

/-- The blocks, and an inode in the cache, are taken from a volume. -/
def put (s : Sys τ) (ip : Ip) (v : Volume) : Sys τ :=
  { s.setD ip (v.ino (s.inode ip).inum) with blk := v.blk }

def withBlk (s : Sys τ) (blk : ℕ → Block) : Sys τ := { s with blk := blk }

def setBuf (s : Sys τ) (n : ℕ) (o : Option τ) : Sys τ :=
  { s with buf := Function.update s.buf n o }

end Sys

/-- There is one entry of the inode cache for an inode. -/
structure Cache {τ : Type} (s : Sys τ) : Prop where
  dev : ∀ ip, 0 < (s.inode ip).ref → (s.inode ip).dev = ROOTDEV
  unique : ∀ ip jp, 0 < (s.inode ip).ref → 0 < (s.inode jp).ref →
    (s.inode ip).inum = (s.inode jp).inum → ip = jp

/-- The entry is in use, and has been read from the disk. -/
structure Loaded {τ : Type} (s : Sys τ) (ip : Ip) : Prop where
  ref : 0 < (s.inode ip).ref
  valid : (s.inode ip).valid = true

section

variable {τ : Type} {s t : Sys τ} {ip jp : Ip} {n inum : ℕ} {b : Block} {v w : Volume}

@[simp] theorem vol_sb (s : Sys τ) : s.vol.sb = s.sb := rfl

@[simp] theorem vol_blk (s : Sys τ) : s.vol.blk = s.blk := rfl

@[simp] theorem vol_ino (s : Sys τ) : s.vol.ino = s.ino := rfl

theorem setInode_self (s : Sys τ) (ip : Ip) (c : Inode τ) : (s.setInode ip c).inode ip = c :=
  Function.update_self ..

theorem setInode_other (h : jp ≠ ip) (c : Inode τ) : (s.setInode ip c).inode jp = s.inode jp :=
  Function.update_of_ne h ..

theorem setFile_self (s : Sys τ) (f : Fp) (g : File) : (s.setFile f g).file f = g :=
  Function.update_self ..

theorem Cache.ino_eq (h : Cache s) (hip : Loaded s ip) :
    s.ino (s.inode ip).inum = (s.inode ip).d := by
  rw [Sys.ino]
  split
  · rename_i jp hj
    have hf := List.find?_some hj
    have hp := of_decide_eq_true hf
    rw [h.unique jp ip hp.1 hip.ref hp.2.2]
  · rename_i hn
    have hp := List.find?_eq_none.mp hn ip (List.mem_finRange ip)
    exact absurd (decide_eq_true ⟨hip.ref, hip.valid, rfl⟩) hp

theorem ino_of_not_loaded (h : ∀ ip, Loaded s ip → (s.inode ip).inum ≠ inum) :
    s.ino inum = if inum < s.sb.ninodes.toNat then
      getDinode (s.blk (s.sb.IBLOCK inum)) (inum % IPB) else Dinode.zero := by
  rw [Sys.ino]
  split
  · rename_i jp hj
    have hf := List.find?_some hj
    have hp := of_decide_eq_true hf
    exact absurd hp.2.2 (h jp ⟨hp.1, hp.2.1⟩)
  · rfl

/-- States with the same cache entries for an inode, and the same inode on the disk. -/
theorem ino_congr (h : Cache s) (h' : Cache t)
    (hl : ∀ ip, (Loaded s ip ∧ (s.inode ip).inum = inum) ↔ (Loaded t ip ∧ (t.inode ip).inum = inum))
    (hd : ∀ ip, Loaded s ip → (s.inode ip).inum = inum → (t.inode ip).d = (s.inode ip).d)
    (hsb : t.sb = s.sb) (hdisk : inum < s.sb.ninodes.toNat → t.vol.disk inum = s.vol.disk inum) :
    t.ino inum = s.ino inum := by
  by_cases hip : ∃ ip, Loaded s ip ∧ (s.inode ip).inum = inum
  · obtain ⟨ip, hs, hi⟩ := hip
    obtain ⟨ht, hi'⟩ := (hl ip).mp ⟨hs, hi⟩
    have hti := h'.ino_eq ht
    have hsi := h.ino_eq hs
    rw [hi'] at hti
    rw [hi] at hsi
    rw [hti, hsi, hd ip hs hi]
  · rw [ino_of_not_loaded fun ip ht hi => hip ⟨ip, (hl ip).mpr ⟨ht, hi⟩⟩,
      ino_of_not_loaded fun ip hs hi => hip ⟨ip, hs, hi⟩, hsb]
    by_cases hi : inum < s.sb.ninodes.toNat
    · have hd := hdisk hi
      rw [Volume.disk, vol_sb, hsb] at hd
      rw [if_pos hi, if_pos hi]
      exact hd
    · rw [if_neg hi, if_neg hi]

/-! ### Changes that concern one inode -/

/-- The other inodes stay, in the cache and on the disk. -/
structure Volume.Local (i : ℕ) (v w : Volume) : Prop where
  sb : w.sb = v.sb
  ino : ∀ j, j ≠ i → w.ino j = v.ino j
  disk : ∀ j, j ≠ i → j < v.sb.ninodes.toNat → w.disk j = v.disk j

theorem Volume.Local.refl (i : ℕ) (v : Volume) : v.Local i v :=
  ⟨rfl, fun _ _ => rfl, fun _ _ _ => rfl⟩

theorem Volume.Local.trans {i : ℕ} {u : Volume} (h : u.Local i v) (h' : v.Local i w) :
    u.Local i w :=
  ⟨h'.sb.trans h.sb, fun j hj => (h'.ino j hj).trans (h.ino j hj),
    fun j hj hn => (h'.disk j hj (h.sb.symm ▸ hn)).trans (h.disk j hj hn)⟩

theorem put_inode_self (s : Sys τ) (ip : Ip) (v : Volume) :
    (s.put ip v).inode ip = { s.inode ip with d := v.ino (s.inode ip).inum } :=
  Function.update_self ..

theorem put_inode_other (h : jp ≠ ip) : (s.put ip v).inode jp = s.inode jp :=
  Function.update_of_ne h ..

/-- The entries stay but for the inode. -/
theorem put_inode (s : Sys τ) (ip : Ip) (v : Volume) (jp : Ip) :
    ∃ d, (s.put ip v).inode jp = { s.inode jp with d := d } := by
  by_cases h : jp = ip
  · subst h
    exact ⟨_, put_inode_self s jp v⟩
  · exact ⟨(s.inode jp).d, put_inode_other h⟩

theorem put_inum (s : Sys τ) (ip : Ip) (v : Volume) (jp : Ip) :
    ((s.put ip v).inode jp).inum = (s.inode jp).inum := by
  obtain ⟨d, h⟩ := put_inode s ip v jp
  rw [h]

theorem loaded_put : Loaded (s.put ip v) jp ↔ Loaded s jp := by
  obtain ⟨d, h⟩ := put_inode s ip v jp
  exact ⟨fun hl => ⟨by simpa [h] using hl.ref, by simpa [h] using hl.valid⟩,
    fun hl => ⟨by simpa [h] using hl.ref, by simpa [h] using hl.valid⟩⟩

theorem Cache.put (h : Cache s) : Cache (s.put ip v) where
  dev := by
    intro jp hr
    obtain ⟨d, hd⟩ := put_inode s ip v jp
    rw [hd] at hr ⊢
    exact h.dev jp hr
  unique := by
    intro jp kp hj hk he
    obtain ⟨d, hd⟩ := put_inode s ip v jp
    obtain ⟨d', hd'⟩ := put_inode s ip v kp
    rw [hd] at hj he
    rw [hd'] at hk he
    exact h.unique jp kp hj hk he

theorem put_put (s : Sys τ) (ip : Ip) (v w : Volume) : (s.put ip v).put ip w = s.put ip w := by
  rw [Sys.put, put_inum]
  simp [Sys.put, Sys.setD, Sys.setInode]

theorem Cache.put_vol (h : Cache s) (hip : Loaded s ip) : s.put ip s.vol = s := by
  have hd : { s.inode ip with d := s.vol.ino (s.inode ip).inum } = s.inode ip := by
    rw [vol_ino, h.ino_eq hip]
  rw [Sys.put, Sys.setD, Sys.setInode, hd, Function.update_eq_self]
  rfl

/-- The volume of the state that it was put into. -/
theorem Cache.vol_put (h : Cache s) (hip : Loaded s ip)
    (hv : s.vol.Local (s.inode ip).inum v) : (s.put ip v).vol = v := by
  have hino : (s.put ip v).ino = v.ino := by
    funext j
    by_cases hj : j = (s.inode ip).inum
    · subst hj
      have hi := h.put.ino_eq (loaded_put.mpr hip : Loaded (s.put ip v) ip)
      rwa [put_inum, put_inode_self] at hi
    · rw [hv.ino j hj, vol_ino]
      refine ino_congr h h.put (fun jp => by rw [loaded_put, put_inum]) (fun jp _ he => ?_) rfl
        fun hn => ?_
      · rw [put_inode_other fun hji => hj (by rw [← he, hji])]
      · have hd := hv.disk j hj hn
        rw [Volume.disk, hv.sb] at hd
        exact hd
  rw [Sys.vol, hino]
  exact congrArg (fun sb => (⟨sb, v.blk, v.ino⟩ : Volume)) hv.sb.symm

theorem setBuf_setBuf (hb : s.buf n = none) (o : Option τ) : (s.setBuf n o).setBuf n none = s := by
  rw [Sys.setBuf, Sys.setBuf]
  dsimp only
  rw [Function.update_idem, ← hb, Function.update_eq_self]

theorem setBuf_self (s : Sys τ) (n : ℕ) (o : Option τ) : (s.setBuf n o).buf n = o :=
  Function.update_self ..

end

/-! ### The rules for blocks -/

section

variable {τ α : Type} [DecidableEq τ] {p : τ} {x : Option (List UInt8)} {E : End → Prop}
  {s t : Sys τ} {l : Loc} {n : ℕ} {b : Block} {R : α → Sys τ → Prop}

theorem wp_bread {f : ℕ × Block → Code α} (hn : l.at s.sb < s.disksize)
    (hb : s.buf (l.at s.sb) = none)
    (h : Wp (Sys.act p x) E (f (l.at s.sb, s.blk (l.at s.sb))) (s.setBuf (l.at s.sb) (some p)) R) :
    Wp (Sys.act p x) E (bread l >>= f) s R := by
  refine Wp.perform_bind ?_ h
  rw [Sys.act, if_neg (not_le.mpr hn), hb]
  rfl

theorem wp_brelse {f : Unit → Code α} (hb : s.buf n = some p)
    (h : Wp (Sys.act p x) E (f ()) (s.setBuf n none) R) :
    Wp (Sys.act p x) E (brelse n >>= f) s R := by
  refine Wp.perform_bind ?_ h
  rw [Sys.act, if_pos hb]
  rfl

theorem wp_logged {f : Unit → Code α} (ho : 1 ≤ s.outstanding)
    (h : Wp (Sys.act p x) E (f ()) (s.setBlk n b) R) :
    Wp (Sys.act p x) E (logged n b >>= f) s R := by
  rw [logged, perform, perform, Prog.bind_assoc]
  refine Wp.perform_bind rfl (Wp.perform_bind ?_ h)
  exact if_neg (Nat.not_lt.mpr ho)

/-- A block is read. -/
theorem wp_read {f : ℕ × Block → Code α} (hn : l.at s.sb < s.disksize)
    (hb : s.buf (l.at s.sb) = none)
    (h : Wp (Sys.act p x) E (f (l.at s.sb, s.blk (l.at s.sb))) s R) :
    Wp (Sys.act p x) E (bread l >>= fun bp => brelse bp.1 >>= fun _ => f bp) s R := by
  refine wp_bread hn hb (wp_brelse (setBuf_self ..) ?_)
  rwa [setBuf_setBuf hb]

/-- A block is changed. -/
theorem wp_write {f : ℕ × Block → Code α} (g : Block → Block) (hn : l.at s.sb < s.disksize)
    (hb : s.buf (l.at s.sb) = none) (ho : 1 ≤ s.outstanding)
    (h : Wp (Sys.act p x) E (f (l.at s.sb, s.blk (l.at s.sb)))
      (s.setBlk (l.at s.sb) (g (s.blk (l.at s.sb)))) R) :
    Wp (Sys.act p x) E
      (bread l >>= fun bp => logged bp.1 (g bp.2) >>= fun _ => brelse bp.1 >>= fun _ => f bp)
      s R := by
  refine wp_bread hn hb (wp_logged ho (wp_brelse (setBuf_self ..) ?_))
  have he : ((s.setBuf (l.at s.sb) (some p)).setBlk (l.at s.sb)
      (g (s.blk (l.at s.sb)))).setBuf (l.at s.sb) none =
      s.setBlk (l.at s.sb) (g (s.blk (l.at s.sb))) :=
    setBuf_setBuf (s := s.setBlk _ _) hb _
  rwa [he]

end

end Xv6.Fs
