import Xv6.Fs.Content
import Mathlib.Algebra.Group.Pi.Basic
import Mathlib.Algebra.Order.Group.Int
import Mathlib.Algebra.Order.Pi

/-! @src fs.c | name:The inode cache | layer:proof

    The functions that find, lock and drop an entry of the inode cache. What is in the cache has been
    stored, so they do not change the volume. `Reached` says what a part of a system call does to the
    rest: the references it takes, the locks it holds, and that the entries in use stay. -/

namespace Xv6.Fs
open Xv6.Disk Xv6.Schemes

/-- One reference to `ip`. -/
def one (ip : Ip) : Ip → ℤ := fun jp => if jp = ip then 1 else 0

namespace Sys

variable {τ : Type}

/-- The process has the inode locked, and has its contents. -/
def hold (s : Sys τ) (p : τ) (ip : Ip) : Sys τ :=
  s.setInode ip { s.inode ip with
    lock := some p, valid := true, d := s.ino (s.inode ip).inum }

/-- The open files, and the transactions, are others. -/
def files (s : Sys τ) (file : Fp → File) (ofile : τ → Fd → Option Fp) (cwd : τ → Option Ip)
    (outstanding : ℕ) : Sys τ :=
  { s with file := file, ofile := ofile, cwd := cwd, outstanding := outstanding }

end Sys

section

variable {τ : Type}

/-- The inodes in the cache are as they are stored. -/
def Stored (s : Sys τ) : Prop :=
  ∀ ip, Loaded s ip →
    (s.inode ip).inum < s.sb.ninodes.toNat ∧ s.vol.disk (s.inode ip).inum = (s.inode ip).d

/-- The file system while no function changes it. -/
structure Settled (s : Sys τ) : Prop where
  cache : Cache s
  stored : Stored s
  ref : ∀ ip, 0 ≤ (s.inode ip).ref
  sane : s.vol.Sane
  buf : ∀ n, s.buf n = none
  disk : s.sb.size.toNat ≤ s.disksize

/-- The process has the locks of `H`, and no other lock is held. -/
def Locks (s : Sys τ) (p : τ) (H : List Ip) : Prop :=
  ∀ ip, (s.inode ip).lock = if ip ∈ H then some p else none

/-- What is not in the volume and the inode cache is the same. -/
structure Apart (s t : Sys τ) : Prop where
  disksize : t.disksize = s.disksize
  file : t.file = s.file
  ofile : t.ofile = s.ofile
  cwd : t.cwd = s.cwd
  outstanding : t.outstanding = s.outstanding

/-- From `s`, process `p` has come to `t`: it has the locks of `H`, the volume is `w`, and entry `ip`
    has `n ip` more references. -/
structure Reached (p : τ) (s : Sys τ) (H : List Ip) (w : Volume) (n : Ip → ℤ) (t : Sys τ) :
    Prop where
  settled : Settled t
  locks : Locks t p H
  vol : t.vol = w
  ref : ∀ ip, (t.inode ip).ref = (s.inode ip).ref + n ip
  inum : ∀ ip, 0 < (s.inode ip).ref → 0 < (t.inode ip).ref →
    (t.inode ip).inum = (s.inode ip).inum
  valid : ∀ ip, Loaded s ip → 0 < (t.inode ip).ref → (t.inode ip).valid = true
  apart : Apart s t

end

section

variable {τ : Type} {s t u : Sys τ} {p : τ} {ip jp : Ip} {i : ℕ} {H H' : List Ip}
  {w w' : Volume} {n n' : Ip → ℤ}

/-! ### References and locks -/

@[simp] theorem one_self (ip : Ip) : one ip ip = 1 := if_pos rfl

theorem one_other (h : jp ≠ ip) : one ip jp = 0 := if_neg h

theorem one_nonneg (ip : Ip) : 0 ≤ one ip := by
  intro jp
  rw [one]
  split_ifs
  · exact Int.one_nonneg
  · exact le_rfl

theorem Apart.refl (s : Sys τ) : Apart s s := ⟨rfl, rfl, rfl, rfl, rfl⟩

theorem Apart.trans (h : Apart s t) (h' : Apart t u) : Apart s u :=
  ⟨h'.disksize.trans h.disksize, h'.file.trans h.file, h'.ofile.trans h.ofile,
    h'.cwd.trans h.cwd, h'.outstanding.trans h.outstanding⟩

theorem Reached.refl (h : Settled s) (hl : Locks s p H) : Reached p s H s.vol 0 s where
  settled := h
  locks := hl
  vol := rfl
  ref _ := (add_zero _).symm
  inum _ _ _ := rfl
  valid _ hip _ := hip.valid
  apart := .refl s

theorem Reached.trans (h : Reached p s H w n t) (h' : Reached p t H' w' n' u) (hn : 0 ≤ n) :
    Reached p s H' w' (n + n') u where
  settled := h'.settled
  locks := h'.locks
  vol := h'.vol
  ref ip := by rw [h'.ref, h.ref, Pi.add_apply, add_assoc]
  inum ip hs hu := by
    have ht : 0 < (t.inode ip).ref := by
      have hi : 0 ≤ n ip := hn ip
      rw [h.ref]
      omega
    rw [h'.inum ip ht hu, h.inum ip hs ht]
  valid ip hs hu := by
    have ht : 0 < (t.inode ip).ref := by
      have hi : 0 ≤ n ip := hn ip
      have hr := hs.ref
      rw [h.ref]
      omega
    exact h'.valid ip ⟨ht, h.valid ip hs ht⟩ hu
  apart := h.apart.trans h'.apart

/-- What was loaded is loaded, while it is in use. -/
theorem Reached.loaded (h : Reached p s H w n t) (hip : Loaded s ip) (hn : 0 ≤ n ip) :
    Loaded t ip := by
  have hr : 0 < (t.inode ip).ref := by
    have hs := hip.ref
    rw [h.ref]
    omega
  exact ⟨hr, h.valid ip hip hr⟩

/-! ### Entries -/

theorem setInode_setInode (s : Sys τ) (ip : Ip) (c c' : Inode τ) :
    (s.setInode ip c).setInode ip c' = s.setInode ip c' := by
  rw [Sys.setInode, Sys.setInode]
  dsimp only
  rw [Function.update_idem]
  rfl

/-- A lock is taken. -/
theorem Locks.cons {c : Inode τ} (h : Locks s p H) (hc : c.lock = some p) :
    Locks (s.setInode ip c) p (ip :: H) := by
  intro jp
  by_cases hji : jp = ip
  · rw [hji, setInode_self, hc, if_pos List.mem_cons_self]
  · rw [setInode_other hji, h jp]
    simp [hji]

/-- The locks stay. -/
theorem Locks.setInode {c : Inode τ} (h : Locks s p H) (hc : c.lock = (s.inode ip).lock) :
    Locks (s.setInode ip c) p H := by
  intro jp
  by_cases hji : jp = ip
  · rw [hji, setInode_self, hc, h ip]
  · rw [setInode_other hji, h jp]

/-- A lock is released. -/
theorem Locks.tail {c : Inode τ} (h : Locks s p (ip :: H)) (hip : ip ∉ H) (hc : c.lock = none) :
    Locks (s.setInode ip c) p H := by
  intro jp
  by_cases hji : jp = ip
  · rw [hji, setInode_self, hc, if_neg hip]
  · rw [setInode_other hji, h jp]
    simp [hji]

theorem Stored.ino_eq (h : Stored s) (i : ℕ) :
    s.ino i = if i < s.sb.ninodes.toNat then s.vol.disk i else Dinode.zero := by
  rw [Sys.ino]
  split
  · rename_i jp hj
    have hf := List.find?_some hj
    have hp := of_decide_eq_true hf
    obtain ⟨hlt, hd⟩ := h jp ⟨hp.1, hp.2.1⟩
    rw [hp.2.2] at hlt hd
    rw [if_pos hlt, hd]
  · rfl

/-- The volume is what is on the disk. -/
theorem Stored.vol_eq (h : Stored s) (h' : Stored t) (hsb : t.sb = s.sb) (hblk : t.blk = s.blk) :
    t.vol = s.vol := by
  have hino : t.ino = s.ino := by
    funext i
    rw [h.ino_eq, h'.ino_eq, hsb, Volume.disk, Volume.disk, vol_sb, vol_sb, vol_blk, vol_blk, hsb,
      hblk]
  rw [Sys.vol, Sys.vol, hsb, hblk, hino]

theorem Stored.disk_eq (h : Stored s) (hi : i < s.sb.ninodes.toNat) : s.vol.disk i = s.ino i := by
  rw [h.ino_eq, if_pos hi]

/-- An entry of the cache changes. -/
theorem Settled.setInode {c : Inode τ} (h : Settled s) (hdev : c.dev = ROOTDEV) (hr : 0 ≤ c.ref)
    (huniq : 0 < c.ref → ∀ jp, jp ≠ ip → 0 < (s.inode jp).ref → (s.inode jp).inum ≠ c.inum)
    (hd : 0 < c.ref → c.valid = true → c.inum < s.sb.ninodes.toNat ∧ c.d = s.ino c.inum) :
    Settled (s.setInode ip c) ∧ (s.setInode ip c).vol = s.vol := by
  have hother : ∀ jp, jp ≠ ip → (s.setInode ip c).inode jp = s.inode jp :=
    fun jp hj => setInode_other hj c
  have hself : (s.setInode ip c).inode ip = c := setInode_self s ip c
  have hstored : Stored (s.setInode ip c) := by
    rintro jp ⟨hj, hv⟩
    by_cases hji : jp = ip
    · rw [hji, hself] at hj hv ⊢
      obtain ⟨hlt, he⟩ := hd hj hv
      exact ⟨hlt, (h.stored.disk_eq hlt).trans he.symm⟩
    · rw [hother jp hji] at hj hv ⊢
      exact h.stored jp ⟨hj, hv⟩
  have hvol := h.stored.vol_eq hstored rfl rfl
  refine ⟨⟨⟨fun jp hj => ?_, fun jp kp hj hk he => ?_⟩, hstored, fun jp => ?_, hvol ▸ h.sane, h.buf,
    h.disk⟩, hvol⟩
  · by_cases hji : jp = ip
    · rw [hji, hself, hdev]
    · rw [hother jp hji] at hj ⊢
      exact h.cache.dev jp hj
  · by_cases hji : jp = ip
    · by_cases hki : kp = ip
      · rw [hji, hki]
      · rw [hji, hself, hother kp hki] at he
        rw [hji, hself] at hj
        rw [hother kp hki] at hk
        exact absurd he.symm (huniq hj kp hki hk)
    · by_cases hki : kp = ip
      · rw [hki, hself, hother jp hji] at he
        rw [hki, hself] at hk
        rw [hother jp hji] at hj
        exact absurd he (huniq hk jp hji hj)
      · rw [hother jp hji, hother kp hki] at he
        rw [hother jp hji] at hj
        rw [hother kp hki] at hk
        exact h.cache.unique jp kp hj hk he
  · by_cases hji : jp = ip
    · rwa [hji, hself]
    · rw [hother jp hji]
      exact h.ref jp

/-- The references to an entry in use, or its lock, change. -/
theorem Settled.setRef (h : Settled s) (hr : 0 < (s.inode ip).ref) {r : ℤ} (hr' : 0 ≤ r)
    (l : Option τ) :
    Settled (s.setInode ip { s.inode ip with ref := r, lock := l }) ∧
      (s.setInode ip { s.inode ip with ref := r, lock := l }).vol = s.vol :=
  h.setInode (h.cache.dev ip hr) hr'
    (fun _ jp hj hrj he => hj (h.cache.unique jp ip hrj hr he)) fun _ hv =>
      ⟨(h.stored ip ⟨hr, hv⟩).1, (h.cache.ino_eq ⟨hr, hv⟩).symm⟩

/-- The entry changes, and stays in use for its inode. -/
theorem Reached.setInode {c : Inode τ} (hc : Settled (s.setInode ip c) ∧ (s.setInode ip c).vol = s.vol)
    (hl : Locks (s.setInode ip c) p H') (hr : c.ref = (s.inode ip).ref + n ip)
    (hn : ∀ jp, jp ≠ ip → n jp = 0)
    (hi : 0 < (s.inode ip).ref → 0 < c.ref → c.inum = (s.inode ip).inum)
    (hv : Loaded s ip → 0 < c.ref → c.valid = true) :
    Reached p s H' s.vol n (s.setInode ip c) where
  settled := hc.1
  locks := hl
  vol := hc.2
  ref jp := by
    by_cases hji : jp = ip
    · rw [hji, setInode_self, hr]
    · rw [setInode_other hji, hn jp hji, add_zero]
  inum jp hj hj' := by
    by_cases hji : jp = ip
    · rw [hji, setInode_self] at hj' ⊢
      exact hi (hji ▸ hj) hj'
    · rw [setInode_other hji]
  valid jp hj hj' := by
    by_cases hji : jp = ip
    · rw [hji, setInode_self] at hj' ⊢
      exact hv (hji ▸ hj) hj'
    · rw [setInode_other hji]
      exact hj.valid
  apart := ⟨rfl, rfl, rfl, rfl, rfl⟩

/-- The inode is locked, and its contents are there. -/
theorem Reached.hold (h : Settled s) (hl : Locks s p H) (hr : 0 < (s.inode ip).ref)
    (hi : s.vol.Inode (s.inode ip).inum) :
    Reached p s (ip :: H) s.vol 0 (s.hold p ip) ∧ Loaded (s.hold p ip) ip := by
  have hset := h.setInode (c := { s.inode ip with
    lock := some p, valid := true, d := s.ino (s.inode ip).inum }) (h.cache.dev ip hr) (h.ref ip)
    (fun _ jp hj hrj he => hj (h.cache.unique jp ip hrj hr he)) fun _ _ => ⟨hi.2.1, rfl⟩
  refine ⟨.setInode hset (hl.cons rfl) (by simp) (fun _ _ => rfl) (fun _ _ => rfl) fun _ _ => rfl,
    ?_, ?_⟩
  · rwa [Sys.hold, setInode_self]
  · rw [Sys.hold, setInode_self]

/-! ### What else changes -/

theorem Settled.ready (h : Settled s) (hip : Loaded s ip) (hi : s.vol.Inode (s.inode ip).inum) :
    Ready s ip :=
  ⟨h.cache, hip, hi, h.sane, h.buf, h.disk⟩

theorem Settled.writing (h : Settled s) (hip : Loaded s ip) (hi : s.vol.Inode (s.inode ip).inum)
    (ho : 1 ≤ s.outstanding) : Writing s ip :=
  ⟨h.ready hip hi, ho⟩

/-- The volume is put into the state. -/
theorem Reached.put (h : Settled s) (hl : Locks s p H) (hip : Loaded s ip)
    (hw : s.vol.Local (s.inode ip).inum w) (hs : w.Sane)
    (hd : w.disk (s.inode ip).inum = w.ino (s.inode ip).inum) :
    Reached p s H w 0 (s.put ip w) where
  settled := {
    cache := h.cache.put
    stored := by
      intro jp hj
      rw [loaded_put] at hj
      obtain ⟨hlt, hdj⟩ := h.stored jp hj
      rw [h.cache.vol_put hip hw, put_inum]
      refine ⟨hlt, ?_⟩
      by_cases hji : jp = ip
      · rw [hji, put_inode_self, hd]
      · have hne : (s.inode jp).inum ≠ (s.inode ip).inum := fun he =>
          hji (h.cache.unique jp ip hj.ref hip.ref he)
        rw [put_inode_other hji, hw.disk _ hne hlt, hdj]
    ref := by
      intro jp
      obtain ⟨d, hd⟩ := put_inode s ip w jp
      rw [hd]
      exact h.ref jp
    sane := by rwa [h.cache.vol_put hip hw]
    buf := h.buf
    disk := h.disk }
  locks := by
    intro jp
    obtain ⟨d, hd⟩ := put_inode s ip w jp
    rw [hd]
    exact hl jp
  vol := h.cache.vol_put hip hw
  ref jp := by
    obtain ⟨d, hd⟩ := put_inode s ip w jp
    rw [hd]
    exact (add_zero _).symm
  inum jp _ _ := put_inum s ip w jp
  valid jp hj _ := (loaded_put.mpr hj).valid
  apart := ⟨rfl, rfl, rfl, rfl, rfl⟩

theorem Settled.files (h : Settled s) (F : Fp → File) (O : τ → Fd → Option Fp)
    (C : τ → Option Ip) (k : ℕ) : Settled (s.files F O C k) :=
  ⟨⟨h.cache.dev, h.cache.unique⟩, fun ip hip => h.stored ip ⟨hip.ref, hip.valid⟩, h.ref, h.sane,
    h.buf, h.disk⟩

theorem Reached.files (h : Reached p s H w n t) (F : Fp → File) (O : τ → Fd → Option Fp)
    (C : τ → Option Ip) (k : ℕ) :
    Reached p (s.files F O C k) H w n (t.files F O C k) where
  settled := h.settled.files F O C k
  locks := h.locks
  vol := h.vol
  ref := h.ref
  inum := h.inum
  valid ip hip hr := h.valid ip ⟨hip.ref, hip.valid⟩ hr
  apart := ⟨h.apart.disksize, rfl, rfl, rfl, rfl⟩

/-- An open file changes in both states. -/
theorem Reached.setFile (h : Reached p s H w n t) (f : Fp) (g : File) :
    Reached p (s.setFile f g) H w n (t.setFile f g) := by
  have he : t.setFile f g =
      t.files (Function.update s.file f g) s.ofile s.cwd s.outstanding := by
    rw [← h.apart.file, ← h.apart.ofile, ← h.apart.cwd, ← h.apart.outstanding]
    rfl
  rw [he]
  exact h.files (Function.update s.file f g) s.ofile s.cwd s.outstanding

theorem Reached.file_eq {f : Fp} {g : File} (h : Reached p (s.setFile f g) H w n t) :
    t.file f = g := by
  rw [h.apart.file, setFile_self]

/-- The transaction ends. -/
theorem Reached.endOp (h : Reached p (s.files s.file s.ofile s.cwd (s.outstanding + 1)) H w n t) :
    Reached p s H w n { t with outstanding := t.outstanding - 1 } := by
  have he : { t with outstanding := t.outstanding - 1 } =
      t.files s.file s.ofile s.cwd s.outstanding := by
    rw [h.apart.outstanding]
    change t.files t.file t.ofile t.cwd s.outstanding = _
    rw [h.apart.file, h.apart.ofile, h.apart.cwd]
    rfl
  rw [he]
  exact h.files s.file s.ofile s.cwd s.outstanding

end

section

variable {τ α : Type} [DecidableEq τ] {p : τ} {x : Option (List UInt8)} {E : End → Prop}
  {s t : Sys τ} {ip : Ip} {H : List Ip}

theorem ilock_hold (h : Settled s) (hlock : (s.inode ip).lock = none)
    (hr : 0 < (s.inode ip).ref) (hi : s.vol.Inode (s.inode ip).inum) :
    Wp (Sys.act p x) E (ilock ip) s fun _ t => t = s.hold p ip := by
  have hlt : s.sb.IBLOCK (s.inode ip).inum < s.disksize :=
    ((Volume.iblock_lt h.sane.layout hi.2.1).trans (Volume.bmapstart_lt_dataStart s.sb)).trans_le
      (h.sane.layout.data.trans h.disk)
  have hr1 : ¬ (s.inode ip).ref < 1 := by omega
  refine Wp.perform_bind rfl ?_
  rw [if_neg hr1]
  refine Wp.perform_bind (t := s.setLock ip (some p)) (by rw [Sys.act, hlock]; rfl)
    (Wp.perform_bind rfl ?_)
  rw [Sys.setLock, setInode_self]
  dsimp only
  split_ifs with hv
  · refine Wp.pure ?_
    rw [Sys.hold, h.cache.ino_eq ⟨hr, hv⟩, ← hv]
  · have hd : getDinode (s.blk (s.sb.IBLOCK (s.inode ip).inum)) ((s.inode ip).inum % IPB) =
        s.ino (s.inode ip).inum := h.stored.disk_eq hi.2.1
    refine wp_bread hlt (h.buf _) (Wp.perform_bind rfl (wp_brelse (setBuf_self ..) ?_))
    have he := setBuf_setBuf (s := (s.setInode ip { s.inode ip with lock := some p }).setD ip
      (s.ino (s.inode ip).inum)) (h.buf (s.sb.IBLOCK (s.inode ip).inum)) (some p)
    change Wp _ _ _ ((((s.setInode ip { s.inode ip with lock := some p }).setD ip (getDinode
      (s.blk (s.sb.IBLOCK (s.inode ip).inum)) ((s.inode ip).inum % IPB))).setBuf
        (s.sb.IBLOCK (s.inode ip).inum) (some p)).setBuf (s.sb.IBLOCK (s.inode ip).inum) none) _
    rw [hd, he]
    refine Wp.perform_bind rfl ?_
    split_ifs with hz
    · exact absurd ((congrArg Dinode.type hd).symm.trans hz) hi.2.2
    · refine Wp.pure ?_
      rw [Sys.setD, setInode_setInode, setInode_setInode]
      simp only [setInode_self]
      rfl

/-- An inode that is allocated is locked, and read if necessary. -/
theorem ilock_spec (h : Settled s) (hl : Locks s p H) (hip : ip ∉ H)
    (hr : 0 < (s.inode ip).ref) (hi : s.vol.Inode (s.inode ip).inum) :
    Wp (Sys.act p x) E (ilock ip) s fun _ t =>
      Reached p s (ip :: H) s.vol 0 t ∧ Loaded t ip := by
  have hfree : (s.inode ip).lock = none := (hl ip).trans (if_neg hip)
  refine (ilock_hold h hfree hr hi).imp ?_
  rintro _ t rfl
  exact Reached.hold h hl hr hi

theorem iunlock_spec (h : Settled s) (hl : Locks s p (ip :: H)) (hip : ip ∉ H)
    (hr : 0 < (s.inode ip).ref) :
    Wp (Sys.act p x) E (iunlock ip) s fun _ t => Reached p s H s.vol 0 t := by
  have hlock : (s.inode ip).lock = some p := (hl ip).trans (if_pos List.mem_cons_self)
  have hok : ¬ (decide ((s.inode ip).lock = some p) = false ∨ (s.inode ip).ref < 1) := by
    rintro (hf | hf)
    · exact of_decide_eq_false hf hlock
    · omega
  refine Wp.perform_bind rfl (Wp.perform_bind rfl ?_)
  rw [if_neg hok]
  exact Wp.perform rfl (.setInode (h.setRef hr (h.ref ip) none) (hl.tail hip rfl)
    (by simp) (fun _ _ => rfl) (fun _ _ => rfl) fun hv _ => hv.valid)

/-- The process has the lock already, and waits for itself. -/
theorem iput_blocked {Q : Unit → Sys τ → Prop} (hlock : (s.inode ip).lock = some p)
    (hE : E .blocked) : Wp (Sys.act p x) E (iput ip) s Q :=
  Wp.perform_error (by rw [Sys.act, hlock]; rfl) hE

/-- A reference is dropped that is not the last one to an inode without links. -/
theorem iput_spec (h : Settled s) (hl : Locks s p H) (hip : ip ∉ H) (hr : 0 < (s.inode ip).ref)
    (hk : Loaded s ip → (s.inode ip).d.nlink = 0 → (s.inode ip).ref ≠ 1) :
    Wp (Sys.act p x) E (iput ip) s fun _ t => Reached p s H s.vol (-one ip) t := by
  have hlock : (s.inode ip).lock = none := (hl ip).trans (if_neg hip)
  refine Wp.perform_bind (t := s.setLock ip (some p)) (by rw [Sys.act, hlock]; rfl)
    (Wp.perform_bind rfl ?_)
  rw [Sys.setLock, setInode_self]
  dsimp only
  have hend : Wp (Sys.act p x) E (do
      perform (.releasesleep ip)
      perform (.decref ip)) (s.setInode ip { s.inode ip with lock := some p })
        fun _ t => Reached p s H s.vol (-one ip) t := by
    refine Wp.perform_bind rfl (Wp.perform rfl ?_)
    rw [Sys.setLock, setInode_self, setInode_setInode, Sys.setRef, setInode_self,
      setInode_setInode]
    refine .setInode (h.setRef hr (r := (s.inode ip).ref - 1) (by omega) none)
      (hl.setInode hlock.symm) ?_ ?_ (fun _ _ => rfl) fun hv _ => hv.valid
    · rw [Pi.neg_apply, one_self]
      rfl
    · intro jp hj
      rw [Pi.neg_apply, one_other hj, neg_zero]
  split_ifs with hv
  · refine Wp.perform_bind rfl ?_
    rw [setInode_self, if_neg (hk ⟨hr, hv.1⟩ hv.2)]
    exact hend
  · exact hend

theorem writei_reached {src : List UInt8} {off : ℕ} (h : Settled s) (hl : Locks s p H)
    (hip : Writing s ip) (htype : (s.inode ip).d.type ≠ T_DEV)
    (hn : s.vol.NoHoles (s.inode ip).inum) (hoff : off ≤ s.vol.size (s.inode ip).inum)
    (hmax : off + src.length ≤ MAXFILE * BSIZE)
    (hroom : Room E s.vol (s.inode ip).inum (Pos.span off src.length)) :
    Wp (Sys.act p x) E (writei ip src off) s fun r t => r = some src.length ∧ ∃ w,
      Volume.Updated (s.inode ip).inum off src (Pos.span off src.length) s.vol w ∧
        Reached p s H w 0 t := by
  refine (writei_spec hip htype hn hoff hmax hroom).imp ?_
  rintro r t ⟨rfl, w, hw, rfl⟩
  refine ⟨rfl, w, hw, .put h hl hip.loaded hw.local hw.sane (hw.stored ?_)⟩
  obtain ⟨-, hd⟩ := h.stored ip hip.loaded
  exact hd.trans (h.cache.ino_eq hip.loaded).symm

theorem idup_spec (h : Settled s) (hl : Locks s p H) (hr : 0 < (s.inode ip).ref) :
    Wp (Sys.act p x) E (idup ip) s fun _ t => Reached p s H s.vol (one ip) t :=
  Wp.perform rfl (.setInode (h.setRef hr (r := (s.inode ip).ref + 1) (by omega) (s.inode ip).lock)
    (hl.setInode rfl) (by simp) (fun _ => one_other) (fun _ _ => rfl) fun hv _ => hv.valid)

/-- The entry of an inode is found, or one that is not in use. -/
theorem iget_spec (h : Settled s) (hl : Locks s p H)
    (hE : (∀ ip, (s.inode ip).ref ≠ 0) → E (.panic "iget: no inodes")) (i : ℕ) :
    Wp (Sys.act p x) E (iget ROOTDEV i) s fun jp t =>
      Reached p s H s.vol (one jp) t ∧ (t.inode jp).inum = i ∧
        ((s.inode jp).ref = 0 → (t.inode jp).valid = false) := by
  rw [iget, perform, Wp, Prog.perform, Prog.run, Sys.act, Sys.iget]
  cases hc : s.cached ROOTDEV i with
  | some ip =>
    have hf := List.find?_some hc
    have hp := of_decide_eq_true hf
    have hpos := hp.1
    refine ⟨.setInode (h.setRef hp.1 (r := (s.inode ip).ref + 1) (by omega) (s.inode ip).lock)
      (hl.setInode rfl) (by simp) (fun _ => one_other) (fun _ _ => rfl) fun hv _ => hv.valid, ?_,
      fun hz => absurd hz hpos.ne'⟩
    change ((s.setInode ip _).inode ip).inum = i
    rw [setInode_self]
    exact hp.2.2
  | none =>
    cases he : s.empty with
    | some ip =>
      have hf := List.find?_some he
      have hz := of_decide_eq_true hf
      refine ⟨.setInode (h.setInode rfl Int.one_nonneg (fun _ jp hj hr hi => ?_)
        fun _ hv => absurd hv (by simp)) (hl.setInode rfl) (by simp [hz]) (fun _ => one_other)
        (fun hr => absurd hr (by simp [hz])) fun hv => absurd hv.ref (by simp [hz]), ?_, fun _ => ?_⟩
      · have hn := List.find?_eq_none.mp hc jp (List.mem_finRange jp)
        exact hn (decide_eq_true ⟨hr, h.cache.dev jp hr, hi⟩)
      · change ((s.setInode ip _).inode ip).inum = i
        rw [setInode_self]
      · change ((s.setInode ip _).inode ip).valid = false
        rw [setInode_self]
    | none =>
      refine hE fun ip hz => ?_
      exact List.find?_eq_none.mp he ip (List.mem_finRange ip) (decide_eq_true hz)

end

/-! ### The disk with one inode -/

section

variable {d : Dinode}

theorem single_settled (ht : d.type ≠ 0) (ha : ∀ k, d.addrs k = 0) : Settled (Sys.single d) where
  cache := single_cache
  stored ip hip := by
    have hz : ip = 0 := single_cache.unique ip 0 hip.ref single_loaded.ref rfl
    rw [hz]
    exact ⟨Nat.one_lt_two, single_disk⟩
  ref ip := by
    change (0 : ℤ) ≤ if ip = 0 then 1 else 0
    split_ifs
    · exact Int.one_nonneg
    · exact le_rfl
  sane := (single_writing ht ha).sane
  buf _ := rfl
  disk := le_rfl

end

end Xv6.Fs
