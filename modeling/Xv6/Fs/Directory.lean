import Xv6.Fs.Cached
import Xv6.Fs.Path

/-! @src fs.c | name:Looking up a name | layer:proof

    A directory is a list of entries, one after the other in the contents of its inode. `dirlookup`
    goes through them and takes the inode of the first one with the name. -/

namespace Xv6.Fs
open Xv6.Disk Xv6.Schemes

namespace Volume

/-- The entry at an offset of a directory. -/
def entry (v : Volume) (i off : ℕ) : Dirent := .ofBytes (((v.content i).drop off).take 16)

end Volume

/-- The entry is not empty, and has the name. -/
def Dirent.Is (name : List UInt8) (de : Dirent) : Prop := de.inum ≠ 0 ∧ namecmp name de.name = 0

instance (name : List UInt8) (de : Dirent) : Decidable (de.Is name) :=
  inferInstanceAs (Decidable (_ ∧ _))

namespace Volume

/-- The offset of the first entry with the name. -/
def find (v : Volume) (i : ℕ) (name : List UInt8) : Option ℕ :=
  (entries (v.size i)).find? fun off => (v.entry i off).Is name

/-- The inode that the name stands for. -/
def lookup (v : Volume) (i : ℕ) (name : List UInt8) : Option ℕ :=
  (v.find i name).map fun off => (v.entry i off).inum.toNat

/-- Inode `i` is a directory, of whole entries. -/
structure Directory (v : Volume) (i : ℕ) : Prop where
  inode : v.Inode i
  dir : (v.ino i).type = T_DIR
  noHoles : v.NoHoles i
  whole : v.size i % 16 = 0

end Volume

section

variable {τ : Type} [DecidableEq τ] {p : τ} {x : Option (List UInt8)} {E : End → Prop}
  {s t : Sys τ} {ip : Ip} {H : List Ip} {v : Volume} {i off : ℕ} {name : List UInt8}

/-- The offsets are those of whole entries. -/
theorem Volume.Directory.entry_end (h : v.Directory i) (hoff : off ∈ entries (v.size i)) :
    off + 16 ≤ v.size i := by
  obtain ⟨k, hk, rfl⟩ := List.mem_map.mp hoff
  have hk := List.mem_range.mp hk
  have hw := h.whole
  omega

/-- An entry is read. -/
theorem readi_entry (h : Settled s) (hip : Loaded s ip) (hd : s.vol.Directory (s.inode ip).inum)
    (hoff : off + 16 ≤ s.vol.size (s.inode ip).inum) :
    Wp (Sys.act p x) E (readi ip off 16) s fun r t =>
      (r.map List.length = some 16 ∧
        Dirent.ofBytes (r.getD []) = s.vol.entry (s.inode ip).inum off) ∧ t = s := by
  have htype : (s.inode ip).d.type ≠ T_DEV := by
    have hdir := hd.dir
    rw [vol_ino, h.cache.ino_eq hip] at hdir
    rw [hdir]
    decide
  have hmax : s.vol.size (s.inode ip).inum ≤ 71680 := hd.noHoles.1
  refine (readi_spec (h.ready hip hd.inode) htype hd.noHoles (by omega) (by omega)).imp ?_
  rintro r t ⟨rfl, rfl⟩
  refine ⟨⟨?_, rfl⟩, rfl⟩
  rw [Option.map_some, List.length_take, List.length_drop, Volume.length_content]
  exact congrArg some (by omega)

theorem lookupLoop_spec (h : Settled s) (hl : Locks s p H) (hip : Loaded s ip)
    (hd : s.vol.Directory (s.inode ip).inum) (offs : List ℕ)
    (hoffs : ∀ off ∈ offs, off + 16 ≤ s.vol.size (s.inode ip).inum)
    (hE : ∀ off ∈ offs, (s.vol.entry (s.inode ip).inum off).Is name →
      (∀ ip, (s.inode ip).ref ≠ 0) → E (.panic "iget: no inodes")) :
    Wp (Sys.act p x) E (lookupLoop ip ROOTDEV name offs) s fun r t =>
      match offs.find? fun off => (s.vol.entry (s.inode ip).inum off).Is name with
      | none => r = none ∧ t = s
      | some off => ∃ jp, r = some (jp, off) ∧ Reached p s H s.vol (one jp) t ∧
          (t.inode jp).inum = (s.vol.entry (s.inode ip).inum off).inum.toNat ∧
          ((s.inode jp).ref = 0 → (t.inode jp).valid = false) := by
  induction offs with
  | nil => exact Wp.pure ⟨rfl, rfl⟩
  | cons off offs ih =>
    obtain ⟨hoff, hrest⟩ := List.forall_mem_cons.mp hoffs
    obtain ⟨hhere, hthere⟩ := List.forall_mem_cons.mp hE
    rw [lookupLoop]
    refine Wp.bind (readi_entry h hip hd hoff) ?_
    rintro r t ⟨⟨hlen, he⟩, rfl⟩
    rw [hlen, he, if_neg (not_not.mpr rfl), List.find?_cons]
    by_cases hz : (t.vol.entry (t.inode ip).inum off).inum = 0
    · have hnot : ¬ (t.vol.entry (t.inode ip).inum off).Is name := fun his => his.1 hz
      rw [if_pos hz, decide_eq_false hnot]
      exact ih hrest hthere
    · rw [if_neg hz]
      by_cases hname : namecmp name (t.vol.entry (t.inode ip).inum off).name = 0
      · have his : (t.vol.entry (t.inode ip).inum off).Is name := ⟨hz, hname⟩
        rw [if_pos hname, decide_eq_true his]
        refine Wp.bind (iget_spec h hl (hhere his) _) ?_
        rintro jp u hu
        exact Wp.pure ⟨jp, rfl, hu⟩
      · have hnot : ¬ (t.vol.entry (t.inode ip).inum off).Is name := fun his => hname his.2
        rw [if_neg hname, decide_eq_false hnot]
        exact ih hrest hthere

/-- `dirlookup` finds the first entry with the name, and takes its inode. -/
theorem dirlookup_spec (h : Settled s) (hl : Locks s p H) (hip : Loaded s ip)
    (hd : s.vol.Directory (s.inode ip).inum)
    (name : List UInt8)
    (hE : s.vol.find (s.inode ip).inum name ≠ none → (∀ ip, (s.inode ip).ref ≠ 0) →
      E (.panic "iget: no inodes")) :
    Wp (Sys.act p x) E (dirlookup ip name) s fun r t =>
      match s.vol.find (s.inode ip).inum name with
      | none => r = none ∧ t = s
      | some off => ∃ jp, r = some (jp, off) ∧ Reached p s H s.vol (one jp) t ∧
          (t.inode jp).inum = (s.vol.entry (s.inode ip).inum off).inum.toNat ∧
          ((s.inode jp).ref = 0 → (t.inode jp).valid = false) := by
  have hd' : s.vol.ino (s.inode ip).inum = (s.inode ip).d := h.cache.ino_eq hip
  have hsize : (s.inode ip).d.size.toNat = s.vol.size (s.inode ip).inum := by
    rw [Volume.size, hd']
  have htype : ¬ (s.inode ip).d.type ≠ T_DIR := by
    rw [← hd']
    exact not_not.mpr hd.dir
  refine Wp.perform_bind rfl ?_
  rw [if_neg htype, hsize, h.cache.dev ip hip.ref]
  refine lookupLoop_spec h hl hip hd _ (fun off => hd.entry_end) fun off hoff his => ?_
  refine hE fun hnone => ?_
  exact List.find?_eq_none.mp hnone off hoff (decide_eq_true his)

end

/-! ### A disk with a root directory -/

/-- The superblock that `mkfs` writes. -/
def Superblock.usual : Superblock := ⟨1000, 941, 200, 30, 2, 32, 58⟩

theorem usual_layout : Superblock.usual.Layout := ⟨by decide, by decide, by decide⟩

theorem usual_dataStart : Superblock.usual.dataStart = 59 := by decide

/-- The root directory has one block. The files from 2 on are empty; only the last one has a link. -/
def rootedInode (size i : ℕ) : Dinode where
  type := if i = 1 then T_DIR else if 2 ≤ i ∧ i < 52 then T_FILE else 0
  major := 0
  minor := 0
  nlink := if i = 1 ∨ i = 51 then 1 else 0
  size := if i = 1 then UInt32.ofNat size else 0
  addrs k := if i = 1 ∧ k = direct 0 then 59 else 0

/-- The block of the inodes from `n` on. -/
def inodeBlock (d : ℕ → Dinode) (n : ℕ) : Block :=
  (List.range IPB).foldl (fun b j => putDinode b j (d (n + j))) Block.zero

/-- The blocks before `n` are used. -/
def usedBlock (n : ℕ) : Block := fun j => UInt8.ofNat (2 ^ min 8 (n - 8 * j.val) - 1)

/-- The root directory is the current one, with the contents `c`, and the first `n` inodes are in
    use. -/
def Sys.rooted (c : List UInt8) (n : ℕ) : Sys Unit where
  sb := .usual
  disksize := 1000
  blk b := if 32 ≤ b ∧ b < 58 then inodeBlock (rootedInode c.length) (8 * (b - 32))
    else if b = 58 then usedBlock 60
    else if b = 59 then overlay Block.zero 0 c else Block.zero
  buf _ := none
  inode ip := ⟨⟨ROOTDEV, ip.val + 1, true, rootedInode c.length (ip.val + 1)⟩,
    if ip.val < n then 1 else 0, none⟩
  file _ := ⟨.FD_NONE, 0, false, false, 0, 0⟩
  ofile _ _ := none
  cwd _ := some 0
  outstanding := 1

theorem getDinode_foldl {d : ℕ → Dinode} {b : Block} {j : ℕ} (hj : j < IPB) (l : List ℕ) :
    getDinode (l.foldl (fun b j => putDinode b j (d j)) b) j =
      if j ∈ l then d j else getDinode b j := by
  induction l generalizing b with
  | nil => rfl
  | cons k l ih =>
    rw [List.foldl_cons, ih]
    by_cases hm : j ∈ l
    · rw [if_pos hm, if_pos (List.mem_cons_of_mem k hm)]
    · rw [if_neg hm]
      by_cases hk : j = k
      · rw [if_pos (List.mem_cons.mpr (.inl hk)), hk, getDinode_putDinode _ (hk ▸ hj)]
      · have hnot : j ∉ k :: l := fun hc => (List.mem_cons.mp hc).elim hk hm
        rw [if_neg hnot, getDinode_putDinode_other _ (Ne.symm hk)]

theorem getBit_usedBlock (n : ℕ) {i : ℕ} (hi : i < BPB) :
    getBit (usedBlock n) i = decide (i < n) := by
  have hlt : i / 8 < BSIZE := by
    change i < 4096 at hi
    change i / 8 < 512
    omega
  have hpow : 2 ^ min 8 (n - 8 * (i / 8)) ≤ 2 ^ 8 :=
    Nat.pow_le_pow_right (by decide) (Nat.min_le_left ..)
  have hmod : (2 ^ min 8 (n - 8 * (i / 8)) - 1) % 2 ^ 8 = 2 ^ min 8 (n - 8 * (i / 8)) - 1 :=
    Nat.mod_eq_of_lt (by omega)
  rw [getBit, Block.byte, dif_pos hlt, usedBlock]
  dsimp only
  rw [UInt8.toNat_ofNat', hmod, Nat.testBit_two_pow_sub_one]
  exact decide_eq_decide.mpr (by omega)

section

variable {c : List UInt8} {n i : ℕ}

theorem rooted_disk (hi : i < 200) : (Sys.rooted c n).vol.disk i = rootedInode c.length i := by
  have hblk : (Sys.rooted c n).blk (i / 8 + 32) =
      inodeBlock (rootedInode c.length) (8 * (i / 8)) := by
    have hin : 32 ≤ i / 8 + 32 ∧ i / 8 + 32 < 58 := by omega
    have hsub : i / 8 + 32 - 32 = i / 8 := Nat.add_sub_cancel ..
    rw [Sys.rooted]
    dsimp only
    rw [if_pos hin, hsub]
  change getDinode ((Sys.rooted c n).blk (i / 8 + 32)) (i % 8) = _
  have hlt : i % 8 < IPB := Nat.mod_lt i (by decide)
  rw [hblk, inodeBlock, getDinode_foldl hlt, if_pos (List.mem_range.mpr hlt), Nat.div_add_mod]

theorem rooted_stored : Stored (Sys.rooted c n) := by
  intro ip _
  have hlt : ip.val < 50 := ip.isLt
  have hi : ip.val + 1 < 200 := by omega
  exact ⟨hi, rooted_disk hi⟩

theorem rootedInode_zero (size : ℕ) (h1 : i ≠ 1) (h2 : ¬ (2 ≤ i ∧ i < 52)) :
    rootedInode size i = Dinode.zero := by
  have haddr : ∀ k : Slot, ¬ (i = 1 ∧ k = direct 0) := fun _ h => h1 h.1
  have hlink : ¬ (i = 1 ∨ i = 51) := by omega
  simp only [rootedInode, if_neg h1, if_neg h2, if_neg hlink, if_neg (haddr _)]
  rfl

theorem rooted_ino (i : ℕ) : (Sys.rooted c n).vol.ino i = rootedInode c.length i := by
  have hino := rooted_stored.ino_eq (s := Sys.rooted c n) i
  rw [vol_ino, hino]
  by_cases hi : i < 200
  · exact (if_pos hi).trans (rooted_disk hi)
  · rw [rootedInode_zero _ (by omega) (by omega)]
    exact if_neg hi

/-- The only block is that of the root directory. -/
theorem rooted_ref (i : ℕ) (k : Pos) :
    (Sys.rooted c n).vol.ref i k = if i = 1 ∧ k = .addr (direct 0) then 59 else 0 := by
  cases k with
  | addr j =>
    change ((Sys.rooted c n).vol.ino i).addrs j = _
    rw [rooted_ino]
    simp only [Pos.addr.injEq]
    rfl
  | entry j =>
    have hind : (Sys.rooted c n).vol.ind i = 0 := by
      change ((Sys.rooted c n).vol.ino i).addrs indirect = 0
      rw [rooted_ino]
      exact if_neg fun h => absurd h.2 (by decide)
    have hne : ¬ (i = 1 ∧ Pos.entry j = .addr (direct 0)) := fun h => Pos.noConfusion h.2
    rw [if_neg hne]
    exact if_pos hind

theorem rooted_ref_ne {k : Pos} (h : (Sys.rooted c n).vol.ref i k ≠ 0) :
    (i = 1 ∧ k = .addr (direct 0)) ∧ (Sys.rooted c n).vol.ref i k = 59 := by
  rw [rooted_ref] at h ⊢
  split_ifs at h ⊢ with hc
  · exact ⟨hc, rfl⟩
  · exact absurd rfl h

theorem rooted_free (b : ℕ) : (Sys.rooted c n).vol.Free b ↔ 60 ≤ b ∧ b < 1000 := by
  change b < 1000 ∧ getBit ((Sys.rooted c n).blk (b / 4096 + 58)) (b % 4096) = false ↔ _
  by_cases hb : b < 1000
  · have hdiv : b / 4096 = 0 := Nat.div_eq_of_lt (by omega)
    have hmod : b % 4096 = b := Nat.mod_eq_of_lt (by omega)
    rw [hdiv, hmod]
    change b < 1000 ∧ getBit (usedBlock 60) b = false ↔ _
    rw [getBit_usedBlock 60 (show b < 4096 by omega), decide_eq_false_iff_not]
    omega
  · exact iff_of_false (fun h => hb h.1) (fun h => hb h.2)

theorem rooted_settled (c : List UInt8) (n : ℕ) : Settled (Sys.rooted c n) where
  cache := {
    dev := fun _ _ => rfl
    unique := fun ip jp _ _ h => Fin.ext (Nat.succ_injective h) }
  stored := rooted_stored
  ref ip := by
    change 0 ≤ if ip.val < n then (1 : ℤ) else 0
    split_ifs
    · exact Int.one_nonneg
    · exact le_rfl
  sane := {
    layout := usual_layout
    data := fun i k _ h => by
      rw [(rooted_ref_ne h).2]
      exact ⟨usual_dataStart.le, show 59 < 1000 by decide⟩
    used := fun i k _ h => by
      rw [(rooted_ref_ne h).2, rooted_free]
      decide
    apart := fun i j k l _ _ h heq => by
      obtain ⟨⟨rfl, rfl⟩, -⟩ := rooted_ref_ne h
      obtain ⟨⟨rfl, rfl⟩, -⟩ := rooted_ref_ne (heq ▸ h)
      exact ⟨rfl, rfl⟩
    free := fun b h => by
      have hb := (rooted_free b).mp h
      exact usual_dataStart.le.trans (by omega) }
  buf _ := rfl
  disk := le_rfl

theorem rooted_size (hc : c.length ≤ BSIZE) : (Sys.rooted c n).vol.size 1 = c.length := by
  have hlt : c.length < 2 ^ 32 := hc.trans_lt (by decide)
  rw [Volume.size, rooted_ino]
  exact (UInt32.toNat_ofNat' ..).trans (Nat.mod_eq_of_lt hlt)

theorem rooted_content (hc : c.length ≤ BSIZE) : (Sys.rooted c n).vol.content 1 = c := by
  have hbyte : ∀ k, k < c.length → (Sys.rooted c n).vol.byte 1 k = c.getD k 0 := by
    intro k hk
    have hlt : k < BSIZE := hk.trans_le hc
    have hin : 0 ≤ k ∧ k < 0 + c.length := ⟨Nat.zero_le k, by omega⟩
    rw [Volume.byte, Nat.div_eq_of_lt hlt, Nat.mod_eq_of_lt hlt, rooted_ref,
      if_pos ⟨rfl, by decide⟩]
    change (overlay Block.zero 0 c).byte k = _
    rw [Block.byte, dif_pos hlt, overlay, if_pos hin]
    rfl
  rw [Volume.content, rooted_size hc]
  refine List.ext_getElem (by simp) fun k hk hk' => ?_
  rw [List.getElem_map, List.getElem_range, hbyte k hk']
  exact List.getD_eq_getElem _ _ hk'

theorem rooted_inode : (Sys.rooted c n).vol.Inode 1 := by
  refine ⟨Nat.one_pos, show 1 < 200 by decide, ?_⟩
  rw [rooted_ino]
  exact show T_DIR ≠ 0 by decide

theorem rooted_directory (hc : c.length ≤ BSIZE) (hw : c.length % 16 = 0) :
    (Sys.rooted c n).vol.Directory 1 where
  inode := rooted_inode
  dir := by
    rw [rooted_ino]
    rfl
  noHoles := by
    rw [Volume.NoHoles, rooted_size hc]
    refine ⟨hc.trans (by decide), fun bn hbn => ?_⟩
    obtain rfl : bn = 0 := by
      change c.length ≤ 512 at hc
      change bn * 512 < c.length at hbn
      omega
    rw [rooted_ref]
    decide
  whole := by rw [rooted_size hc, hw]

/-- There is no other directory. -/
theorem rooted_of_directory (h : ((Sys.rooted c n).vol.ino i).type = T_DIR) : i = 1 := by
  by_contra hne
  rw [rooted_ino] at h
  change (if i = 1 then T_DIR else if 2 ≤ i ∧ i < 52 then T_FILE else 0) = T_DIR at h
  rw [if_neg hne] at h
  split_ifs at h
  all_goals exact absurd h (by decide)

end

end Xv6.Fs
