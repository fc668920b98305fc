import Xv6.Fs.Directory

/-! @src fs.c sysfile.c string.c | name:A directory as a map | layer:model,proof

    A name is put into an empty entry, or into a new one at the end, and taken out by clearing its
    entry. What is left is a map from names to inode numbers: what a name stands for is what it was
    last linked to. -/

namespace Xv6.Fs
open Xv6.Disk Xv6.Schemes

/-- What `sys_unlink` does to the directory: the entry with the name is cleared. -/
def unlinkEntry (dp : Ip) (name : List UInt8) : Code (Option Ip) := do
  match ← dirlookup dp name with
  | none => return none
  | some (ip, off) =>
    let r ← writei dp (Dirent.bytes ⟨0, []⟩) off
    if r ≠ some 16 then panic "unlink: writei" else return some ip

/-! ### Names -/

/-- The first `n` bytes, up to a NUL. -/
def cut (n : ℕ) (s : List UInt8) : List UInt8 := (s.take n).takeWhile (· ≠ 0)

section

variable {n : ℕ} {s t : List UInt8}

theorem cut_succ (n : ℕ) (s : List UInt8) :
    cut (n + 1) s = if s.headD 0 = 0 then [] else s.headD 0 :: cut n s.tail := by
  cases s with
  | nil => rfl
  | cons c s =>
    rw [cut, List.take_succ_cons, List.takeWhile_cons, List.headD_cons, List.tail_cons]
    by_cases hc : c = 0
    · rw [if_pos hc, hc]
      rfl
    · rw [if_neg hc, if_pos (decide_eq_true hc)]
      rfl

/-- `strncmp` compares what comes before the NULs. -/
theorem strncmp_eq_zero (n : ℕ) (s t : List UInt8) : strncmp n s t = 0 ↔ cut n s = cut n t := by
  induction n generalizing s t with
  | zero => exact iff_of_true rfl rfl
  | succ n ih =>
    rw [strncmp, cut_succ, cut_succ]
    by_cases heq : s.headD 0 = t.headD 0
    · by_cases hz : s.headD 0 = 0
      · rw [if_neg (fun h => h.1 hz), if_pos hz, if_pos (heq ▸ hz), heq, sub_self]
        exact iff_of_true rfl rfl
      · rw [if_pos ⟨hz, heq⟩, ih, if_neg hz, if_neg (heq ▸ hz), heq, List.cons.injEq]
        exact (and_iff_right rfl).symm
    · have hne : ((s.headD 0).toNat : ℤ) - (t.headD 0).toNat ≠ 0 := by
        have hnat : (s.headD 0).toNat ≠ (t.headD 0).toNat := fun h => heq (UInt8.toNat_inj.mp h)
        omega
      rw [if_neg (fun h => heq h.2)]
      refine iff_of_false hne fun hcut => ?_
      by_cases hs : s.headD 0 = 0
      · have ht : t.headD 0 ≠ 0 := fun ht => heq (hs.trans ht.symm)
        rw [if_pos hs, if_neg ht] at hcut
        exact List.cons_ne_nil _ _ hcut.symm
      · by_cases ht : t.headD 0 = 0
        · rw [if_neg hs, if_pos ht] at hcut
          exact List.cons_ne_nil _ _ hcut
        · rw [if_neg hs, if_neg ht] at hcut
          exact heq (List.cons.inj hcut).1

theorem length_strncpy (n : ℕ) (t : List UInt8) : (strncpy n t).length = n := by
  induction n generalizing t with
  | zero => rfl
  | succ n ih =>
    rw [strncpy]
    split_ifs
    · rw [List.length_cons, ih]
    · exact List.length_replicate

/-- `strncpy` copies what comes before the NUL. -/
theorem cut_strncpy (n : ℕ) (t : List UInt8) : cut n (strncpy n t) = cut n t := by
  induction n generalizing t with
  | zero => rfl
  | succ n ih =>
    rw [strncpy, cut_succ n t]
    by_cases hz : t.headD 0 = 0
    · rw [if_neg (not_not.mpr hz), if_pos hz]
      rfl
    · rw [if_pos hz, if_neg hz, cut_succ, List.headD_cons, if_neg hz, List.tail_cons, ih]

theorem namecmp_eq_zero : namecmp s t = 0 ↔ cut DIRSIZ s = cut DIRSIZ t := strncmp_eq_zero ..

theorem namecmp_self (s : List UInt8) : namecmp s s = 0 := namecmp_eq_zero.mpr rfl

end

/-! ### Entries -/

theorem mem_entries {size off : ℕ} : off ∈ entries size ↔ off % 16 = 0 ∧ off < size := by
  rw [entries, List.mem_map]
  constructor
  · rintro ⟨k, hk, rfl⟩
    have hlt := List.mem_range.mp hk
    omega
  · rintro ⟨hmod, hlt⟩
    exact ⟨off / 16, List.mem_range.mpr (by omega), by omega⟩

namespace Dirent

variable {de : Dirent} {name : List UInt8}

theorem length_bytes (de : Dirent) : de.bytes.length = 16 := by
  rw [bytes, List.length_cons, List.length_cons, List.length_map, List.length_range]

theorem inum_ofBytes (de : Dirent) : (ofBytes de.bytes).inum = de.inum := by
  have hlt := de.inum.toNat_lt
  have hnat : de.inum.toNat % 2 ^ 8 + 256 * (de.inum.toNat / 256 % 2 ^ 8) = de.inum.toNat := by omega
  change UInt16.ofNat ((UInt8.ofNat de.inum.toNat).toNat +
    256 * (UInt8.ofNat (de.inum.toNat / 256)).toNat) = _
  rw [UInt8.toNat_ofNat', UInt8.toNat_ofNat', hnat, UInt16.ofNat_toNat]

theorem name_ofBytes (h : de.name.length = DIRSIZ) : (ofBytes de.bytes).name = de.name := by
  change ((List.range DIRSIZ).map fun i => de.name.getD i 0).take DIRSIZ = _
  rw [List.take_of_length_le (by rw [List.length_map, List.length_range])]
  refine List.ext_getElem (by rw [List.length_map, List.length_range, h]) fun i hi hi' => ?_
  rw [List.getElem_map, List.getElem_range]
  exact List.getD_eq_getElem _ _ hi'

/-- What is read back is what was written. -/
theorem ofBytes_bytes (h : de.name.length = DIRSIZ) : ofBytes de.bytes = de :=
  congrArg₂ Dirent.mk (inum_ofBytes de) (name_ofBytes h)

end Dirent

namespace Volume

/-- No two entries have the same name. -/
def Distinct (v : Volume) (i : ℕ) : Prop :=
  ∀ off ∈ entries (v.size i), ∀ off' ∈ entries (v.size i), (v.entry i off).inum ≠ 0 →
    (v.entry i off').inum ≠ 0 → namecmp (v.entry i off).name (v.entry i off').name = 0 → off = off'

/-- The offset of the first empty entry, or else the end. -/
def vacant (v : Volume) (i : ℕ) : ℕ :=
  ((entries (v.size i)).find? fun off => (v.entry i off).inum = 0).getD (v.size i)

/-- There is room for an entry. -/
def Space (v : Volume) (i : ℕ) : Prop :=
  v.vacant i + 16 ≤ MAXFILE * BSIZE ∧
    v.need i (Pos.span (v.vacant i) 16) ≤ v.freeBlocks.card

/-- An entry is written. -/
structure Puts (v : Volume) (i off : ℕ) (de : Dirent) (w : Volume) : Prop where
  entries : ∀ o, o ∈ entries (w.size i) ↔ o = off ∨ o ∈ entries (v.size i)
  here : w.entry i off = de
  other : ∀ o ∈ Fs.entries (v.size i), o ≠ off → w.entry i o = v.entry i o

section

variable {v w : Volume} {i j off : ℕ} {de : Dirent} {name : List UInt8} {K : Finset Pos}

theorem entry_congr (h : w.content j = v.content i) : w.entry j = v.entry i := by
  funext off
  rw [entry, entry, h]

theorem size_congr (h : w.content j = v.content i) : w.size j = v.size i := by
  rw [← length_content, h, length_content]

theorem lookup_congr (h : w.content j = v.content i) : w.lookup j name = v.lookup i name := by
  rw [lookup, find, entry_congr h, size_congr h]
  rfl

theorem Distinct.congr (hv : v.Distinct i) (h : w.content j = v.content i) : w.Distinct j := by
  rwa [Distinct, entry_congr h, size_congr h]

theorem vacant_le (v : Volume) (i : ℕ) : v.vacant i ≤ v.size i := by
  rw [vacant]
  cases hf : (Fs.entries (v.size i)).find? fun off => (v.entry i off).inum = 0 with
  | none => exact le_rfl
  | some off => exact (mem_entries.mp (List.mem_of_find?_eq_some hf)).2.le

theorem vacant_empty (h : v.vacant i ∈ Fs.entries (v.size i)) :
    (v.entry i (v.vacant i)).inum = 0 := by
  rw [vacant] at h ⊢
  cases hf : (Fs.entries (v.size i)).find? fun off => (v.entry i off).inum = 0 with
  | none =>
    rw [hf] at h
    exact absurd (mem_entries.mp h).2 (lt_irrefl _)
  | some off =>
    have hz := List.find?_some hf
    exact of_decide_eq_true hz

theorem Directory.vacant_mod (h : v.Directory i) : v.vacant i % 16 = 0 := by
  rw [vacant]
  cases hf : (Fs.entries (v.size i)).find? fun off => (v.entry i off).inum = 0 with
  | none => exact h.whole
  | some off => exact (mem_entries.mp (List.mem_of_find?_eq_some hf)).1

/-- What `writei` does to the entries. -/
theorem Updated.puts (h : Updated i off de.bytes K v w) (hd : v.Directory i) (hmod : off % 16 = 0)
    (hoff : off ≤ v.size i) : v.Puts i off (.ofBytes de.bytes) w where
  entries o := by
    have hsize := h.size hoff
    have hw := hd.whole
    rw [Dirent.length_bytes] at hsize
    rw [mem_entries, mem_entries, hsize]
    omega
  here := by
    have hlen : ((v.content i).take off).length = off := by
      rw [List.length_take, length_content, min_eq_left hoff]
    rw [entry, h.content, splice, List.append_assoc, List.drop_append_of_le_length hlen.ge,
      List.drop_of_length_le hlen.le, List.nil_append,
      List.take_append_of_le_length (Dirent.length_bytes de).ge,
      List.take_of_length_le (Dirent.length_bytes de).le]
  other o ho hne := by
    obtain ⟨homod, hosize⟩ := mem_entries.mp ho
    have hw := hd.whole
    have hlen : ((v.content i).take off).length = off := by
      rw [List.length_take, length_content, min_eq_left hoff]
    rw [entry, h.content, splice, Dirent.length_bytes, entry]
    rcases Nat.lt_or_gt_of_ne hne with hlt | hgt
    · -- the entry is before the one that is written
      rw [List.append_assoc, List.drop_append_of_le_length (by omega), List.take_append_of_le_length
        (by rw [List.length_drop]; omega), List.drop_take, List.take_take, min_eq_left (by omega)]
    · -- or behind it
      have hlen' : ((v.content i).take off ++ de.bytes).length = off + 16 := by
        rw [List.length_append, hlen, Dirent.length_bytes]
      rw [List.drop_append, hlen', List.drop_of_length_le (by omega), List.nil_append, List.drop_drop]
      congr 3
      omega

theorem Updated.directory (h : Updated i off de.bytes K v w) (hd : v.Directory i)
    (hmod : off % 16 = 0) (hoff : off ≤ v.size i) : w.Directory i where
  inode := h.inode.mpr hd.inode
  dir := by
    obtain ⟨addrs, size, he⟩ := h.node
    rw [he]
    exact hd.dir
  noHoles := h.noHoles
  whole := by
    have hsize := h.size hoff
    have hw := hd.whole
    rw [Dirent.length_bytes] at hsize
    omega

/-- What is below the size needs no block. -/
theorem NoHoles.need_span {n : ℕ} (h : v.NoHoles i) (hend : off + n ≤ v.size i) :
    v.need i (Pos.span off n) = 0 := by
  rw [need, Finset.card_eq_zero, Finset.filter_eq_empty_iff]
  exact fun k hk => h.ref_span_ne_zero hend hk

/-! ### Lookups -/

theorem lookup_of_namecmp {other : List UInt8} (h : namecmp other name = 0) :
    v.lookup i other = v.lookup i name := by
  have his : ∀ off, (v.entry i off).Is other ↔ (v.entry i off).Is name := fun off =>
    and_congr_right' (by rw [namecmp_eq_zero, namecmp_eq_zero, namecmp_eq_zero.mp h])
  rw [lookup, lookup, find, find]
  simp only [his]

theorem lookup_eq_none : v.lookup i name = none ↔
    ∀ off ∈ Fs.entries (v.size i), ¬ (v.entry i off).Is name := by
  rw [lookup, Option.map_eq_none_iff, find, List.find?_eq_none]
  exact forall₂_congr fun off _ => not_congr decide_eq_true_iff

theorem exists_of_lookup (h : v.lookup i name = some j) :
    ∃ off ∈ Fs.entries (v.size i), (v.entry i off).Is name ∧ (v.entry i off).inum.toNat = j := by
  obtain ⟨off, hoff, rfl⟩ := Option.map_eq_some_iff.mp h
  have his := List.find?_some hoff
  exact ⟨off, List.mem_of_find?_eq_some hoff, of_decide_eq_true his, rfl⟩

theorem Distinct.same (hd : v.Distinct i) {off off' : ℕ} (hoff : off ∈ Fs.entries (v.size i))
    (hoff' : off' ∈ Fs.entries (v.size i)) (h : (v.entry i off).Is name)
    (h' : (v.entry i off').Is name) : off = off' :=
  hd off hoff off' hoff' h.1 h'.1 <| namecmp_eq_zero.mpr <|
    (namecmp_eq_zero.mp h.2).symm.trans (namecmp_eq_zero.mp h'.2)

theorem Distinct.lookup_eq_some (hd : v.Distinct i) (hoff : off ∈ Fs.entries (v.size i))
    (h : (v.entry i off).Is name) : v.lookup i name = some (v.entry i off).inum.toNat := by
  cases hl : v.lookup i name with
  | none => exact absurd h (lookup_eq_none.mp hl off hoff)
  | some j =>
    obtain ⟨off', hoff', h', rfl⟩ := exists_of_lookup hl
    rw [hd.same hoff hoff' h h']

/-- The written entry has no name of another one. -/
theorem Puts.distinct (h : v.Puts i off de w) (hd : v.Distinct i)
    (hnew : de.inum ≠ 0 → ∀ o ∈ Fs.entries (v.size i), o ≠ off → ¬ (v.entry i o).Is de.name) :
    w.Distinct i := by
  intro o ho o' ho' hne hne' hcmp
  by_cases hoff : o = off
  · by_cases hoff' : o' = off
    · rw [hoff, hoff']
    · have hin := ((h.entries o').mp ho').resolve_left hoff'
      rw [hoff, h.here] at hne hcmp
      rw [h.other o' hin hoff'] at hne' hcmp
      exact absurd ⟨hne', hcmp⟩ (hnew hne o' hin hoff')
  · have hin := ((h.entries o).mp ho).resolve_left hoff
    rw [h.other o hin hoff] at hne hcmp
    by_cases hoff' : o' = off
    · rw [hoff', h.here] at hne' hcmp
      have hsymm := namecmp_eq_zero.mpr (namecmp_eq_zero.mp hcmp).symm
      exact absurd ⟨hne, hsymm⟩ (hnew hne' o hin hoff)
    · have hin' := ((h.entries o').mp ho').resolve_left hoff'
      rw [h.other o' hin' hoff'] at hne' hcmp
      exact hd o hin o' hin' hne hne' hcmp

/-- A name that is neither taken out nor put in. -/
theorem Puts.lookup_other (h : v.Puts i off de w) (hw : w.Distinct i)
    (hold : off ∈ Fs.entries (v.size i) → ¬ (v.entry i off).Is name) (hnew : ¬ de.Is name) :
    w.lookup i name = v.lookup i name := by
  cases hl : v.lookup i name with
  | none =>
    rw [lookup_eq_none] at hl ⊢
    intro o ho his
    by_cases hoff : o = off
    · rw [hoff, h.here] at his
      exact hnew his
    · have hin := ((h.entries o).mp ho).resolve_left hoff
      rw [h.other o hin hoff] at his
      exact hl o hin his
  | some j =>
    obtain ⟨o, ho, his, rfl⟩ := exists_of_lookup hl
    have hne : o ≠ off := by
      rintro rfl
      exact hold ho his
    have he := h.other o ho hne
    rw [← he] at his ⊢
    exact hw.lookup_eq_some ((h.entries o).mpr (.inr ho)) his

/-- A name is put into the vacant entry. -/
theorem Puts.link (h : v.Puts i (v.vacant i) de w) (hd : v.Distinct i) (hz : de.inum ≠ 0)
    (hname : cut DIRSIZ de.name = cut DIRSIZ name) (hnone : v.lookup i name = none) :
    w.Distinct i ∧ w.lookup i name = some de.inum.toNat ∧
      ∀ other, namecmp other name ≠ 0 → w.lookup i other = v.lookup i other := by
  have hw : w.Distinct i := by
    refine h.distinct hd fun _ o ho _ his => lookup_eq_none.mp hnone o ho ⟨his.1, ?_⟩
    exact namecmp_eq_zero.mpr (hname.symm.trans (namecmp_eq_zero.mp his.2))
  have hin : v.vacant i ∈ Fs.entries (w.size i) := (h.entries _).mpr (.inl rfl)
  refine ⟨hw, ?_, fun other hother => h.lookup_other hw (fun hvac his => ?_) fun his => ?_⟩
  · have his : (w.entry i (v.vacant i)).Is name := by
      rw [h.here]
      exact ⟨hz, namecmp_eq_zero.mpr hname.symm⟩
    rw [hw.lookup_eq_some hin his, h.here]
  · exact his.1 (vacant_empty hvac)
  · exact hother (namecmp_eq_zero.mpr ((namecmp_eq_zero.mp his.2).trans hname))

/-- The entry with the name is cleared. -/
theorem Puts.unlink (h : v.Puts i off de w) (hd : v.Distinct i) (hz : de.inum = 0)
    (hoff : off ∈ Fs.entries (v.size i)) (his : (v.entry i off).Is name) :
    w.Distinct i ∧ w.lookup i name = none ∧
      ∀ other, namecmp other name ≠ 0 → w.lookup i other = v.lookup i other := by
  have hw : w.Distinct i := h.distinct hd fun hne => absurd hz hne
  refine ⟨hw, lookup_eq_none.mpr fun o ho his' => ?_, fun other hother =>
    h.lookup_other hw (fun _ his' => ?_) fun his' => his'.1 hz⟩
  · by_cases ho' : o = off
    · rw [ho', h.here] at his'
      exact his'.1 hz
    · have hin := ((h.entries o).mp ho).resolve_left ho'
      rw [h.other o hin ho'] at his'
      exact ho' (hd.same hin hoff his' his)
  · exact hother (namecmp_eq_zero.mpr
      ((namecmp_eq_zero.mp his'.2).trans (namecmp_eq_zero.mp his.2).symm))

end

end Volume

/-! ### The functions -/

/-- The process has the directory locked, in a transaction. -/
structure LockedDir {τ : Type} (p : τ) (s : Sys τ) (dp : Ip) : Prop where
  settled : Settled s
  locks : Locks s p [dp]
  loaded : Loaded s dp
  directory : s.vol.Directory (s.inode dp).inum
  trans : 1 ≤ s.outstanding

section

variable {τ : Type} {p : τ} {s t : Sys τ} {dp : Ip} {w : Volume} {n : Ip → ℤ}

theorem LockedDir.writing (h : LockedDir p s dp) : Writing s dp :=
  h.settled.writing h.loaded h.directory.inode h.trans

theorem LockedDir.ino_eq (h : LockedDir p s dp) :
    s.vol.ino (s.inode dp).inum = (s.inode dp).d :=
  h.settled.cache.ino_eq h.loaded

/-- The directory is still locked. -/
theorem Reached.lockedDir (h : Reached p s [dp] w n t) (hs : LockedDir p s dp) (hn : 0 ≤ n dp)
    (hd : w.Directory (s.inode dp).inum) : LockedDir p t dp := by
  have hload := h.loaded hs.loaded hn
  refine ⟨h.settled, h.locks, hload, ?_, ?_⟩
  · rwa [h.vol, h.inum dp hs.loaded.ref hload.ref]
  · rw [h.apart.outstanding]
    exact hs.trans

end

section

variable {τ : Type} [DecidableEq τ] {p : τ} {x : Option (List UInt8)} {E : End → Prop}
  {s t : Sys τ} {dp jp : Ip} {name : List UInt8} {inum : ℕ}

theorem emptyLoop_spec (h : LockedDir p s dp) (last : ℕ) (offs : List ℕ)
    (hoffs : ∀ off ∈ offs, off + 16 ≤ s.vol.size (s.inode dp).inum) :
    Wp (Sys.act p x) E (emptyLoop dp last offs) s fun r t =>
      r = (offs.find? fun off => (s.vol.entry (s.inode dp).inum off).inum = 0).getD last ∧
        t = s := by
  induction offs with
  | nil => exact Wp.pure ⟨rfl, rfl⟩
  | cons off offs ih =>
    obtain ⟨hoff, hrest⟩ := List.forall_mem_cons.mp hoffs
    rw [emptyLoop]
    refine Wp.bind (readi_entry h.settled h.loaded h.directory hoff) ?_
    rintro r t ⟨⟨hlen, he⟩, rfl⟩
    rw [hlen, he, if_neg (not_not.mpr rfl), List.find?_cons]
    by_cases hz : (t.vol.entry (t.inode dp).inum off).inum = 0
    · rw [if_pos hz, decide_eq_true hz]
      exact Wp.pure ⟨rfl, rfl⟩
    · rw [if_neg hz, decide_eq_false hz]
      exact ih hrest

/-- An entry is written. -/
theorem writei_entry (h : LockedDir p s dp) (de : Dirent) {off : ℕ} (hmod : off % 16 = 0)
    (hoff : off ≤ s.vol.size (s.inode dp).inum) (hmax : off + 16 ≤ MAXFILE * BSIZE)
    (hroom : s.vol.need (s.inode dp).inum (Pos.span off 16) ≤ s.vol.freeBlocks.card) :
    Wp (Sys.act p x) E (writei dp de.bytes off) s fun r t => r = some 16 ∧ LockedDir p t dp ∧
      Reached p s [dp] t.vol 0 t ∧
        s.vol.Puts (s.inode dp).inum off (.ofBytes de.bytes) t.vol := by
  have htype : (s.inode dp).d.type ≠ T_DEV := by
    rw [← h.ino_eq, h.directory.dir]
    decide
  have hlen := Dirent.length_bytes de
  refine Wp.imp (writei_reached h.settled h.locks h.writing htype h.directory.noHoles hoff
    (by rwa [hlen]) (.inl (by rwa [hlen]))) ?_
  rintro r t ⟨rfl, w, hw, ht⟩
  obtain rfl := ht.vol
  exact ⟨congrArg some hlen, ht.lockedDir h le_rfl (hw.directory h.directory hmod hoff), ht,
    hw.puts h.directory hmod hoff⟩

/-- The reference to an inode that was looked up is given back. -/
theorem iput_found (h : LockedDir p s dp) (ht : Reached p s [dp] s.vol (one jp) t) (hne : jp ≠ dp)
    (hvalid : (s.inode jp).ref = 0 → (t.inode jp).valid = false) :
    Wp (Sys.act p x) E (iput jp) t fun _ u => Reached p s [dp] s.vol 0 u := by
  have hpos := h.settled.ref jp
  have href := ht.ref jp
  rw [one_self] at href
  have hnot : jp ∉ [dp] := fun hmem => hne (List.mem_singleton.mp hmem)
  refine (iput_spec ht.settled ht.locks hnot (by omega) fun hl _ hr => ?_).imp fun _ u hu => ?_
  · -- an entry that is taken anew has not been read
    have hfalse := hvalid (by omega)
    rw [hl.valid] at hfalse
    exact absurd hfalse (by decide)
  · have hall := ht.trans hu (one_nonneg jp)
    rwa [add_neg_cancel, ht.vol] at hall

/-- `dirlink` refuses a name that is there, and puts a new one into the vacant entry. If the name is
    one of the directory itself, `iput` waits for the lock that the process holds. -/
theorem dirlink_spec (h : LockedDir p s dp) (name : List UInt8) (inum : ℕ)
    (hspace : s.vol.lookup (s.inode dp).inum name = none → s.vol.Space (s.inode dp).inum)
    (hfull : s.vol.lookup (s.inode dp).inum name ≠ none → (∀ ip, (s.inode ip).ref ≠ 0) →
      E (.panic "iget: no inodes"))
    (hself : s.vol.lookup (s.inode dp).inum name = some (s.inode dp).inum → E .blocked) :
    Wp (Sys.act p x) E (dirlink dp name inum) s fun r t => LockedDir p t dp ∧
      Reached p s [dp] t.vol 0 t ∧
      match s.vol.lookup (s.inode dp).inum name with
      | some j => j ≠ (s.inode dp).inum ∧ r = false ∧ t.vol = s.vol
      | none => r = true ∧ s.vol.Puts (s.inode dp).inum (s.vol.vacant (s.inode dp).inum)
          ⟨UInt16.ofNat inum, strncpy DIRSIZ name⟩ t.vol := by
  refine Wp.bind (dirlookup_spec h.settled h.locks h.loaded h.directory name ?_) ?_
  · exact fun hne => hfull fun hnone => hne (Option.map_eq_none_iff.mp hnone)
  intro r t hr
  rw [Volume.lookup] at hself hspace ⊢
  cases hfind : s.vol.find (s.inode dp).inum name with
  | some off =>
    rw [hfind] at hr hself
    obtain ⟨jp, rfl, ht, hj, hvalid⟩ := hr
    rw [Option.map_some, ← hj] at hself ⊢
    have hload := ht.loaded h.loaded (one_nonneg jp dp)
    have hinum := ht.inum dp h.loaded.ref hload.ref
    by_cases hjp : jp = dp
    · rw [hjp, hinum] at hself
      have hlock : (t.inode jp).lock = some p := by
        rw [hjp, ht.locks dp, if_pos (List.mem_singleton.mpr rfl)]
      exact Wp.bind (iput_blocked (Q := fun _ _ => False) hlock (hself rfl)) fun _ _ hf => hf.elim
    · have hne : (t.inode jp).inum ≠ (s.inode dp).inum := by
        have hposj := h.settled.ref jp
        have href := ht.ref jp
        rw [one_self] at href
        rw [← hinum]
        exact fun he => hjp (ht.settled.cache.unique jp dp (by omega) hload.ref he)
      refine Wp.bind (iput_found h ht hjp hvalid) ?_
      intro _ u hu
      have hvol := hu.vol
      rw [← hvol] at hu
      exact Wp.pure ⟨hu.lockedDir h le_rfl (hvol.symm ▸ h.directory), hu, hne, rfl, hvol⟩
  | none =>
    rw [hfind] at hr hspace
    obtain ⟨hmax, hneed⟩ := hspace rfl
    obtain ⟨rfl, rfl⟩ := hr
    have hsize : (t.inode dp).d.size.toNat = t.vol.size (t.inode dp).inum := by
      rw [Volume.size, h.ino_eq]
    have hend : 16 * ((t.vol.size (t.inode dp).inum + 15) / 16) = t.vol.size (t.inode dp).inum := by
      have hw := h.directory.whole
      omega
    refine Wp.perform_bind rfl ?_
    rw [hsize, hend]
    refine Wp.bind (emptyLoop_spec h _ _ fun off => h.directory.entry_end) ?_
    rintro off u ⟨rfl, rfl⟩
    refine Wp.bind (writei_entry h ⟨UInt16.ofNat inum, strncpy DIRSIZ name⟩ h.directory.vacant_mod
      (u.vol.vacant_le _) hmax hneed) ?_
    rintro r v ⟨rfl, hv, hreach, hputs⟩
    rw [Dirent.ofBytes_bytes (length_strncpy ..)] at hputs
    rw [if_neg (not_not.mpr rfl)]
    exact Wp.pure ⟨hv, hreach, rfl, hputs⟩

/-- The entry that `dirlookup` finds is cleared. -/
theorem unlinkEntry_spec (h : LockedDir p s dp)
    (hfull : s.vol.lookup (s.inode dp).inum name ≠ none → (∀ ip, (s.inode ip).ref ≠ 0) →
      E (.panic "iget: no inodes")) :
    Wp (Sys.act p x) E (unlinkEntry dp name) s fun r t => LockedDir p t dp ∧
      match s.vol.find (s.inode dp).inum name with
      | some off => r.isSome ∧ ∃ de, de.inum = 0 ∧ s.vol.Puts (s.inode dp).inum off de t.vol
      | none => r = none ∧ t.vol = s.vol := by
  refine Wp.bind (dirlookup_spec h.settled h.locks h.loaded h.directory name ?_) ?_
  · exact fun hne => hfull fun hnone => hne (Option.map_eq_none_iff.mp hnone)
  intro r t hr
  cases hfind : s.vol.find (s.inode dp).inum name with
  | some off =>
    rw [hfind] at hr
    obtain ⟨jp, rfl, ht, -, -⟩ := hr
    have hlock := ht.lockedDir h (one_nonneg jp dp) h.directory
    have hinum := ht.inum dp h.loaded.ref hlock.loaded.ref
    have hmem := List.mem_of_find?_eq_some hfind
    have hend := h.directory.entry_end hmem
    have hmax : s.vol.size (s.inode dp).inum ≤ MAXFILE * BSIZE := h.directory.noHoles.1
    refine Wp.bind (writei_entry hlock ⟨0, []⟩ (mem_entries.mp hmem).1
      (by rw [ht.vol, hinum]; omega) (hend.trans hmax)
      (by rw [ht.vol, hinum, h.directory.noHoles.need_span hend]; exact Nat.zero_le _)) ?_
    rintro r u ⟨rfl, hu, -, hputs⟩
    rw [ht.vol, hinum] at hputs
    rw [if_neg (not_not.mpr rfl)]
    exact Wp.pure ⟨hu, rfl, _, Dirent.inum_ofBytes _, hputs⟩
  | none =>
    rw [hfind] at hr
    obtain ⟨rfl, rfl⟩ := hr
    exact Wp.pure ⟨h, rfl, rfl⟩

end

/-! ### The map -/

/-- What is done to a directory. -/
inductive Event where
  | linked (name : List UInt8) (inum : ℕ)
  | removed (name : List UInt8)

/-- What a name was last linked to, if it has not been removed since. The last event comes first. -/
def bound : List Event → List UInt8 → Option ℕ
  | [], _ => none
  | .linked name inum :: l, other => if namecmp other name = 0 then some inum else bound l other
  | .removed name :: l, other => if namecmp other name = 0 then none else bound l other

attribute [grind =] bound

/-- The directory stands for the map. -/
structure Represents (v : Volume) (i : ℕ) (l : List Event) : Prop where
  distinct : v.Distinct i
  lookup : ∀ name, v.lookup i name = bound l name

section

variable {v w : Volume} {i j inum : ℕ} {l : List Event} {name : List UInt8}

theorem Represents.congr (h : Represents v i l) (hc : w.content j = v.content i) :
    Represents w j l where
  distinct := h.distinct.congr hc
  lookup name := (Volume.lookup_congr hc).trans (h.lookup name)

theorem represents_empty (h : v.content i = []) : Represents v i [] := by
  have hsize : v.size i = 0 := by rw [← Volume.length_content, h, List.length_nil]
  have hnone : ∀ off, off ∉ entries (v.size i) := fun off hoff => by
    rw [hsize] at hoff
    exact absurd (mem_entries.mp hoff).2 (Nat.not_lt_zero off)
  exact ⟨fun off hoff => absurd hoff (hnone off),
    fun name => Volume.lookup_eq_none.mpr fun off hoff => absurd hoff (hnone off)⟩

/-- The lookups of all other names stay. -/
def Others (v w : Volume) (i : ℕ) (name : List UInt8) : Prop :=
  ∀ other, namecmp other name ≠ 0 → w.lookup i other = v.lookup i other

theorem Represents.linked (h : Represents v i l) (hw : w.Distinct i)
    (hname : w.lookup i name = some inum) (hother : Others v w i name) :
    Represents w i (.linked name inum :: l) where
  distinct := hw
  lookup other := by
    rw [bound]
    split_ifs with hcmp
    · rw [← hname, Volume.lookup_of_namecmp hcmp]
    · rw [hother other hcmp, h.lookup]

theorem Represents.removed (h : Represents v i l) (hw : w.Distinct i)
    (hname : w.lookup i name = none) (hother : Others v w i name) :
    Represents w i (.removed name :: l) where
  distinct := hw
  lookup other := by
    rw [bound]
    split_ifs with hcmp
    · rw [← hname, Volume.lookup_of_namecmp hcmp]
    · rw [hother other hcmp, h.lookup]

end

section

variable {τ : Type} [DecidableEq τ] {p : τ} {x : Option (List UInt8)} {E : End → Prop}
  {s t : Sys τ} {dp : Ip} {l : List Event} {name : List UInt8} {inum : ℕ}

/-- What `dirlookup` finds is what the name stands for. -/
structure Finds (s : Sys τ) (dp : Ip) (l : List Event) (name : List UInt8) (r : Option (Ip × ℕ))
    (t : Sys τ) : Prop where
  vol : t.vol = s.vol
  inum : (r.map fun q => (t.inode q.1).inum) = bound l name
  entry : ∀ ip off, r = some (ip, off) → off ∈ entries (s.vol.size (s.inode dp).inum) ∧
    (s.vol.entry (s.inode dp).inum off).Is name ∧
      (s.vol.entry (s.inode dp).inum off).inum.toNat = (t.inode ip).inum

/-- What `dirlink` does to the map. -/
structure Links (s : Sys τ) (dp : Ip) (l : List Event) (name : List UInt8) (inum : ℕ) (r : Bool)
    (t : Sys τ) : Prop where
  refused : r = false ↔ (bound l name).isSome
  map : Represents t.vol (s.inode dp).inum (if r then .linked name inum :: l else l)
  others : Others s.vol t.vol (s.inode dp).inum name

/-- What clearing the entry does to the map. -/
structure Removes (s : Sys τ) (dp : Ip) (l : List Event) (name : List UInt8) (r : Option Ip)
    (t : Sys τ) : Prop where
  found : r.isSome ↔ (bound l name).isSome
  map : Represents t.vol (s.inode dp).inum (if r.isSome then .removed name :: l else l)
  others : Others s.vol t.vol (s.inode dp).inum name

theorem dirlookup_finds (h : LockedDir p s dp) (hl : Represents s.vol (s.inode dp).inum l)
    (hfull : bound l name ≠ none → (∀ ip, (s.inode ip).ref ≠ 0) → E (.panic "iget: no inodes")) :
    Wp (Sys.act p x) E (dirlookup dp name) s (Finds s dp l name) := by
  have hlook := hl.lookup name
  rw [Volume.lookup] at hlook
  refine (dirlookup_spec h.settled h.locks h.loaded h.directory name ?_).imp ?_
  · exact fun hne => hfull fun hnone => hne (Option.map_eq_none_iff.mp (hlook.trans hnone))
  intro r t hr
  cases hfind : s.vol.find (s.inode dp).inum name with
  | none =>
    rw [hfind] at hr hlook
    obtain ⟨rfl, rfl⟩ := hr
    exact ⟨rfl, hlook, fun _ _ hq => absurd hq (by simp)⟩
  | some off =>
    rw [hfind] at hr hlook
    obtain ⟨jp, rfl, ht, hj, -⟩ := hr
    refine ⟨ht.vol, (congrArg some hj).trans hlook, fun ip o hq => ?_⟩
    obtain ⟨rfl, rfl⟩ := Prod.mk.inj (Option.some.inj hq)
    have his := List.find?_some hfind
    exact ⟨List.mem_of_find?_eq_some hfind, of_decide_eq_true his, hj.symm⟩

theorem dirlink_links (h : LockedDir p s dp) (hl : Represents s.vol (s.inode dp).inum l)
    (name : List UInt8)
    (hspace : bound l name = none → s.vol.Space (s.inode dp).inum)
    (hinum : 0 < inum ∧ inum < 2 ^ 16)
    (hfull : bound l name ≠ none → (∀ ip, (s.inode ip).ref ≠ 0) → E (.panic "iget: no inodes"))
    (hself : bound l name = some (s.inode dp).inum → E .blocked) :
    Wp (Sys.act p x) E (dirlink dp name inum) s fun r t => LockedDir p t dp ∧
      Reached p s [dp] t.vol 0 t ∧ Links s dp l name inum r t := by
  refine (dirlink_spec h name inum (by rwa [hl.lookup]) (by rwa [hl.lookup]) (by rwa [hl.lookup])).imp ?_
  rintro r t ⟨ht, hreach, hr⟩
  refine ⟨ht, hreach, ?_⟩
  have hlook := hl.lookup name
  rw [hlook] at hr
  cases hb : bound l name with
  | some j =>
    rw [hb] at hr
    obtain ⟨-, rfl, hvol⟩ := hr
    exact ⟨iff_of_true rfl (by rw [hb]; rfl), by rwa [hvol], fun _ _ => by rw [hvol]⟩
  | none =>
    rw [hb] at hr hlook
    obtain ⟨rfl, hputs⟩ := hr
    have hnat : (UInt16.ofNat inum).toNat = inum := by
      rw [UInt16.toNat_ofNat', Nat.mod_eq_of_lt hinum.2]
    have hz : UInt16.ofNat inum ≠ 0 := by
      intro hz
      rw [hz] at hnat
      exact hinum.1.ne hnat
    obtain ⟨hw, hname, hother⟩ := hputs.link hl.distinct hz (cut_strncpy DIRSIZ name) hlook
    rw [hnat] at hname
    exact ⟨iff_of_false (by decide) (by rw [hb]; decide), hl.linked hw hname hother, hother⟩

theorem unlinkEntry_removes (h : LockedDir p s dp) (hl : Represents s.vol (s.inode dp).inum l)
    (hfull : bound l name ≠ none → (∀ ip, (s.inode ip).ref ≠ 0) → E (.panic "iget: no inodes")) :
    Wp (Sys.act p x) E (unlinkEntry dp name) s fun r t =>
      LockedDir p t dp ∧ Removes s dp l name r t := by
  refine (unlinkEntry_spec h (by rwa [hl.lookup])).imp ?_
  rintro r t ⟨ht, hr⟩
  refine ⟨ht, ?_⟩
  have hlook := hl.lookup name
  rw [Volume.lookup] at hlook
  cases hfind : s.vol.find (s.inode dp).inum name with
  | some off =>
    rw [hfind] at hr hlook
    obtain ⟨hsome, de, hz, hputs⟩ := hr
    have his := List.find?_some hfind
    obtain ⟨hw, hname, hother⟩ := hputs.unlink hl.distinct hz (List.mem_of_find?_eq_some hfind)
      (of_decide_eq_true his)
    refine ⟨iff_of_true hsome (by rw [← hlook]; rfl), ?_, hother⟩
    rw [if_pos hsome]
    exact hl.removed hw hname hother
  | none =>
    rw [hfind] at hr hlook
    obtain ⟨rfl, hvol⟩ := hr
    have hnone : (bound l name).isSome = false := by
      rw [← hlook]
      rfl
    exact ⟨iff_of_false Bool.false_ne_true (Bool.eq_false_iff.mp hnone), by rwa [hvol],
      fun _ _ => by rw [hvol]⟩

/-! ### Histories -/

/-- The contents of a directory after events, from a fresh one on. Between two of them, anything may
    happen to the rest of the system. -/
inductive History (τ : Type) [DecidableEq τ] : List Event → List UInt8 → Prop
  | fresh : History τ [] []
  | dirlink {l : List Event} {p : τ} {x : Option (List UInt8)} {s t : Sys τ} {dp : Ip}
      {name : List UInt8} {inum : ℕ} {r : Bool}
      (h : History τ l (s.vol.content (s.inode dp).inum)) (hs : LockedDir p s dp)
      (hspace : bound l name = none → s.vol.Space (s.inode dp).inum)
      (hinum : 0 < inum ∧ inum < 2 ^ 16)
      (hrun : (dirlink dp name inum).run (Sys.act p x) s = .ok (r, t)) :
      History τ (if r then .linked name inum :: l else l) (t.vol.content (s.inode dp).inum)
  | unlinkEntry {l : List Event} {p : τ} {x : Option (List UInt8)} {s t : Sys τ} {dp : Ip}
      {name : List UInt8} {r : Option Ip}
      (h : History τ l (s.vol.content (s.inode dp).inum)) (hs : LockedDir p s dp)
      (hrun : (unlinkEntry dp name).run (Sys.act p x) s = .ok (r, t)) :
      History τ (if r.isSome then .removed name :: l else l) (t.vol.content (s.inode dp).inum)

/-- Every directory with the contents stands for the map. -/
theorem History.represents {c : List UInt8} (h : History τ l c) (v : Volume) (i : ℕ)
    (hc : v.content i = c) : Represents v i l := by
  induction h generalizing v i with
  | fresh => exact represents_empty hc
  | dirlink h hs hspace hinum hrun ih =>
    have hlinks := Wp.returned (dirlink_links (E := fun _ => True) hs (ih _ _ rfl) _ hspace hinum
      (fun _ _ => trivial) fun _ => trivial) hrun
    exact hlinks.2.2.map.congr hc
  | unlinkEntry h hs hrun ih =>
    have hremoves := Wp.returned (unlinkEntry_removes (E := fun _ => True) hs (ih _ _ rfl)
      fun _ _ => trivial) hrun
    exact hremoves.2.map.congr hc

/-- The name is there, and all entries of the inode cache are in use. -/
def NoneUnused (s : Sys τ) (l : List Event) (name : List UInt8) (e : End) : Prop :=
  e = .panic "iget: no inodes" ∧ bound l name ≠ none ∧ ∀ ip, (s.inode ip).ref ≠ 0

/-- A full cache has no entry for another inode. -/
theorem dirlookup_full {j : ℕ} (h : LockedDir p s dp) (hfull : ∀ ip, 0 < (s.inode ip).ref)
    (hj : s.vol.lookup (s.inode dp).inum name = some j) (hnot : ∀ ip, (s.inode ip).inum ≠ j) :
    (dirlookup dp name).run (Sys.act p x) s = .error (.panic "iget: no inodes") := by
  obtain ⟨off, hfind, rfl⟩ := Option.map_eq_some_iff.mp hj
  have hwp := dirlookup_spec (p := p) (x := x) (E := (· = .panic "iget: no inodes")) h.settled h.locks
    h.loaded h.directory name fun _ _ => rfl
  rw [hfind] at hwp
  refine (hwp.imp ?_).ends
  rintro r t ⟨ip, -, ht, hinum, -⟩
  have hpos : 0 < (t.inode ip).ref := by
    have hr := hfull ip
    rw [ht.ref, one_self]
    omega
  exact hnot ip ((ht.inum ip (hfull ip) hpos).symm.trans hinum)

/-- A name that stands for the directory itself. -/
theorem dirlink_self (h : LockedDir p s dp) (hunused : ∃ ip, (s.inode ip).ref = 0)
    (hself : s.vol.lookup (s.inode dp).inum name = some (s.inode dp).inum) :
    (dirlink dp name inum).run (Sys.act p x) s = .error .blocked := by
  obtain ⟨a, ha⟩ := hunused
  have hwp := dirlink_spec (x := x) (E := (· = .blocked)) h name inum
    (fun hnone => absurd (hself.symm.trans hnone) (by simp)) (fun _ hall => absurd ha (hall a))
    fun _ => rfl
  rw [hself] at hwp
  exact (hwp.imp fun _ _ hr => hr.2.2.1 rfl).ends

end

/-! ### An empty directory -/

/-- The root directory is empty, and the process has it locked. -/
def Sys.emptied (n : ℕ) : Sys Unit := (Sys.rooted [] n).hold () 0

section

variable {n : ℕ}

theorem emptied_reached (hn : 0 < n) :
    Reached () (Sys.rooted [] n) [0] (Sys.rooted [] n).vol 0 (Sys.emptied n) ∧
      Loaded (Sys.emptied n) 0 := by
  have href : 0 < ((Sys.rooted [] n).inode 0).ref := by
    change 0 < if 0 < n then (1 : ℤ) else 0
    rw [if_pos hn]
    exact Int.one_pos
  exact Reached.hold (rooted_settled [] n) (fun _ => rfl) href rooted_inode

theorem emptied_locked (hn : 0 < n) : LockedDir () (Sys.emptied n) 0 := by
  obtain ⟨hr, hload⟩ := emptied_reached hn
  refine ⟨hr.settled, hr.locks, hload, ?_, le_rfl⟩
  rw [hr.vol]
  exact rooted_directory (Nat.zero_le _) rfl

theorem emptied_content (hn : 0 < n) : (Sys.emptied n).vol.content 1 = [] := by
  rw [(emptied_reached hn).1.vol]
  exact rooted_content (Nat.zero_le _)

theorem emptied_space (hn : 0 < n) : (Sys.emptied n).vol.Space 1 := by
  rw [(emptied_reached hn).1.vol]
  have hvac : (Sys.rooted [] n).vol.vacant 1 = 0 :=
    Nat.le_zero.mp (((Sys.rooted [] n).vol.vacant_le 1).trans (rooted_size (Nat.zero_le _)).le)
  have hspan : Pos.span 0 16 = {.addr (direct 0)} := by decide
  have hneed : (Sys.rooted [] n).vol.need 1 (Pos.span 0 16) = 0 := by
    rw [hspan, Volume.need, Finset.card_eq_zero, Finset.filter_eq_empty_iff]
    intro k hk
    rw [Finset.mem_singleton.mp hk, rooted_ref, if_pos ⟨rfl, rfl⟩]
    decide
  rw [Volume.Space, hvac, hneed]
  exact ⟨by decide, Nat.zero_le _⟩

/-- The cache is full. -/
theorem emptied_full {t : Sys Unit} {w : Volume}
    (h : Reached () (Sys.emptied 50) [0] w 0 t) (ip : Ip) :
    0 < (t.inode ip).ref ∧ (t.inode ip).inum = ip.val + 1 := by
  have hstart := (emptied_reached (n := 50) (by decide)).1
  have hone : ((Sys.rooted [] 50).inode ip).ref = 1 := if_pos ip.isLt
  have hpos : 0 < ((Sys.rooted [] 50).inode ip).ref := hone ▸ Int.one_pos
  have hmid : ((Sys.emptied 50).inode ip).ref = 1 := (hstart.ref ip).trans (by rw [hone]; rfl)
  have hend : (t.inode ip).ref = 1 := (h.ref ip).trans (by rw [hmid]; rfl)
  have hinum := hstart.inum ip hpos (hmid ▸ Int.one_pos)
  exact ⟨hend ▸ Int.one_pos,
    (h.inum ip (hmid ▸ Int.one_pos) (hend ▸ Int.one_pos)).trans hinum⟩

/-- A name is put into the empty directory. -/
theorem emptied_dirlink (hn : 0 < n) (name : List UInt8) (inum : ℕ)
    (hinum : 0 < inum ∧ inum < 2 ^ 16) : ∃ t,
    (dirlink 0 name inum).run (Sys.act () none) (Sys.emptied n) = .ok (true, t) ∧
      LockedDir () t 0 ∧ Reached () (Sys.emptied n) [0] t.vol 0 t ∧
        t.vol.lookup 1 name = some inum := by
  have hl : Represents (Sys.emptied n).vol 1 [] := represents_empty (emptied_content hn)
  obtain ⟨r, t, hrun, hlock, hreach, hlinks⟩ := (dirlink_links (p := ()) (x := none)
    (E := fun _ => False) (emptied_locked hn) hl name (fun _ => emptied_space hn) hinum
    (fun hne => absurd rfl hne) fun hself => nomatch hself).total
  obtain rfl : r = true := by
    cases r with
    | true => rfl
    | false => exact absurd (hlinks.refused.mp rfl) Bool.false_ne_true
  refine ⟨t, hrun, hlock, hreach, (hlinks.map.lookup name).trans ?_⟩
  exact if_pos (namecmp_self name)

end

end Xv6.Fs
