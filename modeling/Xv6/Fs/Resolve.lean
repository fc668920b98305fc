import Xv6.Fs.Directory
import Mathlib.Data.List.TakeWhile

/-! @src fs.c | name:Resolving a path | layer:proof

    `skipelem` takes the elements off a path one by one. `namex` goes from directory to directory along
    them, holding one reference at a time; it drops no last reference to an inode without links, so
    nothing changes but the reference that it returns. -/

namespace Xv6.Fs
open Xv6.Disk Xv6.Schemes

/-! ### The elements of a path -/

/-- The runs of characters between slashes, each cut after `DIRSIZ` bytes. -/
def elements (path : List UInt8) : List (List UInt8) :=
  ((path.splitOn slash).filter (· ≠ [])).map (·.take DIRSIZ)

section

variable {path rest name : List UInt8}

theorem elements_slash (path : List UInt8) : elements (slash :: path) = elements path := by
  have hsplit := List.splitOn_append_cons_self_of_not_mem (a := slash) List.not_mem_nil path
  rw [List.nil_append] at hsplit
  rw [elements, hsplit, List.filter_cons_of_neg (by simp)]
  rfl

theorem elements_dropWhile (path : List UInt8) :
    elements (path.dropWhile (· = slash)) = elements path := by
  induction path with
  | nil => rfl
  | cons c path ih =>
    by_cases hc : c = slash
    · rw [List.dropWhile_cons_of_pos (by simpa using hc), ih, hc, elements_slash]
    · rw [List.dropWhile_cons_of_neg (by simpa using hc)]

/-- Without the slashes before it, a path begins with another character. -/
theorem head_dropWhile {c : UInt8} (h : path.dropWhile (· = slash) = c :: rest) : c ≠ slash := by
  have hnot := List.head?_dropWhile_not (fun c => decide (c = slash)) path
  rw [h] at hnot
  exact of_decide_eq_false hnot

/-- The first element, and the rest of the path. -/
theorem elements_cons {c : UInt8} (hc : c ≠ slash) (path : List UInt8) :
    elements (c :: path) = ((c :: path).takeWhile (· ≠ slash)).take DIRSIZ ::
      elements ((c :: path).dropWhile (· ≠ slash)) := by
  have hne : (c :: path).takeWhile (· ≠ slash) ≠ [] := by
    rw [List.takeWhile_cons_of_pos (by simpa using hc)]
    exact List.cons_ne_nil _ _
  have hnot : slash ∉ (c :: path).takeWhile (· ≠ slash) := fun hmem =>
    absurd (List.mem_takeWhile_imp hmem) (by simp)
  have hsplit : (c :: path).takeWhile (· ≠ slash) ++ (c :: path).dropWhile (· ≠ slash) = c :: path :=
    List.takeWhile_append_dropWhile
  generalize (c :: path).takeWhile (· ≠ slash) = name at *
  cases hrest : (c :: path).dropWhile (· ≠ slash) with
  | nil =>
    rw [hrest, List.append_nil] at hsplit
    rw [← hsplit, elements, List.splitOn_eq_singleton hnot,
      List.filter_cons_of_pos (by simpa using hne)]
    rfl
  | cons d rest =>
    obtain rfl : d = slash := by
      have hhead := List.head?_dropWhile_not (fun c => decide (c ≠ slash)) (c :: path)
      rw [hrest] at hhead
      exact not_not.mp (of_decide_eq_false hhead)
    rw [hrest] at hsplit
    rw [← hsplit, elements_slash, elements, List.splitOn_append_cons_self_of_not_mem hnot,
      List.filter_cons_of_pos (by simpa using hne)]
    rfl

theorem skipelem_none (h : skipelem path = none) : elements path = [] := by
  rw [← elements_dropWhile]
  unfold skipelem at h
  by_cases hs : path.dropWhile (· = slash) = []
  · rw [hs]
    rfl
  · rw [if_neg hs] at h
    exact absurd h (by simp)

/-- `skipelem` takes the first element off, and the slashes after it. -/
theorem skipelem_some (h : skipelem path = some (rest, name)) :
    elements path = name :: elements rest ∧ rest.length < path.length ∧
      (rest = [] ↔ elements rest = []) := by
  have hdrop := elements_dropWhile path
  have hlen := List.length_dropWhile_le (fun c => decide (c = slash)) path
  unfold skipelem at h
  cases hs : path.dropWhile (· = slash) with
  | nil =>
    rw [hs] at h
    exact absurd h (by simp)
  | cons c s =>
    have hc := head_dropWhile hs
    rw [hs] at h hdrop hlen
    obtain ⟨rfl, rfl⟩ := Prod.mk.inj (Option.some.inj h)
    refine ⟨?_, ?_, ?_⟩
    · rw [elements_dropWhile, ← hdrop, elements_cons hc]
    · have hrest := List.length_dropWhile_le (fun c => decide (c = slash))
        ((c :: s).dropWhile (· ≠ slash))
      have hshort : ((c :: s).dropWhile (· ≠ slash)).length ≤ s.length := by
        rw [List.dropWhile_cons_of_pos (by simpa using hc)]
        exact List.length_dropWhile_le _ _
      rw [List.length_cons] at hlen
      omega
    · cases hr : ((c :: s).dropWhile (· ≠ slash)).dropWhile (· = slash) with
      | nil => exact iff_of_true rfl rfl
      | cons d rest =>
        rw [elements_cons (head_dropWhile hr)]
        exact iff_of_false (List.cons_ne_nil _ _) (List.cons_ne_nil _ _)

/-- All elements that `skipelem` takes off. -/
def skipped (path : List UInt8) : List (List UInt8) :=
  match h : skipelem path with
  | none => []
  | some (rest, name) =>
    have _hlt : rest.length < path.length := (skipelem_some h).2.1
    name :: skipped rest
termination_by path.length

theorem skipped_eq_elements (path : List UInt8) : skipped path = elements path := by
  fun_induction skipped path with
  | case1 path h => exact (skipelem_none h).symm
  | case2 path rest name h hlt ih => rw [ih, (skipelem_some h).1]

end

/-! ### The names along a path -/

namespace Volume

/-- One name: it is looked up in a directory. -/
def child (v : Volume) (i : ℕ) (name : List UInt8) : Option ℕ :=
  if (v.ino i).type = T_DIR then v.lookup i name else none

/-- The inode that the names lead to. -/
def resolve (v : Volume) (i : ℕ) (names : List (List UInt8)) : Option ℕ := names.foldlM v.child i

/-- The directory that the last name is looked up in. -/
def parent (v : Volume) (i : ℕ) (names : List (List UInt8)) : Option ℕ :=
  if names = [] then none
  else (v.resolve i names.dropLast).filter fun j => (v.ino j).type = T_DIR

/-- What `namex` goes to. -/
def target (v : Volume) (nameiparent : Bool) (i : ℕ) (names : List (List UInt8)) : Option ℕ :=
  if nameiparent then v.parent i names else v.resolve i names

/-- In what is no directory there is nothing. -/
theorem target_cons_of_not_dir {v : Volume} {i : ℕ} (h : (v.ino i).type ≠ T_DIR) (b : Bool)
    (name : List UInt8) (names : List (List UInt8)) : v.target b i (name :: names) = none := by
  have hres : ∀ l, v.resolve i (name :: l) = none := by
    intro l
    rw [resolve, List.foldlM_cons, child, if_neg h]
    rfl
  cases b with
  | false => exact hres names
  | true =>
    change v.parent i (name :: names) = none
    rw [parent, if_neg (List.cons_ne_nil _ _)]
    cases names with
    | nil => exact (Option.filter_some ..).trans (if_neg (by simpa using h))
    | cons name' names => rw [List.dropLast_cons_cons, hres, Option.filter_none]

/-- The last name is not looked up for the parent. -/
theorem target_single {v : Volume} {i : ℕ} (h : (v.ino i).type = T_DIR) (name : List UInt8) :
    v.target true i [name] = some i := by
  change v.parent i [name] = some i
  rw [parent, if_neg (List.cons_ne_nil _ _)]
  exact (Option.filter_some ..).trans (if_pos (decide_eq_true h))

/-- Every other name is. -/
theorem target_cons {v : Volume} {i : ℕ} (h : (v.ino i).type = T_DIR) {b : Bool}
    (name : List UInt8) {names : List (List UInt8)} (hlast : ¬ (b = true ∧ names = [])) :
    v.target b i (name :: names) = (v.lookup i name).bind fun j => v.target b j names := by
  have hres : ∀ l, v.resolve i (name :: l) = (v.lookup i name).bind fun j => v.resolve j l := by
    intro l
    rw [resolve, List.foldlM_cons, child, if_pos h]
    rfl
  cases b with
  | false => exact hres names
  | true =>
    change v.parent i (name :: names) = _
    cases names with
    | nil => exact absurd ⟨rfl, rfl⟩ hlast
    | cons name' names =>
      rw [parent, if_neg (List.cons_ne_nil _ _), List.dropLast_cons_cons, hres]
      cases v.lookup i name with
      | none => rfl
      | some j => rw [Option.bind_some, Option.bind_some]; rfl

end Volume

/-! ### The tree -/

section

variable {τ : Type}

/-- The inode is allocated, and has links or is in use. -/
structure Kept (s : Sys τ) (i : ℕ) : Prop where
  inode : s.vol.Inode i
  used : (s.vol.ino i).nlink ≠ 0 ∨ ∃ ip, 0 < (s.inode ip).ref ∧ (s.inode ip).inum = i

/-- What the names in directories stand for is there. -/
structure Tree (s : Sys τ) : Prop where
  directory : ∀ i, s.vol.Inode i → (s.vol.ino i).type = T_DIR → s.vol.Directory i
  root : Kept s ROOTINO
  entry : ∀ i name j, s.vol.Directory i → s.vol.lookup i name = some j → Kept s j

/-- The inode that a path starts at. -/
def Start (p : τ) (s : Sys τ) (path : List UInt8) (i : ℕ) : Prop :=
  if path.head? = some slash then i = ROOTINO
  else ∃ ip, s.cwd p = some ip ∧ 0 < (s.inode ip).ref ∧ (s.inode ip).inum = i ∧ s.vol.Inode i

/-- Two entries of the inode cache are not in use. -/
def TwoUnused (s : Sys τ) : Prop := ∃ a b, a ≠ b ∧ (s.inode a).ref = 0 ∧ (s.inode b).ref = 0

/-- The inode cache is at its end. -/
def NoInodes (s : Sys τ) (e : End) : Prop := e = .panic "iget: no inodes" ∧ ¬ TwoUnused s

/-- What is returned: a reference to the inode that was asked for, if there is one. -/
def Gets (p : τ) (s : Sys τ) (target : Option ℕ) (r : Option Ip) (t : Sys τ) : Prop :=
  match target with
  | none => r = none ∧ Reached p s [] s.vol 0 t
  | some j => ∃ ip, r = some ip ∧ (t.inode ip).inum = j ∧ Reached p s [] s.vol (one ip) t

/-- What `namex` comes to: an inode, and the last name where its parent was asked for. -/
structure Found (p : τ) (s : Sys τ) (nameiparent : Bool) (i : ℕ) (names : List (List UInt8))
    (r : Option (Ip × List UInt8)) (t : Sys τ) : Prop where
  gets : Gets p s (s.vol.target nameiparent i names) (r.map Prod.fst) t
  name : nameiparent = true → ∀ ip name, r = some (ip, name) → names.getLast? = some name

variable {p : τ} {s t : Sys τ} {ip jp : Ip} {H : List Ip} {n : Ip → ℤ} {b : Bool} {i : ℕ}
  {names : List (List UInt8)}

theorem Found.of_none (hn : s.vol.target b i names = none) (h : Reached p s [] s.vol 0 t) :
    Found p s b i names none t where
  gets := by
    rw [hn]
    exact ⟨rfl, h⟩
  name _ _ _ hr := absurd hr (by simp)

theorem Found.of_some {name : List UInt8} (hn : s.vol.target b i names = some (t.inode ip).inum)
    (h : Reached p s [] s.vol (one ip) t) (hlast : b = true → names.getLast? = some name) :
    Found p s b i names (some (ip, name)) t where
  gets := by
    rw [hn]
    exact ⟨ip, rfl, rfl, h⟩
  name hb jp name' hr := by
    obtain ⟨rfl, rfl⟩ := Prod.mk.inj (Option.some.inj hr)
    exact hlast hb

/-- A name before the last one leads on. -/
theorem Found.cons {j : ℕ} {name : List UInt8} {r : Option (Ip × List UInt8)}
    (hdir : (s.vol.ino i).type = T_DIR) (hj : s.vol.lookup i name = some j)
    (hlast : ¬ (b = true ∧ names = [])) (h : Found p s b j names r t) :
    Found p s b i (name :: names) r t where
  gets := by
    rw [Volume.target_cons hdir name hlast, hj]
    exact h.gets
  name hb jp name' hr := by
    have hne : names ≠ [] := fun hn => hlast ⟨hb, hn⟩
    rw [List.getLast?_cons_of_ne_nil hne]
    exact h.name hb jp name' hr

/-- A reference that has been taken is not the last one of an inode that is kept otherwise. -/
theorem Reached.not_last (hs : ∀ ip, 0 ≤ (s.inode ip).ref) (h : Reached p s H s.vol (one ip + n) t)
    (hn : 0 ≤ n) (hk : Kept s (t.inode ip).inum) (hip : Loaded t ip)
    (hz : (t.inode ip).d.nlink = 0) : (t.inode ip).ref ≠ 1 := by
  intro hr
  have href := h.ref ip
  have hnn : 0 ≤ n ip := hn ip
  rw [Pi.add_apply, one_self] at href
  rcases hk.used with hlink | ⟨jp, hj, he⟩
  · rw [← h.vol, vol_ino, h.settled.cache.ino_eq hip] at hlink
    exact hlink hz
  · have hone : 0 ≤ one ip jp := one_nonneg ip jp
    have hnj : 0 ≤ n jp := hn jp
    have hrj := h.ref jp
    rw [Pi.add_apply] at hrj
    have hsame := h.inum jp hj (by omega)
    obtain rfl : jp = ip :=
      h.settled.cache.unique jp ip (by omega) hip.ref (hsame.trans he)
    have hpos := hs jp
    omega

/-- One reference taken leaves an entry that is not in use. -/
theorem TwoUnused.one_left (h : TwoUnused s) (ht : Reached p s H s.vol (one ip) t) :
    ¬ ∀ jp, (t.inode jp).ref ≠ 0 := by
  obtain ⟨a, b, hab, ha, hb⟩ := h
  intro hall
  by_cases hai : a = ip
  · refine hall b ?_
    rw [ht.ref, one_other fun hbi => hab (hai.trans hbi.symm), hb, add_zero]
  · refine hall a ?_
    rw [ht.ref, one_other hai, ha, add_zero]

end

section

variable {τ : Type} [DecidableEq τ] {p : τ} {x : Option (List UInt8)} {E : End → Prop}
  {s t : Sys τ} {ip jp : Ip} {H : List Ip} {n : Ip → ℤ}

/-- The reference is given back. -/
theorem iput_kept (hs : ∀ ip, 0 ≤ (s.inode ip).ref) (h : Reached p s H s.vol (one ip + n) t)
    (hn : 0 ≤ n) (hip : ip ∉ H) (hk : Kept s (t.inode ip).inum) :
    Wp (Sys.act p x) E (iput ip) t fun _ u => Reached p s H s.vol n u ∧
      ∀ jp, 0 < (t.inode jp).ref → 0 < (u.inode jp).ref → (u.inode jp).inum = (t.inode jp).inum := by
  have hpos : 0 < (t.inode ip).ref := by
    have href := h.ref ip
    have hr := hs ip
    have hnn : 0 ≤ n ip := hn ip
    rw [Pi.add_apply, one_self] at href
    omega
  have hone : 0 ≤ one ip + n := add_nonneg (one_nonneg ip) hn
  refine (iput_spec h.settled h.locks hip hpos fun hl hz => h.not_last hs hn hk hl hz).imp ?_
  intro _ u hu
  have hall := h.trans hu hone
  rw [add_neg_cancel_comm, h.vol] at hall
  exact ⟨hall, hu.inum⟩

theorem iunlockput_kept (hs : ∀ ip, 0 ≤ (s.inode ip).ref)
    (h : Reached p s [ip] s.vol (one ip + n) t) (hn : 0 ≤ n) (hk : Kept s (t.inode ip).inum) :
    Wp (Sys.act p x) E (iunlockput ip) t fun _ u => Reached p s [] s.vol n u ∧
      ∀ jp, 0 < (t.inode jp).ref → 0 < (u.inode jp).ref → (u.inode jp).inum = (t.inode jp).inum := by
  have hone : 0 ≤ one ip + n := add_nonneg (one_nonneg ip) hn
  have hpos : ∀ jp, 0 ≤ (t.inode jp).ref := h.settled.ref
  have hip : 0 < (t.inode ip).ref := by
    have href := h.ref ip
    have hr := hs ip
    have hnn : 0 ≤ n ip := hn ip
    rw [Pi.add_apply, one_self] at href
    omega
  refine Wp.bind (iunlock_spec h.settled h.locks List.not_mem_nil hip) ?_
  intro _ t1 h1
  have hall := h.trans h1 hone
  rw [add_zero, h.vol] at hall
  have href : ∀ jp, (t1.inode jp).ref = (t.inode jp).ref := fun jp => by
    rw [h1.ref, Pi.zero_apply, add_zero]
  have hinum : ∀ jp, 0 < (t.inode jp).ref → (t1.inode jp).inum = (t.inode jp).inum := fun jp hj =>
    h1.inum jp hj (by rwa [href])
  refine (iput_kept hs hall hn List.not_mem_nil (by rwa [hinum ip hip])).imp ?_
  rintro _ u ⟨hu, hi⟩
  refine ⟨hu, fun jp hj hj' => ?_⟩
  rw [hi jp (by rwa [href]) hj', hinum jp hj]

theorem namexEnd_spec (hs : ∀ ip, 0 ≤ (s.inode ip).ref) (h : Reached p s [] s.vol (one ip) t)
    (hk : Kept s (t.inode ip).inum) (b : Bool) (name : List UInt8) :
    Wp (Sys.act p x) E (namexEnd b ip name) t (Found p s b (t.inode ip).inum []) := by
  cases b with
  | false => exact Wp.pure (.of_some rfl h fun hb => absurd hb (by decide))
  | true =>
    refine Wp.bind (iput_kept (n := 0) hs (by rwa [add_zero]) le_rfl List.not_mem_nil hk) ?_
    rintro _ u ⟨hu, -⟩
    exact Wp.pure (.of_none rfl hu)

/-- The inode that has been taken is locked. -/
theorem ilock_kept (hs : ∀ ip, 0 ≤ (s.inode ip).ref) (h : Reached p s [] s.vol (one ip) t)
    (hk : Kept s (t.inode ip).inum) :
    Wp (Sys.act p x) E (ilock ip) t fun _ u => Reached p s [ip] s.vol (one ip) u ∧ Loaded u ip ∧
      (u.inode ip).inum = (t.inode ip).inum := by
  have hpos : 0 < (t.inode ip).ref := by
    have hr := hs ip
    rw [h.ref, one_self]
    omega
  have hlock := ilock_spec (p := p) (x := x) (E := E) h.settled h.locks List.not_mem_nil hpos
    (h.vol.symm ▸ hk.inode)
  refine hlock.imp ?_
  rintro _ u ⟨hu, hip⟩
  have hall := h.trans hu (one_nonneg ip)
  rw [add_zero, h.vol] at hall
  exact ⟨hall, hip, hu.inum ip hpos hip.ref⟩

/-- A name is looked up, and the inode taken that it stands for. -/
theorem dirlookup_kept (hE : ¬ TwoUnused s → E (.panic "iget: no inodes"))
    (h : Reached p s [ip] s.vol (one ip) t) (hip : Loaded t ip)
    (hd : s.vol.Directory (t.inode ip).inum) (name : List UInt8) :
    Wp (Sys.act p x) E (dirlookup ip name) t fun r u =>
      match s.vol.lookup (t.inode ip).inum name with
      | none => r = none ∧ u = t
      | some j => ∃ jp off, r = some (jp, off) ∧ Reached p s [ip] s.vol (one ip + one jp) u ∧
          (u.inode jp).inum = j ∧ (u.inode ip).inum = (t.inode ip).inum := by
  have hlook := dirlookup_spec (p := p) (x := x) (E := E) h.settled h.locks hip
    (h.vol.symm ▸ hd) name fun _ hall => hE fun hfree => hfree.one_left h hall
  rw [h.vol] at hlook
  refine hlook.imp ?_
  intro r u hr
  rw [Volume.lookup]
  cases hfind : s.vol.find (t.inode ip).inum name with
  | none =>
    rw [hfind] at hr
    exact hr
  | some off =>
    rw [hfind] at hr
    obtain ⟨jp, rfl, hu, hj, -⟩ := hr
    refine ⟨jp, off, rfl, h.trans hu (one_nonneg ip), hj, hu.inum ip hip.ref ?_⟩
    have hpos := hip.ref
    have hnn : 0 ≤ one jp ip := one_nonneg jp ip
    rw [hu.ref]
    omega

/-- One element, and the rest of the path by induction. -/
theorem namexLoop_spec (h0 : Settled s) (htree : Tree s)
    (hE : ¬ TwoUnused s → E (.panic "iget: no inodes")) (b : Bool) {k : ℕ} {path name : List UInt8}
    (hpath : path.length ≤ k) (h : Reached p s [] s.vol (one ip) t) (hk : Kept s (t.inode ip).inum) :
    Wp (Sys.act p x) E (namexLoop b k ip path name) t
      (Found p s b (t.inode ip).inum (elements path)) := by
  induction k generalizing ip path name t with
  | zero =>
    obtain rfl : path = [] := List.length_eq_zero_iff.mp (Nat.le_zero.mp hpath)
    exact namexEnd_spec h0.ref h hk b name
  | succ k ih =>
    rw [namexLoop]
    cases hskip : skipelem path with
    | none =>
      rw [skipelem_none hskip]
      exact namexEnd_spec h0.ref h hk b name
    | some r =>
      obtain ⟨rest, name⟩ := r
      obtain ⟨helem, hlt, hlast⟩ := skipelem_some hskip
      rw [helem]
      refine Wp.bind (ilock_kept h0.ref h hk) ?_
      rintro _ t1 ⟨h1, hip, hi⟩
      rw [← hi] at hk ⊢
      have hino : s.vol.ino (t1.inode ip).inum = (t1.inode ip).d := by
        rw [← h1.vol]
        exact h1.settled.cache.ino_eq hip
      have hnone : s.vol.target b (t1.inode ip).inum (name :: elements rest) = none →
          Wp (Sys.act p x) E (iunlockput ip >>= fun _ => pure none) t1
            (Found p s b (t1.inode ip).inum (name :: elements rest)) := by
        intro htarget
        refine Wp.bind (iunlockput_kept (n := 0) h0.ref (by rwa [add_zero]) le_rfl hk) ?_
        rintro _ u ⟨hu, -⟩
        exact Wp.pure (.of_none htarget hu)
      refine Wp.perform_bind rfl ?_
      by_cases hdir : (s.vol.ino (t1.inode ip).inum).type = T_DIR
      · rw [← hino, if_neg (not_not.mpr hdir)]
        by_cases hend : b = true ∧ rest = []
        · obtain ⟨rfl, rfl⟩ := hend
          rw [if_pos ⟨rfl, rfl⟩]
          refine Wp.bind (iunlock_spec h1.settled h1.locks List.not_mem_nil hip.ref) ?_
          intro _ u hu
          have h2 := h1.trans hu (one_nonneg ip)
          rw [add_zero, h1.vol] at h2
          have hposu : 0 < (u.inode ip).ref := by
            rw [hu.ref, Pi.zero_apply, add_zero]
            exact hip.ref
          have hinum := hu.inum ip hip.ref hposu
          have htarget := (Volume.target_single hdir name).trans (congrArg some hinum.symm)
          exact Wp.pure (.of_some htarget h2 fun _ => rfl)
        · rw [if_neg hend]
          have hd := htree.directory _ hk.inode hdir
          have hnames : ¬ (b = true ∧ elements rest = []) := by rwa [← hlast]
          refine Wp.bind (dirlookup_kept hE h1 hip hd name) ?_
          intro r u hr
          cases hlookup : s.vol.lookup (t1.inode ip).inum name with
          | none =>
            rw [hlookup] at hr
            obtain ⟨rfl, rfl⟩ := hr
            exact hnone (by rw [Volume.target_cons hdir name hnames, hlookup]; rfl)
          | some j =>
            rw [hlookup] at hr
            obtain ⟨jp, off, rfl, hu, rfl, hiu⟩ := hr
            refine Wp.bind (iunlockput_kept h0.ref hu (one_nonneg jp) (hiu.symm ▸ hk)) ?_
            rintro _ v ⟨hv, hinum⟩
            have hju : (v.inode jp).inum = (u.inode jp).inum := by
              have hr := h0.ref jp
              have hnn : 0 ≤ one ip jp := one_nonneg ip jp
              refine hinum jp ?_ ?_
              · rw [hu.ref, Pi.add_apply, one_self]
                omega
              · rw [hv.ref, one_self]
                omega
            rw [← hju] at hlookup
            have hkj := htree.entry _ _ _ hd hlookup
            exact (ih (by omega) hv hkj).imp fun _ _ => Found.cons hdir hlookup hnames
      · rw [← hino, if_pos hdir]
        exact hnone (Volume.target_cons_of_not_dir hdir b name _)

theorem namex_spec (h : Settled s) (hl : Locks s p []) (htree : Tree s)
    (hE : ¬ TwoUnused s → E (.panic "iget: no inodes")) {path : List UInt8} {i : ℕ}
    (hi : Start p s path i) (b : Bool) :
    Wp (Sys.act p x) E (namex path b) s (Found p s b i (elements path)) := by
  unfold Start at hi
  unfold namex
  split_ifs at hi ⊢ with hroot
  · have hfull : (∀ ip, (s.inode ip).ref ≠ 0) → E (.panic "iget: no inodes") := fun hall =>
      hE fun hfree => hfree.elim fun a ⟨_, _, ha, _⟩ => hall a ha
    refine Wp.bind (iget_spec h hl hfull ROOTINO) ?_
    rintro ip t ⟨ht, hip, -⟩
    rw [hi, ← hip]
    exact namexLoop_spec h htree hE b le_rfl ht (hip.symm ▸ htree.root)
  · obtain ⟨ip, hcwd, hr, rfl, hinode⟩ := hi
    refine Wp.perform_bind rfl ?_
    rw [hcwd]
    refine Wp.bind (idup_spec h hl hr) ?_
    intro _ t ht
    have hpos : 0 < (t.inode ip).ref := by
      rw [ht.ref, one_self]
      omega
    have hip := ht.inum ip hr hpos
    rw [← hip] at hinode ⊢
    exact namexLoop_spec h htree hE b le_rfl ht ⟨hinode, .inr ⟨ip, hr, hip.symm⟩⟩

theorem namei_spec (h : Settled s) (hl : Locks s p []) (htree : Tree s)
    (hE : ¬ TwoUnused s → E (.panic "iget: no inodes")) {path : List UInt8} {i : ℕ}
    (hi : Start p s path i) :
    Wp (Sys.act p x) E (namei path) s (Gets p s (s.vol.resolve i (elements path))) :=
  Wp.bind (namex_spec h hl htree hE hi false) fun _ _ hr => Wp.pure hr.gets

/-- `skipelem` takes off the elements of a path, `namei` follows them and `nameiparent` all but the
    last one. Nothing changes but the reference that is returned; where fewer than two entries of the
    inode cache are left, `iget` may find none. -/
theorem paths_resolved (h : Settled s) (hl : Locks s p []) (htree : Tree s)
    (x : Option (List UInt8)) {path : List UInt8} {i : ℕ} (hi : Start p s path i) :
    skipped path = elements path ∧
    Wp (Sys.act p x) (NoInodes s) (namei path) s (Gets p s (s.vol.resolve i (elements path))) ∧
    Wp (Sys.act p x) (NoInodes s) (nameiparent path) s fun r t =>
      Gets p s (s.vol.parent i (elements path)) (r.map Prod.fst) t ∧
        ∀ ip name, r = some (ip, name) → (elements path).getLast? = some name := by
  have hE : ¬ TwoUnused s → NoInodes s (.panic "iget: no inodes") := fun hn => ⟨rfl, hn⟩
  exact ⟨skipped_eq_elements path, namei_spec h hl htree hE hi,
    (namex_spec h hl htree hE hi true).imp fun _ _ hr => ⟨hr.gets, hr.name rfl⟩⟩

/-- A full cache has no entry for another inode. -/
theorem namei_full (h : Settled s) (hl : Locks s p []) (htree : Tree s) {path : List UInt8}
    {i j : ℕ} (hi : Start p s path i) (hfull : ∀ ip, 0 < (s.inode ip).ref)
    (hj : s.vol.resolve i (elements path) = some j) (hnot : ∀ ip, (s.inode ip).inum ≠ j) :
    (namei path).run (Sys.act p x) s = .error (.panic "iget: no inodes") := by
  have hwp := namei_spec (x := x) (E := (· = .panic "iget: no inodes")) h hl htree (fun _ => rfl) hi
  rw [hj] at hwp
  refine (hwp.imp ?_).ends
  rintro r t ⟨ip, -, hinum, ht⟩
  have hpos : 0 < (t.inode ip).ref := by
    have hr := hfull ip
    rw [ht.ref, one_self]
    omega
  exact hnot ip ((ht.inum ip (hfull ip) hpos).symm.trans hinum)

end

/-! ### A path that leads to a file -/

/-- `.`, `..` and `a`. -/
def rootBytes : List UInt8 :=
  Dirent.bytes ⟨1, [46]⟩ ++ Dirent.bytes ⟨1, [46, 46]⟩ ++ Dirent.bytes ⟨51, [97]⟩

section

variable {n i : ℕ} {name : List UInt8}

/-- The names of the root directory. -/
theorem rooted_lookup : (Sys.rooted rootBytes n).vol.lookup 1 name =
    (([0, 16, 32].find? fun off =>
        (Dirent.ofBytes ((rootBytes.drop off).take 16)).Is name).map
      fun off => (Dirent.ofBytes ((rootBytes.drop off).take 16)).inum.toNat) := by
  have hentry : (Sys.rooted rootBytes n).vol.entry 1 =
      fun off => .ofBytes ((rootBytes.drop off).take 16) := by
    funext off
    rw [Volume.entry, rooted_content (by decide)]
  rw [Volume.lookup, Volume.find, rooted_size (by decide), hentry]
  rfl

theorem rooted_kept (hi : i = 1 ∨ i = 51) : Kept (Sys.rooted rootBytes n) i := by
  constructor
  · refine ⟨by omega, ?_, ?_⟩
    · change i < 200
      omega
    · rw [rooted_ino]
      rcases hi with rfl | rfl
      all_goals decide
  · rw [rooted_ino]
    rcases hi with rfl | rfl
    all_goals exact .inl (by decide)

theorem rooted_tree (n : ℕ) : Tree (Sys.rooted rootBytes n) where
  directory i _ hdir := by
    obtain rfl : i = 1 := rooted_of_directory hdir
    exact rooted_directory (by decide) (by decide)
  root := rooted_kept (.inl rfl)
  entry i name j hd hj := by
    obtain rfl : i = 1 := rooted_of_directory hd.dir
    rw [rooted_lookup] at hj
    obtain ⟨off, hoff, rfl⟩ := Option.map_eq_some_iff.mp hj
    have hall : ∀ off ∈ [0, 16, 32],
        (Dirent.ofBytes ((rootBytes.drop off).take 16)).inum.toNat = 1 ∨
          (Dirent.ofBytes ((rootBytes.drop off).take 16)).inum.toNat = 51 := by decide
    exact rooted_kept (hall off (List.mem_of_find?_eq_some hoff))

/-- `/a` is the file with a link. -/
theorem rooted_resolve :
    (Sys.rooted rootBytes n).vol.resolve 1 (elements [slash, 97]) = some 51 := by
  have hone : elements [slash, 97] = [[97]] := by decide
  have hdir : ((Sys.rooted rootBytes n).vol.ino 1).type = T_DIR :=
    (rooted_directory (by decide) (by decide)).dir
  rw [hone, Volume.resolve, List.foldlM_cons, Volume.child, if_pos hdir, rooted_lookup]
  rfl

end

/-- Two entries are left. -/
theorem rooted_resolved : ∃ r t,
    (namei [slash, 97]).run (Sys.act () none) (Sys.rooted rootBytes 48) = .ok (r, t) ∧
      Gets () (Sys.rooted rootBytes 48) (some 51) r t := by
  have htwo : TwoUnused (Sys.rooted rootBytes 48) := ⟨48, 49, by decide, rfl, rfl⟩
  have hstart : Start () (Sys.rooted rootBytes 48) [slash, 97] ROOTINO := rfl
  have hres := paths_resolved (rooted_settled _ 48) (fun _ => rfl) (rooted_tree 48) none hstart
  rw [← rooted_resolve (n := 48)]
  exact (hres.2.1.mono (fun _ _ hr => hr) fun _ he => he.2 htwo).total

/-- No entry is left. -/
theorem rooted_full : Settled (Sys.rooted rootBytes 50) ∧
    Locks (Sys.rooted rootBytes 50) () [] ∧ Tree (Sys.rooted rootBytes 50) ∧
    Start () (Sys.rooted rootBytes 50) [slash, 97] ROOTINO ∧
    (Sys.rooted rootBytes 50).vol.resolve ROOTINO (elements [slash, 97]) = some 51 ∧
    (namei [slash, 97]).run (Sys.act () none) (Sys.rooted rootBytes 50) =
      .error (.panic "iget: no inodes") := by
  have hfull : ∀ ip, 0 < ((Sys.rooted rootBytes 50).inode ip).ref := fun ip => by
    change 0 < if ip.val < 50 then (1 : ℤ) else 0
    rw [if_pos ip.isLt]
    exact Int.one_pos
  have hnot : ∀ ip, ((Sys.rooted rootBytes 50).inode ip).inum ≠ 51 := fun ip =>
    (Nat.succ_lt_succ ip.isLt).ne
  refine ⟨rooted_settled _ 50, fun _ => rfl, rooted_tree 50, rfl, rooted_resolve, ?_⟩
  exact namei_full (rooted_settled _ 50) (fun _ => rfl) (rooted_tree 50) rfl hfull rooted_resolve hnot

end Xv6.Fs
