import Xv6.Log.Machine
import Mathlib.Data.List.Perm.Subperm

/-! @src bio.c log.c | name:Pinned buffers | layer:proof

    What `bget` may not recycle: a referenced or dirty buffer of a block stays in the cache through
    the reads and writes of the other blocks. -/

set_option linter.unusedSectionVars false

namespace Xv6.Log

variable {P : Type}

/-! ### What a read, a write or a release keeps -/

/-- Some buffer of block `c` has the property `φ`. -/
def HasBuf (φ : Buf P → Prop) (c : ℕ) (bc : List (Buf P)) : Prop := ∃ x ∈ bc, x.blockno = c ∧ φ x

/-- The block is cached and its buffer is marked `B_DIRTY`, so that it is not evicted. -/
def Pinned (c : ℕ) (bc : List (Buf P)) : Prop := HasBuf (fun x => x.dirty = true) c bc

instance (c : ℕ) (bc : List (Buf P)) : Decidable (Pinned c bc) :=
  inferInstanceAs (Decidable (∃ x ∈ bc, x.blockno = c ∧ x.dirty = true))

/-- A buffer property that keeps the buffer from being recycled and that `bget` does not lose. -/
structure Keeps (φ : Buf P → Prop) : Prop where
  busy : ∀ x, φ x → x.refs ≠ [] ∨ x.dirty = true
  ref : ∀ (x : Buf P) p, φ x → φ { x with refs := p :: x.refs }

theorem keeps_dirty : Keeps (P := P) fun x => x.dirty = true :=
  ⟨fun _ h => Or.inr h, fun _ _ h => h⟩

theorem keeps_ref (p : P) : Keeps fun x => p ∈ x.refs :=
  ⟨fun _ h => Or.inl (List.ne_nil_of_mem h), fun _ _ h => List.mem_cons_of_mem _ h⟩

variable {φ : Buf P → Prop} {c : ℕ} {bc bc' : List (Buf P)}

theorem hasBuf_onBlock {b : ℕ} {f : Buf P → Buf P} (hno : ∀ x, (f x).blockno = x.blockno)
    (hf : ∀ x, c = b → φ x → φ (f x)) (h : HasBuf φ c bc) : HasBuf φ c (onBlock b f bc) := by
  obtain ⟨x, hx, hc, hφ⟩ := h
  refine ⟨_, List.mem_map.mpr ⟨x, hx, rfl⟩, ?_⟩
  split_ifs with hb
  · exact ⟨by rw [hno, hc], hf x (by omega) hφ⟩
  · exact ⟨hc, hφ⟩

/-- A first hit replaces one buffer by the same one with a further reference. -/
theorem hasBuf_hit (hk : Keeps φ) {p : P} {b : ℕ} (hs : hit p b bc = some bc')
    (h : HasBuf φ c bc) : HasBuf φ c bc' := by
  induction bc generalizing bc' with
  | nil => simp [hit] at hs
  | cons y ys ih =>
    obtain ⟨x, hx, hc, hφ⟩ := h
    rw [hit] at hs
    split_ifs at hs with hb
    · obtain rfl := Option.some.inj hs
      rcases List.mem_cons.mp hx with rfl | hx
      · exact ⟨_, List.mem_cons_self .., hc, hk.ref x p hφ⟩
      · exact ⟨x, List.mem_cons_of_mem _ hx, hc, hφ⟩
    · obtain ⟨ys', hys, rfl⟩ := Option.map_eq_some_iff.mp hs
      rcases List.mem_cons.mp hx with rfl | hx
      · exact ⟨x, List.mem_cons_self .., hc, hφ⟩
      · obtain ⟨z, hz, hzc⟩ := ih hys ⟨x, hx, hc, hφ⟩
        exact ⟨z, List.mem_cons_of_mem _ hz, hzc⟩

/-- Only an unreferenced clean buffer is recycled. -/
theorem hasBuf_recycle (hk : Keeps φ) {p : P} {b : ℕ} (hs : recycle p b bc = some bc')
    (h : HasBuf φ c bc) : HasBuf φ c bc' := by
  induction bc generalizing bc' with
  | nil => simp [recycle] at hs
  | cons y ys ih =>
    obtain ⟨x, hx, hc, hφ⟩ := h
    rw [recycle] at hs
    split at hs
    · rename_i ys' hys
      obtain rfl := Option.some.inj hs
      rcases List.mem_cons.mp hx with rfl | hx
      · exact ⟨x, List.mem_cons_self .., hc, hφ⟩
      · obtain ⟨z, hz, hzc⟩ := ih hys ⟨x, hx, hc, hφ⟩
        exact ⟨z, List.mem_cons_of_mem _ hz, hzc⟩
    · split_ifs at hs with hfree
      obtain rfl := Option.some.inj hs
      simp only [Bool.and_eq_true, List.isEmpty_iff, Bool.not_eq_true'] at hfree
      rcases List.mem_cons.mp hx with rfl | hx
      · rcases hk.busy x hφ with hr | hd
        · exact absurd hfree.1 hr
        · exact absurd hd (by simp [hfree.2])
      · exact ⟨x, List.mem_cons_of_mem _ hx, hc, hφ⟩

theorem hasBuf_bread (hk : Keeps φ) {p : P} {b : ℕ} (hs : bread p b bc = some bc')
    (h : HasBuf φ c bc) : HasBuf φ c bc' := by
  rw [bread, bget] at hs
  split at hs
  · rename_i hh
    obtain rfl := Option.some.inj hs
    exact hasBuf_hit hk hh h
  · exact hasBuf_recycle hk hs h

theorem hasBuf_bwrite {b : ℕ} (hf : ∀ x : Buf P, c = b → φ x → φ { x with dirty := false })
    (h : HasBuf φ c bc) : HasBuf φ c (bwrite b bc) :=
  hasBuf_onBlock (fun _ => rfl) hf h

variable [DecidableEq P]

theorem hasBuf_brelse {p : P} {b : ℕ}
    (hf : ∀ x : Buf P, φ x → φ { x with refs := x.refs.erase p }) (h : HasBuf φ c bc) :
    HasBuf φ c (brelse p b bc) := by
  obtain ⟨x, hx, hc⟩ := hasBuf_onBlock (b := b) (f := fun x => { x with refs := x.refs.erase p })
    (fun _ => rfl) (fun x _ => hf x) h
  refine ⟨x, ?_, hc⟩
  rw [brelse, List.mem_append, List.mem_filter, List.mem_filter]
  by_cases hm : (decide (x.blockno = b) && x.refs.isEmpty) = true
  · exact Or.inl ⟨hx, hm⟩
  · exact Or.inr ⟨hx, by rw [(Bool.not_eq_true _).mp hm]; rfl⟩

/-- A copy keeps every pinned block except the one it writes. -/
theorem pinned_copyTo {p : P} {src dst : ℕ} (hne : c ≠ dst) (h : Pinned c bc) :
    Pinned c (copyTo p src dst bc) :=
  hasBuf_brelse (fun _ h => h) (hasBuf_brelse (fun _ h => h)
    (hasBuf_bwrite (fun _ he => absurd he hne) h))

theorem pinned_writeLogBlock {p : P} {lb src : ℕ} (hs : writeLogBlock p lb src bc = some bc')
    (hne : c ≠ lb) (h : Pinned c bc) : Pinned c bc' := by
  obtain ⟨bc₂, h₂, rfl⟩ := Option.map_eq_some_iff.mp hs
  obtain ⟨bc₁, h₁, h₂⟩ := Option.bind_eq_some_iff.mp h₂
  exact pinned_copyTo hne (hasBuf_bread keeps_dirty h₂ (hasBuf_bread keeps_dirty h₁ h))

theorem pinned_installBlock {p : P} {lb dst : ℕ} (hs : installBlock p lb dst bc = some bc')
    (hne : c ≠ dst) (h : Pinned c bc) : Pinned c bc' := by
  obtain ⟨bc₂, h₂, rfl⟩ := Option.map_eq_some_iff.mp hs
  obtain ⟨bc₁, h₁, h₂⟩ := Option.bind_eq_some_iff.mp h₂
  exact pinned_copyTo hne (hasBuf_bread keeps_dirty h₂ (hasBuf_bread keeps_dirty h₁ h))

theorem pinned_writeHeadBlock {p : P} {start : ℕ} (hs : writeHeadBlock p start bc = some bc')
    (hne : c ≠ start) (h : Pinned c bc) : Pinned c bc' := by
  obtain ⟨bc₁, h₁, rfl⟩ := Option.map_eq_some_iff.mp hs
  exact hasBuf_brelse (fun _ h => h)
    (hasBuf_bwrite (fun _ he => absurd he hne) (hasBuf_bread keeps_dirty h₁ h))

/-- Another process's copy does not drop our reference. -/
theorem holds_copyTo {p q : P} {src dst : ℕ} (hpq : q ≠ p) (h : Holds q c bc) :
    Holds q c (copyTo p src dst bc) := by
  have herase : ∀ x : Buf P, q ∈ x.refs → q ∈ x.refs.erase p :=
    fun x hx => (List.mem_erase_of_ne hpq).mpr hx
  exact hasBuf_brelse herase (hasBuf_brelse herase (hasBuf_bwrite (fun _ _ h => h) h))

theorem holds_writeLogBlock {p q : P} {lb src : ℕ} (hpq : q ≠ p)
    (hs : writeLogBlock p lb src bc = some bc') (h : Holds q c bc) : Holds q c bc' := by
  obtain ⟨bc₂, h₂, rfl⟩ := Option.map_eq_some_iff.mp hs
  obtain ⟨bc₁, h₁, h₂⟩ := Option.bind_eq_some_iff.mp h₂
  exact holds_copyTo hpq (hasBuf_bread (keeps_ref q) h₂ (hasBuf_bread (keeps_ref q) h₁ h))

theorem holds_installBlock {p q : P} {lb dst : ℕ} (hpq : q ≠ p)
    (hs : installBlock p lb dst bc = some bc') (h : Holds q c bc) : Holds q c bc' := by
  obtain ⟨bc₂, h₂, rfl⟩ := Option.map_eq_some_iff.mp hs
  obtain ⟨bc₁, h₁, h₂⟩ := Option.bind_eq_some_iff.mp h₂
  exact holds_copyTo hpq (hasBuf_bread (keeps_ref q) h₂ (hasBuf_bread (keeps_ref q) h₁ h))

theorem holds_writeHeadBlock {p q : P} {start : ℕ} (hpq : q ≠ p)
    (hs : writeHeadBlock p start bc = some bc') (h : Holds q c bc) : Holds q c bc' := by
  obtain ⟨bc₁, h₁, rfl⟩ := Option.map_eq_some_iff.mp hs
  exact hasBuf_brelse (fun x hx => (List.mem_erase_of_ne hpq).mpr hx)
    (hasBuf_bwrite (fun _ _ h => h) (hasBuf_bread (keeps_ref q) h₁ h))

/-! ### The number of buffers -/

theorem length_hit {p : P} {b : ℕ} : ∀ {bc bc' : List (Buf P)}, hit p b bc = some bc' →
    bc'.length = bc.length
  | [], _, h => by simp [hit] at h
  | y :: ys, bc', h => by
    rw [hit] at h
    split_ifs at h with hb
    · obtain rfl := Option.some.inj h
      rfl
    · obtain ⟨ys', hys, rfl⟩ := Option.map_eq_some_iff.mp h
      simp [length_hit hys]

theorem length_recycle {p : P} {b : ℕ} : ∀ {bc bc' : List (Buf P)}, recycle p b bc = some bc' →
    bc'.length = bc.length
  | [], _, h => by simp [recycle] at h
  | y :: ys, bc', h => by
    rw [recycle] at h
    split at h
    · rename_i ys' hys
      obtain rfl := Option.some.inj h
      simp [length_recycle hys]
    · split_ifs at h
      obtain rfl := Option.some.inj h
      rfl

theorem length_bread {p : P} {b : ℕ} {bc bc' : List (Buf P)} (h : bread p b bc = some bc') :
    bc'.length = bc.length := by
  rw [bread, bget] at h
  split at h
  · rename_i hh
    obtain rfl := Option.some.inj h
    exact length_hit hh
  · exact length_recycle h

theorem length_onBlock (b : ℕ) (f : Buf P → Buf P) (bc : List (Buf P)) :
    (onBlock b f bc).length = bc.length := List.length_map _

theorem length_brelse (p : P) (b : ℕ) (bc : List (Buf P)) : (brelse p b bc).length = bc.length := by
  rw [brelse, List.length_append, ← List.length_eq_length_filter_add, length_onBlock]

theorem length_copyTo (p : P) (src dst : ℕ) (bc : List (Buf P)) :
    (copyTo p src dst bc).length = bc.length := by
  rw [copyTo, length_brelse, length_brelse, bwrite, length_onBlock]

theorem length_writeLogBlock {p : P} {lb src : ℕ} {bc bc' : List (Buf P)}
    (h : writeLogBlock p lb src bc = some bc') : bc'.length = bc.length := by
  obtain ⟨bc₂, h₂, rfl⟩ := Option.map_eq_some_iff.mp h
  obtain ⟨bc₁, h₁, h₂⟩ := Option.bind_eq_some_iff.mp h₂
  rw [length_copyTo, length_bread h₂, length_bread h₁]

theorem length_installBlock {p : P} {lb dst : ℕ} {bc bc' : List (Buf P)}
    (h : installBlock p lb dst bc = some bc') : bc'.length = bc.length := by
  obtain ⟨bc₂, h₂, rfl⟩ := Option.map_eq_some_iff.mp h
  obtain ⟨bc₁, h₁, h₂⟩ := Option.bind_eq_some_iff.mp h₂
  rw [length_copyTo, length_bread h₂, length_bread h₁]

theorem length_writeHeadBlock {p : P} {start : ℕ} {bc bc' : List (Buf P)}
    (h : writeHeadBlock p start bc = some bc') : bc'.length = bc.length := by
  obtain ⟨bc₁, h₁, rfl⟩ := Option.map_eq_some_iff.mp h
  rw [length_brelse, bwrite, length_onBlock, length_bread h₁]

/-- If distinct pinned blocks take every buffer, there is none for another block. -/
theorem bread_crowded {p : P} {b : ℕ} {bc : List (Buf P)} {l : List ℕ} (hnd : l.Nodup)
    (hpin : ∀ c ∈ l, Pinned c bc) (hle : bc.length ≤ l.length) (hb : b ∉ l) :
    bread p b bc = none := by
  have hsub : l.Subperm ((bc.filter (·.dirty)).map (·.blockno)) := by
    refine hnd.subperm fun c hc => ?_
    obtain ⟨x, hx, rfl, hd⟩ := hpin c hc
    exact List.mem_map.mpr ⟨x, List.mem_filter.mpr ⟨hx, hd⟩, rfl⟩
  have hlen := hsub.length_le
  rw [List.length_map] at hlen
  have hall : bc.filter (·.dirty) = bc :=
    List.filter_sublist.eq_of_length (le_antisymm (List.length_filter_le ..) (by omega))
  rw [hall] at hsub
  have hperm := hsub.perm_of_length_le (by rw [List.length_map]; omega)
  have hno : ∀ x ∈ bc, x.dirty = true ∧ x.blockno ≠ b := fun x hx =>
    ⟨(List.mem_filter.mp (hall ▸ hx)).2, fun he =>
      hb (hperm.mem_iff.mpr (List.mem_map.mpr ⟨x, hx, he⟩))⟩
  have hhit : ∀ ys : List (Buf P), (∀ x ∈ ys, x.blockno ≠ b) → hit p b ys = none := by
    intro ys
    induction ys with
    | nil => intro _; rfl
    | cons y ys ih =>
      intro h
      rw [hit, if_neg (h y (List.mem_cons_self ..)), ih fun x hx => h x (List.mem_cons_of_mem _ hx)]
      rfl
  have hrec : ∀ ys : List (Buf P), (∀ x ∈ ys, x.dirty = true) → recycle p b ys = none := by
    intro ys
    induction ys with
    | nil => intro _; rfl
    | cons y ys ih =>
      intro h
      rw [recycle, ih fun x hx => h x (List.mem_cons_of_mem _ hx)]
      simp [h y (List.mem_cons_self ..)]
  rw [bread, bget, hhit bc fun x hx => (hno x hx).2]
  exact hrec bc fun x hx => (hno x hx).1

end Xv6.Log
