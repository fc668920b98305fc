import Xv6.Fs.Logged

/-! @src fs.c | name:The block allocator | layer:proof

    `balloc` goes through the bitmap blocks, and in each through the bits. It takes the first free
    block. -/

namespace Xv6.Fs
open Xv6.Disk Xv6.Schemes

/-- What is found first among the numbers below `n`. -/
theorem find_range_eq_some {n i : ℕ} {P : ℕ → Prop} [DecidablePred P] :
    (List.range n).find? (fun j => decide (P j)) = some i ↔ (i < n ∧ P i) ∧ ∀ j < i, ¬ P j := by
  rw [List.find?_range_eq_some]
  simp only [decide_eq_true_eq, List.mem_range, Bool.not_eq_true', decide_eq_false_iff_not]
  exact ⟨fun ⟨h1, h2, h3⟩ => ⟨⟨h2, h1⟩, h3⟩, fun ⟨⟨h2, h1⟩, h3⟩ => ⟨h1, h2, h3⟩⟩

theorem find_range_eq_none {n : ℕ} {P : ℕ → Prop} [DecidablePred P] :
    (List.range n).find? (fun j => decide (P j)) = none ↔ ∀ j < n, ¬ P j := by
  rw [List.find?_range_eq_none]
  simp only [Bool.not_eq_true', decide_eq_false_iff_not]

theorem freeBit_eq_some {size b bi : ℕ} {data : Block} : freeBit size b data = some bi ↔
    (bi < BPB ∧ b + bi < size ∧ getBit data bi = false) ∧
      ∀ j < bi, ¬ (b + j < size ∧ getBit data j = false) := by
  unfold freeBit
  exact find_range_eq_some

theorem freeBit_eq_none {size b : ℕ} {data : Block} (h : freeBit size b data = none) {bi : ℕ}
    (hbi : bi < BPB) (hb : b + bi < size) : getBit data bi = true := by
  unfold freeBit at h
  by_contra hf
  exact find_range_eq_none.mp h bi hbi ⟨hb, Bool.eq_false_iff.mpr hf⟩

/-- The bitmap block of the block with bit `bi` in the `k`-th one. -/
theorem bblock_add (sb : Superblock) (k : ℕ) {bi : ℕ} (h : bi < BPB) :
    sb.BBLOCK (k * BPB + bi) = sb.BBLOCK (k * BPB) := by
  rw [Superblock.BBLOCK, Superblock.BBLOCK]
  change bi < 4096 at h
  change (k * 4096 + bi) / 4096 + _ = k * 4096 / 4096 + _
  omega

theorem mod_add (k : ℕ) {bi : ℕ} (h : bi < BPB) : (k * BPB + bi) % BPB = bi := by
  rw [Nat.add_comm, Nat.add_mul_mod_self_right, Nat.mod_eq_of_lt h]

section

variable {τ α : Type} [DecidableEq τ] {p : τ} {x : Option (List UInt8)} {E : End → Prop}
  {s t : Sys τ} {l : Loc} {n k b : ℕ} {R : α → Sys τ → Prop}

theorem Logs.bzero {f : Unit → Code α} {a : α} {L : Finset ℕ} (hn : n < s.disksize)
    (hb : s.buf n = none) (ho : 1 ≤ s.outstanding)
    (h : Logs p x (f ()) (s.setBlk n Block.zero) a t L) :
    Logs p x (Fs.bzero n >>= f) s a t (insert n L) := by
  rw [Fs.bzero]
  simp only [Prog.bind_assoc]
  refine .bread (l := .block n) hn hb (.logged ho (.brelse (setBuf_self ..) ?_))
  have he : ((s.setBuf n (some p)).setBlk n Block.zero).setBuf n none =
      s.setBlk n Block.zero :=
    setBuf_setBuf (s := s.setBlk n Block.zero) hb _
  exact he ▸ h

/-- What the allocator needs of the disk and of the buffers. -/
structure Readable (s : Sys τ) : Prop where
  disk : ∀ b < s.sb.size.toNat, s.sb.BBLOCK b < s.disksize
  buf : ∀ b < s.sb.size.toNat, s.buf (s.sb.BBLOCK b) = none
  trans : 1 ≤ s.outstanding

/-- The loop stops at the first free block. -/
theorem ballocLoop_logs (h : Readable s) (hb : s.vol.Free b) (hd : b < s.disksize)
    (hbuf : s.buf b = none) (hk : k * BPB ≤ b) (hn : b < (k + n) * BPB)
    (hleast : ∀ b', k * BPB ≤ b' → b' < b → ¬ s.vol.Free b') :
    Logs p x (ballocLoop s.sb.size.toNat n k) s (UInt32.ofNat b)
      (s.withBlk (s.vol.took b).blk) {s.sb.BBLOCK b, b} := by
  induction n generalizing k with
  | zero =>
    rw [Nat.add_zero] at hn
    exact absurd hn (not_lt.mpr hk)
  | succ n ih =>
    have hkb : k * BPB < s.sb.size.toNat := hk.trans_lt hb.1
    rw [ballocLoop]
    refine .bread (h.disk _ hkb) (h.buf _ hkb) ?_
    dsimp only [Loc.at]
    cases hf : freeBit s.sb.size.toNat (k * BPB) (s.blk (s.sb.BBLOCK (k * BPB))) with
    | some bi =>
      obtain ⟨⟨hbi, hsize, hbit⟩, hbefore⟩ := freeBit_eq_some.mp hf
      -- It is the least free block.
      have hfree : s.vol.Free (k * BPB + bi) := by
        refine ⟨hsize, ?_⟩
        rw [vol_sb, bblock_add _ _ hbi, mod_add _ hbi]
        exact hbit
      have hbe : k * BPB + bi = b := by
        rcases Nat.lt_trichotomy (k * BPB + bi) b with hlt | he | hgt
        · exact absurd hfree (hleast _ (Nat.le_add_right _ _) hlt)
        · exact he
        · have hlt : b - k * BPB < BPB := by omega
          have hbk : k * BPB + (b - k * BPB) = b := Nat.add_sub_cancel' hk
          refine absurd ⟨hbk.symm ▸ hb.1, ?_⟩ (hbefore (b - k * BPB) (by omega))
          have hb2 := hb.2
          rw [← hbk, vol_sb, bblock_add _ _ hlt, mod_add _ hlt] at hb2
          exact hb2
      have hblk : s.sb.BBLOCK (k * BPB) = s.sb.BBLOCK b := by rw [← hbe, bblock_add _ _ hbi]
      have hmod : bi = b % BPB := by rw [← hbe, mod_add _ hbi]
      dsimp only
      rw [hbe, hblk]
      refine .logged h.trans (.brelse (setBuf_self ..) ?_)
      have he := setBuf_setBuf (s := s.setBlk (s.sb.BBLOCK b) (setBit (s.blk (s.sb.BBLOCK b)) bi))
        (h.buf _ hb.1) (some p)
      change Logs _ _ _ (((s.setBlk _ _).setBuf _ (some p)).setBuf _ none) _ _ _
      rw [he, hmod]
      have hz := Logs.bzero (p := p) (x := x) (f := fun _ => pure (UInt32.ofNat b))
        (s := s.setBlk (s.sb.BBLOCK b) (setBit (s.blk (s.sb.BBLOCK b)) (b % BPB))) hd hbuf h.trans
        (.pure _ _)
      rw [insert_empty_eq] at hz
      exact hz
    | none =>
      dsimp only
      refine .brelse (setBuf_self ..) ?_
      rw [setBuf_setBuf (h.buf _ hkb)]
      have hall : ∀ b', k * BPB ≤ b' → b' < (k + 1) * BPB → ¬ s.vol.Free b' := by
        intro b' hle hlt hfree
        have hbi : b' - k * BPB < BPB := by
          rw [Nat.add_mul, Nat.one_mul] at hlt
          exact (Nat.sub_lt_iff_lt_add' hle).mpr hlt
        have hbk : k * BPB + (b' - k * BPB) = b' := Nat.add_sub_cancel' hle
        have htrue := freeBit_eq_none hf hbi (hbk.symm ▸ hfree.1)
        have h2 := hfree.2
        rw [← hbk, vol_sb, bblock_add _ _ hbi, mod_add _ hbi] at h2
        exact absurd (h2.symm.trans htrue) (by decide)
      have hkn : k + 1 + n = k + (n + 1) := by omega
      have hk1 : k * BPB ≤ (k + 1) * BPB := Nat.mul_le_mul_right BPB (Nat.le_succ k)
      refine ih ?_ (hkn.symm ▸ hn) fun b' hle hlt => hleast b' (hk1.trans hle) hlt
      by_contra hgt
      exact hall b hk (not_le.mp hgt) hb

/-- Without a free block the loop ends in the panic. -/
theorem ballocLoop_none (h : Readable s) (hnone : ∀ b, ¬ s.vol.Free b)
    (hn : (k + n) * BPB < s.sb.size.toNat + BPB) (hE : E (.panic "balloc: out of blocks"))
    {Q : UInt32 → Sys τ → Prop} :
    Wp (Sys.act p x) E (ballocLoop s.sb.size.toNat n k) s Q := by
  induction n generalizing k with
  | zero => exact hE
  | succ n ih =>
    have hkb : k * BPB < s.sb.size.toNat := by
      have hle : (k + 1) * BPB ≤ (k + (n + 1)) * BPB := Nat.mul_le_mul_right BPB (by omega)
      rw [Nat.add_mul, Nat.one_mul] at hle
      exact Nat.lt_of_add_lt_add_right (hle.trans_lt hn)
    rw [ballocLoop]
    refine wp_bread (h.disk _ hkb) (h.buf _ hkb) ?_
    dsimp only [Loc.at]
    cases hf : freeBit s.sb.size.toNat (k * BPB) (s.blk (s.sb.BBLOCK (k * BPB))) with
    | some bi =>
      obtain ⟨⟨hbi, hsize, hbit⟩, -⟩ := freeBit_eq_some.mp hf
      refine absurd ⟨hsize, ?_⟩ (hnone (k * BPB + bi))
      rw [vol_sb, bblock_add _ _ hbi, mod_add _ hbi]
      exact hbit
    | none =>
      dsimp only
      refine wp_brelse (setBuf_self ..) ?_
      rw [setBuf_setBuf (h.buf _ hkb)]
      have hkn : k + 1 + n = k + (n + 1) := by omega
      exact ih (hkn.symm ▸ hn)

/-- The first free block is allocated; it and its bitmap block are logged. -/
theorem balloc_logs (h : Readable s) (hb : s.vol.Free b) (hd : b < s.disksize)
    (hbuf : s.buf b = none) (hleast : ∀ b' < b, ¬ s.vol.Free b') :
    Logs p x balloc s (UInt32.ofNat b) (s.withBlk (s.vol.took b).blk) {s.sb.BBLOCK b, b} := by
  refine .op rfl (fun _ => rfl)
    (ballocLoop_logs h hb hd hbuf (by simp) ?_ fun b' _ => hleast b')
  have hlt : b < s.sb.size.toNat := hb.1
  have hB : BPB = 4096 := rfl
  rw [hB]
  omega

theorem balloc_spec (h : Readable s) (hb : s.vol.Free b) (hd : b < s.disksize)
    (hbuf : s.buf b = none) (hleast : ∀ b' < b, ¬ s.vol.Free b') :
    Wp (Sys.act p x) E balloc s
      fun a t => a = UInt32.ofNat b ∧ t = s.withBlk (s.vol.took b).blk :=
  Wp.of_run (balloc_logs h hb hd hbuf hleast).run ⟨rfl, rfl⟩

theorem balloc_none (h : Readable s) (hnone : ∀ b, ¬ s.vol.Free b)
    (hE : E (.panic "balloc: out of blocks")) {Q : UInt32 → Sys τ → Prop} :
    Wp (Sys.act p x) E balloc s Q := by
  refine Wp.perform_bind rfl (ballocLoop_none h hnone ?_ hE)
  have hB : BPB = 4096 := rfl
  rw [hB]
  omega

end

end Xv6.Fs
