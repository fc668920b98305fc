import Xv6.Memory.Load
import Xv6.Schemes.Run

/-! @src proc.c vm.c exec.c syscall.c | name:Dense address spaces | layer:proof

    Every operation on user memory keeps the address spaces dense, as long as no `growproc` gives
    the whole memory back or more. The panics of `copyuvm` cannot happen then, and an argument that
    `argptr` accepts can be read and written. -/

namespace Xv6.Memory
open Xv6.Schemes
open Xv6.Schemes.X86 (Word)
open Xv6.Process (Slot)

/-! ### System call arguments -/

section Arguments

variable {m : Phys} {p : Proc}

/-- A byte below the size is on a page that is present and writable. -/
theorem accessible (hd : Dense p) {a : ℕ} (ha : a < p.sz.toNat) :
    ∃ e, p.pgdir.get (a / PGSIZE) = some e ∧ e.w = true := by
  have hlim : a / PGSIZE * PGSIZE < p.sz.toNat := (Nat.div_mul_le_self a PGSIZE).trans_lt ha
  have hu := lt_UPAGES (BitVec.le_of_lt hd.small) hlim
  obtain ⟨e, he⟩ := Option.isSome_iff_exists.mp ((hd.full _ hu).mpr hlim)
  exact ⟨e, he, hd.writable _ hu e he⟩

theorem load_some (hd : Dense p) {a : Word} (ha : a.toNat < p.sz.toNat) :
    ∃ b, load m p.pgdir a = some b := by
  obtain ⟨e, he, -⟩ := accessible hd ha
  exact ⟨m.page e.frame (a.toNat % PGSIZE), by simp [load, he]⟩

/-- `argint` reads below the size only. -/
theorem argint_some (hd : Dense p) (esp n : Word) : ∃ r, argint m p esp n = some r := by
  unfold argint fetchint
  split
  · exact ⟨none, rfl⟩
  · rename_i h
    obtain ⟨h₁, h₂⟩ := not_or.mp h
    have hk : p.sz.toNat < 0x80000000 := hd.small
    have h₁' : (esp + 4 + 4 * n).toNat < p.sz.toNat := BitVec.not_le.mp h₁
    have h₂' : (esp + 4 + 4 * n + 4).toNat ≤ p.sz.toNat := BitVec.not_lt.mp h₂
    generalize esp + 4 + 4 * n = a at *
    obtain ⟨b₀, hb₀⟩ := load_some (m := m) hd h₁'
    obtain ⟨b₁, hb₁⟩ := load_some (m := m) hd (a := a + 1) (by bv_omega)
    obtain ⟨b₂, hb₂⟩ := load_some (m := m) hd (a := a + 2) (by bv_omega)
    obtain ⟨b₃, hb₃⟩ := load_some (m := m) hd (a := a + 3) (by bv_omega)
    exact ⟨some (b₃ ++ b₂ ++ b₁ ++ b₀), by simp only [loadWord, hb₀, hb₁, hb₂, hb₃]; rfl⟩

/-- `argptr` does not fault, and what it accepts can be read and written. -/
def ArgsSafe (m : Phys) (p : Proc) : Prop :=
  ∀ esp n size, ∃ r, argptr m p esp n size = some r ∧
    ∀ i, r = some i → ∀ k, k < size.toNat →
      ∃ e, p.pgdir.get ((i.toNat + k) / PGSIZE) = some e ∧ e.w = true

theorem argsSafe (hd : Dense p) : ArgsSafe m p := by
  intro esp n size
  obtain ⟨r, hr⟩ := argint_some (m := m) hd esp n
  unfold argptr
  rw [hr]
  cases r with
  | none => exact ⟨none, rfl, fun i hi => absurd hi (by simp)⟩
  | some i =>
    dsimp only
    split
    · exact ⟨none, rfl, fun i hi => absurd hi (by simp)⟩
    · rename_i h
      refine ⟨some i, rfl, fun j hj k hk => ?_⟩
      obtain rfl := Option.some.inj hj
      obtain ⟨hs, h'⟩ := not_or.mp h
      obtain ⟨h₁, h₂⟩ := not_or.mp h'
      refine accessible hd ?_
      have hsz : p.sz.toNat < 0x80000000 := hd.small
      have h₁' : i.toNat < p.sz.toNat := BitVec.not_le.mp h₁
      have h₂' : (i + size).toNat ≤ p.sz.toNat := BitVec.not_lt.mp h₂
      have hsize := BitVec.toInt_eq_toNat_cond size
      have hadd := BitVec.toNat_add i size
      split at hsize <;> omega

end Arguments

/-! ### Runs -/

/-- The pages of the other processes. -/
def others (s : Sys) (p : Slot) : Set Frame :=
  {f | ∃ q r, q ≠ p ∧ s.proc q = some r ∧ f ∈ r.pgdir.frames}

/-- Every process has pages of its own, and a dense address space. -/
structure Inv (s : Sys) : Prop where
  running : s.panicked = false
  nodup : s.mem.freelist.Nodup
  held : ∀ p r, s.proc p = some r → Held s.mem r.pgdir (others s p)
  dense : ∀ p r, s.proc p = some r → Dense r

/-- What the claim of dense address spaces gives the rest of the kernel. -/
def Sound (s : Sys) : Prop :=
  s.panicked = false ∧ ∀ p r, s.proc p = some r → Dense r ∧ ArgsSafe s.mem r

/-- A call of `growproc` is all-or-nothing. -/
def Settles (s : Sys) (a : Act) : Prop :=
  ∀ p n, a = .growproc p n → ∀ r, s.proc p = some r → AllOrNothing s.mem r n

/-- The calls of `growproc` have sane increments. -/
def SaneCalls (s : Sys) (a : Act) : Prop :=
  ∀ p n, a = .growproc p n → ∀ r, s.proc p = some r → Sane r n

section Runs

variable {kmap : List Kmap} {s t : Sys} {m : Phys} {p : Slot}

theorem Inv.sound (h : Inv s) : Sound s :=
  ⟨h.running, fun p r hr => ⟨h.dense p r hr, argsSafe (h.dense p r hr)⟩⟩

theorem clean_others (h : Inv s) (p : Slot) : Clean s.mem (others s p) where
  nodup := h.nodup
  elsewhere := by
    rintro f ⟨q, r, -, hr, i, hi⟩
    exact (h.held q r hr).owns.used i f hi

/-- Replacing the address space of one process next to the ones of the others. -/
theorem Inv.replace (h : Inv s) (x : Option Proc) (hc : Clean m (others s p))
    (hx : ∀ r, x = some r → Held m r.pgdir (others s p) ∧ Dense r) :
    Inv { s with mem := m, proc := Function.update s.proc p x } := by
  have hcases : ∀ q r, Function.update s.proc p x q = some r →
      (q = p ∧ x = some r) ∨ (q ≠ p ∧ s.proc q = some r) := by
    intro q r hr
    rcases eq_or_ne q p with rfl | hne
    · exact Or.inl ⟨rfl, by rwa [Function.update_self] at hr⟩
    · exact Or.inr ⟨hne, by rwa [Function.update_of_ne hne] at hr⟩
  have hmem : ∀ q r f, q ≠ p → s.proc q = some r → f ∈ r.pgdir.frames → f ∈ others s p :=
    fun q r f hq hr hf => ⟨q, r, hq, hr, hf⟩
  refine ⟨h.running, hc.nodup, fun q r hr => ?_, fun q r hr => ?_⟩
  · rcases hcases q r hr with ⟨rfl, rfl⟩ | ⟨hne, hr'⟩
    · refine (hx r rfl).1.mono ?_
      rintro f ⟨z, r', hz, hr', hf⟩
      exact hmem z r' f hz (by simpa [hz] using hr') hf
    · have hheld := h.held q r hr'
      refine ⟨hc.nodup, ⟨hheld.owns.inj, ?_, ?_, ?_⟩, hheld.kernel⟩
      · exact fun i f hi => hc.elsewhere f (hmem q r f hne hr' ⟨i, hi⟩)
      · rintro i f hi ⟨z, r', hz, hr'', hf⟩
        rcases hcases z r' hr'' with ⟨rfl, rfl⟩ | ⟨-, hz'⟩
        · obtain ⟨j, hj⟩ := hf
          exact (hx r' rfl).1.owns.apart j f hj (hmem q r f hne hr' ⟨i, hi⟩)
        · exact hheld.owns.apart i f hi ⟨z, r', hz, hz', hf⟩
      · rintro f ⟨z, r', hz, hr'', hf⟩
        rcases hcases z r' hr'' with ⟨rfl, rfl⟩ | ⟨hzp, hz'⟩
        · obtain ⟨j, hj⟩ := hf
          exact (hx r' rfl).1.owns.used j f hj
        · exact hc.elsewhere f (hmem z r' f hzp hz' hf)
  · rcases hcases q r hr with ⟨-, rfl⟩ | ⟨-, hr'⟩
    · exact (hx r rfl).2
    · exact h.dense q r hr'

theorem Inv.put (h : Inv s) {r : Proc} (hr : Held m r.pgdir (others s p)) (hd : Dense r) :
    Inv { s with mem := m, proc := Function.update s.proc p (some r) } :=
  h.replace (some r) hr.clean fun r' hr' => by
    obtain rfl := Option.some.inj hr'
    exact ⟨hr, hd⟩

/-- Changing contents, or pages that no process has. -/
theorem Inv.spares (h : Inv s) (hnd : m.freelist.Nodup)
    (hused : ∀ p r, s.proc p = some r → ∀ f ∈ r.pgdir.frames, f ∉ m.freelist) :
    Inv { s with mem := m } where
  running := h.running
  nodup := hnd
  held := fun p r hr => by
    have hheld := h.held p r hr
    refine ⟨hnd, ⟨hheld.owns.inj, ?_, hheld.owns.apart, ?_⟩, hheld.kernel⟩
    · exact fun i f hi => hused p r hr f ⟨i, hi⟩
    · rintro f ⟨q, r', -, hr', hf⟩
      exact hused q r' hr' f hf
  dense := h.dense

theorem Proper.dense {O : Set Frame} {r : Proc} {n : Word} (hd : Dense r)
    (h : Proper O m r n) : ∃ ret m' r', growproc m r n = some (ret, m', r') ∧
      Held m' r'.pgdir O ∧ Dense r' := by
  obtain ⟨ret, m', r', hg, hheld, -, hw, hr⟩ := h
  refine ⟨ret, m', r', hg, hheld, ?_⟩
  rcases hr with ⟨-, hgr⟩ | ⟨-, hun⟩
  · exact ⟨hgr.small, hgr.full, hw⟩
  · refine ⟨hun.size ▸ hd.small, fun v hv => ?_, hw⟩
    rw [hun.same v hv, hun.size]
    exact hd.full v hv

/-- Every step keeps the invariant, a call of `growproc` if its increment is sane. -/
theorem inv_step {a : Act} (hk : KmapOk kmap) (h : Inv s) (hC : SaneCalls s a)
    (hst : s.Step kmap a t) : Inv t := by
  rcases hst with hst | ⟨m, rfl, hsp, rfl⟩
  · replace hst := (Option.ite_none_left_eq_some.mp hst).2
    cases a with
    | growproc p n =>
      obtain ⟨r, hr, ht⟩ := Option.map_eq_some_iff.mp hst
      obtain ⟨ret, m', r', hg, hheld, hd⟩ :=
        (growproc_proper (h.held p r hr) (h.dense p r hr) (hC p n rfl r hr)).dense (h.dense p r hr)
      rw [hg] at ht
      exact ht ▸ h.put hheld hd
    | fork p np =>
      obtain ⟨r, hr, ht⟩ := Option.bind_eq_some_iff.mp hst
      cases hnp : s.proc np with
      | some _ => simp [hnp] at ht
      | none =>
        rw [hnp] at ht
        obtain rfl := Option.some.inj ht
        have hne : p ≠ np := by
          rintro rfl
          exact absurd (hr.symm.trans hnp) (by simp)
        obtain ⟨x, m', hcopy, hb⟩ := copyuvm_spec hk (clean_others h np) (h.dense p r hr)
          (fun v e hv he => ⟨p, r, hne, hr, .page v, ((h.held p r hr).page hv he).1⟩)
        rw [hcopy]
        cases x with
        | none =>
          have := h.replace none hb.1 (fun r' hr' => absurd hr' (by simp))
          rwa [← hnp, Function.update_eq_self] at this
        | some d => exact h.put hb.1 hb.2.2
    | exec p elf argv =>
      obtain ⟨r, hr, ht⟩ := Option.bind_eq_some_iff.mp hst
      obtain ⟨⟨b, m', r'⟩, he, rfl⟩ := Option.map_eq_some_iff.mp ht
      obtain ⟨hheld, hd⟩ := exec_spec hk (h.held p r hr) (h.dense p r hr) he
      exact h.put hheld hd
    | wait p =>
      obtain ⟨r, hr, rfl⟩ := Option.map_eq_some_iff.mp hst
      exact h.replace none (freevm_spec (h.held p r hr)).1 fun r' hr' => absurd hr' (by simp)
    | store p a b =>
      obtain ⟨r, hr, ht⟩ := Option.bind_eq_some_iff.mp hst
      split at ht
      · obtain ⟨-, ht⟩ := Option.ite_none_right_eq_some.mp ht
        obtain rfl := Option.some.inj ht
        exact h.spares h.nodup fun q r' hr' f ⟨i, hi⟩ => (h.held q r' hr').owns.used i f hi
      · exact absurd ht (by simp)
    | other m => exact absurd hst (by simp [Sys.call])
  · exact h.spares hsp.nodup hsp.used

/-- The first process has a dense address space of its own. -/
theorem inv_userinit {code : List Byte} (hk : KmapOk kmap) (hm : m.freelist.Nodup)
    (hboot : Sys.userinit kmap m code = some s) :
    Inv s ∧ ∃ r, s.proc 0 = some r ∧ r.sz = BitVec.ofNat 32 PGSIZE := by
  obtain ⟨x, m₁, hs, hb⟩ := setupkvm_spec (O := ∅) hk ⟨hm, fun f hf => absurd hf (by simp)⟩
  unfold Sys.userinit at hboot
  rw [hs] at hboot
  cases x with
  | none => exact absurd hboot (by simp)
  | some d =>
    obtain ⟨hheld, -, hempty⟩ := hb
    cases hka : kalloc m₁ with
    | none => simp [hka] at hboot
    | some y =>
      obtain ⟨mem, m₂⟩ := y
      obtain ⟨h₂, hf, -⟩ := kalloc_scratch (V := ∅) (m₂.memset mem 0) hheld hka rfl
        fun g hg => memset_page hg
      rcases mappages_user (w := true) (u := true) h₂ hf (by decide : 0 < UPAGES)
        (hempty 0 (by decide)) with hmap | ⟨m₃, d₃, hmap, h₃, hev, hget, -⟩
      · simp only [hka, hmap] at hboot
        exact absurd hboot (by simp)
      · simp only [hka, hmap] at hboot
        obtain rfl := Option.some.inj hboot
        have hone : ∀ q r, Function.update (fun _ => none) (0 : Slot)
            (some (⟨d₃, BitVec.ofNat 32 PGSIZE⟩ : Proc)) q = some r →
            q = 0 ∧ (⟨d₃, BitVec.ofNat 32 PGSIZE⟩ : Proc) = r := by
          intro q r hr
          rcases eq_or_ne q 0 with rfl | hne
          · exact ⟨rfl, by simpa using hr⟩
          · simp [hne] at hr
        have hother : ∀ v, v < UPAGES → v ≠ 0 → d₃.get v = none :=
          fun v hv hne => (hev.same v hne).trans (hempty v hv)
        refine ⟨⟨rfl, h₃.nodup, fun q r hr => ?_, fun q r hr => ?_⟩,
          ⟨d₃, BitVec.ofNat 32 PGSIZE⟩, by simp, rfl⟩
        · obtain ⟨rfl, rfl⟩ := hone q r hr
          refine (⟨h₃.nodup, h₃.owns, h₃.kernel⟩ : Held (m₃.write mem 0 code) d₃ ∅).mono ?_
          rintro f ⟨z, r', hz, hr', -⟩
          exact absurd (hone z r' hr').1 hz
        · obtain ⟨rfl, rfl⟩ := hone q r hr
          exact .of_first hget rfl hother

/-- A call of `growproc` is all-or-nothing iff its increment is sane. -/
theorem settles_iff (a : Act) (h : Inv s) : Settles s a ↔ SaneCalls s a := by
  constructor
  · exact fun hs p n ha r hr =>
      (allOrNothing_iff (h.held p r hr) (h.dense p r hr)).mp (hs p n ha r hr)
  · exact fun hC p n ha r hr =>
      (allOrNothing_iff (h.held p r hr) (h.dense p r hr)).mpr (hC p n ha r hr)

end Runs

/-- The first kernel mapping, of the I/O space. -/
def ioSpace : List Kmap := [⟨0x80000, 0x100, 0, true⟩]

theorem ioSpace_ok : KmapOk ioSpace := ⟨by decide, List.pairwise_singleton ..⟩

/-- Sixteen free pages. -/
def sixteen : Phys := ⟨List.range' 0x100 16, fun _ _ => 0⟩

instance (s : Sys) : (a : Act) → Decidable (SaneCalls s a)
  | .growproc p n =>
    match h : s.proc p with
    | none => isTrue fun q k ha r hr => by
        cases ha
        exact absurd (h.symm.trans hr) (by simp)
    | some r => decidable_of_iff (Sane r n) ⟨fun hs q k ha r' hr => by
        cases ha
        exact Option.some.inj (h.symm.trans hr) ▸ hs, fun hC => hC p n rfl r h⟩
  | .fork .. | .exec .. | .wait .. | .store .. | .other .. => isTrue fun _ _ ha => by cases ha

/-- The first process grows, makes a child, shrinks and waits for the child. -/
def growAndShrink : List Act :=
  [.growproc 0 0x2000, .fork 0 1, .growproc 1 0x7000, .growproc 0 (-0x1800), .store 0 0x1234 7,
    .wait 1]

end Xv6.Memory
