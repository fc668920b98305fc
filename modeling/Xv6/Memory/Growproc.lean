import Xv6.Memory.Held

/-! @src vm.c proc.c | name:growproc | layer:proof

    What `allocuvm` and `deallocuvm` do to an address space whose pages are the ones below its
    size, and from it when `growproc` is all-or-nothing. -/

namespace Xv6.Memory
open Xv6.Schemes.X86 (Word)

/-- The pages from `v` on that begin below `sz`. -/
def pagesFrom (v : ℕ) (sz : Word) : Set ℕ := {x | v ≤ x ∧ x * PGSIZE < sz.toNat}

theorem pagesFrom_mono {v v' : ℕ} {sz : Word} (h : v ≤ v') : pagesFrom v' sz ⊆ pagesFrom v sz :=
  fun _ hx => ⟨h.trans hx.1, hx.2⟩

theorem lt_UPAGES {x : ℕ} {sz : Word} (hsz : sz ≤ KERNBASE) (hx : x * PGSIZE < sz.toNat) :
    x < UPAGES := by
  have hle : sz.toNat ≤ UPAGES * PGSIZE := KERNBASE_eq ▸ hsz
  exact Nat.lt_of_mul_lt_mul_right (hx.trans_le hle)

section Loops

variable {m : Phys} {d : Pgdir} {O : Set Frame}

/-- `deallocuvm` clears the pages it goes over, skipping missing page tables. -/
theorem deallocLoop_spec {oldsz : Word} (hmax : oldsz ≤ KERNBASE) {fuel v : ℕ} (h : Held m d O)
    (hfuel : UPAGES ≤ v + fuel) :
    ∃ m₁ d₁, deallocLoop oldsz fuel v m d = (m₁, d₁) ∧ Held m₁ d₁ O ∧
      Evolves O (pagesFrom v oldsz) m d m₁ d₁ ∧ ∀ x ∈ pagesFrom v oldsz, d₁.get x = none := by
  induction fuel generalizing v m d with
  | zero =>
    refine ⟨m, d, rfl, h, .refl, ?_⟩
    rintro x ⟨hv, hx⟩
    have := lt_UPAGES hmax hx
    omega
  | succ fuel ih =>
    by_cases hv : v * PGSIZE < oldsz.toNat
    · cases hp : d.pde (PDX v) with
      | none =>
        have hlt : v < (PDX v + 1) * NPTENTRIES := Nat.lt_mul_of_div_lt (Nat.lt_succ_self _) (by decide)
        obtain ⟨m₁, d₁, hl, hheld, hev, hgone⟩ :=
          ih (v := (PDX v + 1) * NPTENTRIES) h (by omega)
        refine ⟨m₁, d₁, ?_, hheld, hev.mono (pagesFrom_mono hlt.le), ?_⟩
        · rw [deallocLoop, if_pos hv]
          simp [walkpgdir, hp, hl]
        · rintro x ⟨hx, hlim⟩
          by_cases hskip : (PDX v + 1) * NPTENTRIES ≤ x
          · exact hgone x ⟨hskip, hlim⟩
          · -- a page of the missing page table
            have hdx : PDX x = PDX v := by
              refine le_antisymm ?_ (Nat.div_le_div_right hx)
              exact Nat.lt_succ_iff.mp ((Nat.div_lt_iff_lt_mul (by decide)).mpr (not_le.mp hskip))
            rw [hev.same x fun hm => hskip hm.1]
            simp [Pgdir.get, hdx, hp]
      | some t =>
        have hstep : ∀ m₁ d₁, Held m₁ d₁ O → Evolves O {v} m d m₁ d₁ → d₁.get v = none →
            deallocLoop oldsz (fuel + 1) v m d = deallocLoop oldsz fuel (v + 1) m₁ d₁ →
            ∃ m₂ d₂, deallocLoop oldsz (fuel + 1) v m d = (m₂, d₂) ∧ Held m₂ d₂ O ∧
              Evolves O (pagesFrom v oldsz) m d m₂ d₂ ∧
              ∀ x ∈ pagesFrom v oldsz, d₂.get x = none := by
          intro m₁ d₁ h₁ hev₁ hnone hloop
          obtain ⟨m₂, d₂, hl, hheld, hev₂, hgone⟩ := ih (v := v + 1) h₁ (by omega)
          refine ⟨m₂, d₂, hloop.trans hl, hheld, (hev₁.trans hev₂).mono ?_, ?_⟩
          · rintro x (rfl | hx)
            · exact ⟨le_rfl, hv⟩
            · exact pagesFrom_mono (Nat.le_succ v) hx
          · rintro x ⟨hx, hlim⟩
            rcases hx.eq_or_lt with rfl | hlt
            · rw [hev₂.same v fun hm => absurd hm.1 (Nat.not_succ_le_self v)]
              exact hnone
            · exact hgone x ⟨hlt, hlim⟩
        cases he : d.get v with
        | none =>
          refine hstep m d h .refl he ?_
          rw [deallocLoop, if_pos hv]
          simp [walkpgdir, hp, he]
        | some e =>
          obtain ⟨hheld, hev⟩ := h.clear (lt_UPAGES hmax hv) he
          refine hstep _ _ hheld hev ?_ ?_
          · rw [get_set (by simp [hp]), if_pos rfl]
          · rw [deallocLoop, if_pos hv]
            simp [walkpgdir, hp, he]
    · refine ⟨m, d, by rw [deallocLoop, if_neg hv], h, .refl, ?_⟩
      rintro x ⟨hx, hlim⟩
      exact absurd ((Nat.mul_le_mul_right PGSIZE hx).trans_lt hlim) hv

/-- How far the loop of `allocuvm` gets; in the last case `mem` has been taken but not mapped. -/
def AllocDone (O : Set Frame) (V : Set ℕ) (m : Phys) (d : Pgdir) :
    AllocEnd → Phys → Pgdir → Prop
  | .through, m', d' => Held m' d' O ∧ Evolves O V m d m' d' ∧
      ∀ x ∈ V, ∃ f, d'.get x = some ⟨f, true, true⟩ ∧ m'.page f = fun _ => 0
  | .noPage, m', d' => Held m' d' O ∧ Evolves O V m d m' d'
  | .noTable mem, m', d' => mem ∉ O ∧ Held m' d' (insert mem O) ∧ Evolves O V m d m' d'

/-- `allocuvm` adds zeroed pages as long as it gets any. -/
theorem allocLoop_spec {newsz : Word} (hmax : newsz ≤ KERNBASE) {fuel v : ℕ} (h : Held m d O)
    (hfuel : UPAGES ≤ v + fuel) (hnone : ∀ x ∈ pagesFrom v newsz, d.get x = none) :
    ∃ r m₁ d₁, allocLoop newsz fuel v m d = some (r, m₁, d₁) ∧
      AllocDone O (pagesFrom v newsz) m d r m₁ d₁ := by
  induction fuel generalizing v m d with
  | zero =>
    refine ⟨.through, m, d, rfl, h, .refl, ?_⟩
    rintro x ⟨hv, hx⟩
    have := lt_UPAGES hmax hx
    omega
  | succ fuel ih =>
    by_cases hv : v * PGSIZE < newsz.toNat
    · cases hk : kalloc m with
      | none =>
        refine ⟨.noPage, m, d, ?_, h, .refl⟩
        rw [allocLoop, if_pos hv]
        simp [hk]
      | some y =>
        obtain ⟨mem, m₀⟩ := y
        obtain ⟨h₁, hf, hev₁⟩ := kalloc_scratch (V := ∅) (m₀.memset mem 0) h hk rfl
          fun g hg => memset_page hg
        rcases mappages_user (w := true) (u := true) h₁ hf (lt_UPAGES hmax hv)
          (hnone v ⟨le_rfl, hv⟩) with hmap | ⟨m₂, d₂, hmap, h₂, hev₂, hget, hzero⟩
        · refine ⟨.noTable mem, _, d, ?_, hf, h₁, hev₁.mono (Set.empty_subset _)⟩
          rw [allocLoop, if_pos hv]
          simp only [hk, hmap]
        · have hnone₂ : ∀ x ∈ pagesFrom (v + 1) newsz, d₂.get x = none := by
            intro x hx
            have hne : x ∉ ({v} : Set ℕ) := by
              rintro rfl
              exact absurd hx.1 (Nat.not_succ_le_self x)
            rw [hev₂.same x hne]
            exact hnone x (pagesFrom_mono (Nat.le_succ v) hx)
          obtain ⟨r, m₃, d₃, hl, hdone⟩ := ih (v := v + 1) h₂ (by omega) hnone₂
          have hsub : ∅ ∪ {v} ∪ pagesFrom (v + 1) newsz ⊆ pagesFrom v newsz := by
            rintro x ((hx | rfl) | hx)
            · exact absurd hx (Set.notMem_empty x)
            · exact ⟨le_rfl, hv⟩
            · exact pagesFrom_mono (Nat.le_succ v) hx
          refine ⟨r, m₃, d₃, ?_, ?_⟩
          · rw [allocLoop, if_pos hv]
            simp only [hk, hmap, hl]
          · cases r with
            | through =>
              obtain ⟨h₃, hev₃, hnew⟩ := hdone
              refine ⟨h₃, ((hev₁.trans hev₂).trans hev₃).mono hsub, ?_⟩
              rintro x ⟨hx, hlim⟩
              rcases hx.eq_or_lt with rfl | hlt
              · have hout : v ∉ pagesFrom (v + 1) newsz :=
                  fun hm => absurd hm.1 (Nat.not_succ_le_self v)
                refine ⟨mem, (hev₃.same v hout).trans hget, ?_⟩
                rw [hev₃.kept v hout (lt_UPAGES hmax hv) _ hget, hzero]
                simp [Phys.memset]
              · exact hnew x ⟨hlt, hlim⟩
            | noPage =>
              obtain ⟨h₃, hev₃⟩ := hdone
              exact ⟨h₃, ((hev₁.trans hev₂).trans hev₃).mono hsub⟩
            | noTable mem' =>
              obtain ⟨hf', h₃, hev₃⟩ := hdone
              exact ⟨hf', h₃, ((hev₁.trans hev₂).trans hev₃).mono hsub⟩
    · refine ⟨.through, m, d, by rw [allocLoop, if_neg hv], h, .refl, ?_⟩
      rintro x ⟨hx, hlim⟩
      exact absurd ((Nat.mul_le_mul_right PGSIZE hx).trans_lt hlim) hv

end Loops

/-! ### allocuvm and deallocuvm -/

theorem pageUp_le {x : Word} (hx : x ≤ KERNBASE) {v : ℕ} : pageUp x ≤ v ↔ x.toNat ≤ v * PGSIZE := by
  have hk : x.toNat ≤ 0x80000000 := hx
  have hadd : (x + 0xfff).toNat = x.toNat + 0xfff := by bv_omega
  have hup : pageUp x = (x.toNat + 4095) / 4096 := by rw [pageUp, hadd]
  have hv : v * PGSIZE = v * 4096 := rfl
  rw [hup, hv]
  omega

/-- The pages below a size are the ones present. -/
def Full (d : Pgdir) (sz : Word) : Prop :=
  ∀ v, v < UPAGES → ((d.get v).isSome ↔ v * PGSIZE < sz.toNat)

section Uvm

variable {m : Phys} {d : Pgdir} {O : Set Frame} {oldsz newsz : Word}

theorem deallocuvm_spec (h : Held m d O) (hold : oldsz ≤ KERNBASE) (hnew : newsz ≤ KERNBASE) :
    ∃ m₁ d₁, (deallocuvm m d oldsz newsz).2 = (m₁, d₁) ∧ Held m₁ d₁ O ∧
      Evolves O (pagesFrom (pageUp newsz) oldsz) m d m₁ d₁ ∧
      ∀ x ∈ pagesFrom (pageUp newsz) oldsz, d₁.get x = none := by
  unfold deallocuvm
  split
  · rename_i hle
    refine ⟨m, d, rfl, h, .refl, ?_⟩
    rintro x ⟨hx, hlim⟩
    have hx' := (pageUp_le hnew).mp hx
    have hle' : oldsz.toNat ≤ newsz.toNat := hle
    omega
  · exact deallocLoop_spec hold h (Nat.le_add_left_of_le (by decide))

/-- `allocuvm` maps zeroed pages up to `newsz`, or leaves the mappings as they were. -/
theorem allocuvm_spec (newsz : Word) (h : Held m d O) (hold : oldsz ≤ KERNBASE) (hfull : Full d oldsz) :
    ∃ sz m₁ d₁, allocuvm m d oldsz newsz = some (sz, m₁, d₁) ∧ Held m₁ d₁ O ∧
      ((sz = 0 ∧ Evolves O ∅ m d m₁ d₁) ∨
        (sz = oldsz ∧ newsz < oldsz ∧ m₁ = m ∧ d₁ = d) ∨
        (sz = newsz ∧ oldsz ≤ newsz ∧ newsz < KERNBASE ∧
          Evolves O (pagesFrom (pageUp oldsz) newsz) m d m₁ d₁ ∧
          ∀ x ∈ pagesFrom (pageUp oldsz) newsz,
            ∃ f, d₁.get x = some ⟨f, true, true⟩ ∧ m₁.page f = fun _ => 0)) := by
  unfold allocuvm
  split
  · exact ⟨0, m, d, rfl, h, Or.inl ⟨rfl, .refl⟩⟩
  rename_i hbig
  have hlt : newsz < KERNBASE := BitVec.not_le.mp hbig
  have hmax : newsz ≤ KERNBASE := BitVec.le_of_lt hlt
  split
  · rename_i hsmall
    exact ⟨oldsz, m, d, rfl, h, Or.inr (Or.inl ⟨rfl, hsmall, rfl, rfl⟩)⟩
  rename_i hge
  have hnone : ∀ x ∈ pagesFrom (pageUp oldsz) newsz, d.get x = none := by
    rintro x ⟨hx, hlim⟩
    have habs := mt (hfull x (lt_UPAGES hmax hlim)).mp (not_lt.mpr ((pageUp_le hold).mp hx))
    exact Option.not_isSome_iff_eq_none.mp habs
  -- what the clean-up leaves when the pages were absent before
  have hundo : ∀ {m₁ d₁ m₂ d₂ m₃}, Evolves O (pagesFrom (pageUp oldsz) newsz) m d m₁ d₁ →
      Evolves O (pagesFrom (pageUp oldsz) newsz) m₁ d₁ m₂ d₂ →
      (∀ x ∈ pagesFrom (pageUp oldsz) newsz, d₂.get x = none) →
      Evolves O ∅ m₂ d₂ m₃ d₂ → Evolves O ∅ m d m₃ d₂ := by
    intro m₁ d₁ m₂ d₂ m₃ h₁ h₂ hgone h₃
    have hall := (h₁.trans h₂).trans h₃
    have hset : pagesFrom (pageUp oldsz) newsz ∪ pagesFrom (pageUp oldsz) newsz ∪ ∅ =
        pagesFrom (pageUp oldsz) newsz := by rw [Set.union_self, Set.union_empty]
    rw [hset] at hall
    refine ⟨hall.foreign, fun x _ => ?_, fun x _ hu e he => ?_⟩
    · by_cases hx : x ∈ pagesFrom (pageUp oldsz) newsz
      · rw [hgone x hx, hnone x hx]
      · exact hall.same x hx
    · refine hall.kept x (fun hx => ?_) hu e he
      exact absurd ((hnone x hx).symm.trans he) (by simp)
  obtain ⟨r, m₁, d₁, hl, hdone⟩ := allocLoop_spec hmax h
    (Nat.le_add_left_of_le (by decide : UPAGES ≤ NPAGES)) hnone
  cases r with
  | through =>
    obtain ⟨h₁, hev, hnew⟩ := hdone
    exact ⟨newsz, m₁, d₁, by simp [hl], h₁,
      Or.inr (Or.inr ⟨rfl, BitVec.not_lt.mp hge, hlt, hev, hnew⟩)⟩
  | noPage =>
    obtain ⟨h₁, hev⟩ := hdone
    obtain ⟨m₂, d₂, hd, h₂, hev₂, hgone⟩ := deallocuvm_spec h₁ hmax hold
    exact ⟨0, m₂, d₂, by simp [hl, hd], h₂, Or.inl ⟨rfl, hundo hev hev₂ hgone .refl⟩⟩
  | noTable mem =>
    obtain ⟨hf, h₁, hev⟩ := hdone
    obtain ⟨m₂, d₂, hd, h₂, hev₂, hgone⟩ := deallocuvm_spec h₁ hmax hold
    have hev₂' : Evolves O (pagesFrom (pageUp oldsz) newsz) m₁ d₁ m₂ d₂ :=
      ⟨fun g hg => hev₂.foreign g (Set.mem_insert_of_mem mem hg), hev₂.same, hev₂.kept⟩
    refine ⟨0, kfree m₂ mem, d₂, by simp [hl, hd], kfree_held h₂ hf, Or.inl ⟨rfl, ?_⟩⟩
    exact hundo hev hev₂' hgone (.scratch h₂ hf fun g hg => kfree_page hg)

end Uvm

/-! ### growproc -/

/-- The user pages that are present may be written. -/
def Writable (d : Pgdir) : Prop := ∀ v, v < UPAGES → ∀ e, d.get v = some e → e.w = true

/-- An address space that is dense: below `KERNBASE` the pages of `[0, PGROUNDUP(sz))`, and no
    others, are present, and the kernel may write them. -/
structure Dense (p : Proc) : Prop where
  small : p.sz < KERNBASE
  full : Full p.pgdir p.sz
  writable : Writable p.pgdir

/-- `growproc(n)` has changed the size by `n`: old pages keep their content, new ones are zero. -/
structure Grown (m : Phys) (p : Proc) (n : Word) (m' : Phys) (p' : Proc) : Prop where
  size : (p'.sz.toNat : ℤ) = p.sz.toNat + n.toInt
  small : p'.sz < KERNBASE
  full : Full p'.pgdir p'.sz
  kept : ∀ v, v < UPAGES → ∀ e, p.pgdir.get v = some e → v * PGSIZE < p'.sz.toNat →
    p'.pgdir.get v = some e ∧ m'.page e.frame = m.page e.frame
  zeroed : ∀ v, v < UPAGES → ∀ e, p.pgdir.get v = none → p'.pgdir.get v = some e →
    m'.page e.frame = fun _ => 0

/-- `growproc(n)` has changed neither the size nor the user memory. -/
structure Untouched (m : Phys) (p : Proc) (m' : Phys) (p' : Proc) : Prop where
  size : p'.sz = p.sz
  same : ∀ v, v < UPAGES → p'.pgdir.get v = p.pgdir.get v
  kept : ∀ v, v < UPAGES → ∀ e, p.pgdir.get v = some e → m'.page e.frame = m.page e.frame

/-- `growproc(n)` returns 0 and does it all, or returns -1 and does nothing. -/
def AllOrNothing (m : Phys) (p : Proc) (n : Word) : Prop :=
  ∃ ret m' p', growproc m p n = some (ret, m', p') ∧
    (ret = 0 ∧ Grown m p n m' p' ∨ ret = -1 ∧ Untouched m p m' p')

/-- The increment does not ask for a size of 0 or less, unless there is nothing to give back. -/
def Sane (p : Proc) (n : Word) : Prop :=
  0 ≤ n.toInt ∨ p.sz = 0 ∨ 0 < (p.sz.toNat : ℤ) + n.toInt

instance (p : Proc) (n : Word) : Decidable (Sane p n) := inferInstanceAs (Decidable (_ ∨ _))

section Arith

variable {sz n : Word}

theorem add_toNat_up (hsz : sz < KERNBASE) (hn : 0 ≤ n.toInt) :
    ((sz + n).toNat : ℤ) = sz.toNat + n.toInt := by
  have hk : sz.toNat < 0x80000000 := hsz
  have hn' := BitVec.toInt_eq_toNat_cond n
  have hadd := BitVec.toNat_add sz n
  split at hn' <;> omega

theorem add_toNat_down (hsz : sz < KERNBASE) (hn : n.toInt < 0) (hpos : 0 ≤ (sz.toNat : ℤ) + n.toInt) :
    ((sz + n).toNat : ℤ) = sz.toNat + n.toInt := by
  have hk : sz.toNat < 0x80000000 := hsz
  have hn' := BitVec.toInt_eq_toNat_cond n
  have hadd := BitVec.toNat_add sz n
  split at hn' <;> omega

/-- A decrement past 0 wraps around to a larger size. -/
theorem add_wraps (hsz : sz < KERNBASE) (hneg : (sz.toNat : ℤ) + n.toInt < 0) : sz ≤ sz + n := by
  have hk : sz.toNat < 0x80000000 := hsz
  have hn' := BitVec.toInt_eq_toNat_cond n
  have hlo := BitVec.le_toInt n
  have hadd := BitVec.toNat_add sz n
  refine BitVec.le_def.mpr ?_
  split at hn' <;> omega

end Arith

section Growproc

variable {m : Phys} {p : Proc} {O : Set Frame} {n : Word}

/-- `growproc` is all-or-nothing, and leaves the rest of the memory alone. -/
def Proper (O : Set Frame) (m : Phys) (p : Proc) (n : Word) : Prop :=
  ∃ ret m' p', growproc m p n = some (ret, m', p') ∧ Held m' p'.pgdir O ∧
    (∀ f ∈ O, m'.page f = m.page f) ∧ Writable p'.pgdir ∧
    (ret = 0 ∧ Grown m p n m' p' ∨ ret = -1 ∧ Untouched m p m' p')

theorem Untouched.refl : Untouched m p m p := ⟨rfl, fun _ _ => rfl, fun _ _ _ _ => rfl⟩

/-- Growing, or asking for nothing. -/
theorem growproc_up (h : Held m p.pgdir O) (hd : Dense p) (hn : 0 ≤ n.toInt) : Proper O m p n := by
  have hle : p.sz ≤ KERNBASE := BitVec.le_of_lt hd.small
  rcases hn.eq_or_lt with h0 | hpos
  · refine ⟨0, m, p, by simp [growproc, ← h0], h, fun _ _ => rfl, hd.writable,
      Or.inl ⟨rfl, by omega, hd.small, hd.full, ?_, ?_⟩⟩
    · exact fun v _ e he _ => ⟨he, rfl⟩
    · exact fun v _ e hnone he => absurd (hnone.symm.trans he) (by simp)
  · have hsum := add_toNat_up hd.small hn
    obtain ⟨sz, m₁, d₁, ha, h₁, hr⟩ := allocuvm_spec (p.sz + n) h hle hd.full
    rcases hr with ⟨rfl, hev⟩ | ⟨-, hlt, -, -⟩ | ⟨rfl, -, hlt, hev, hnew⟩
    · have hsame : ∀ v, d₁.get v = p.pgdir.get v := fun v => hev.same v (Set.notMem_empty v)
      refine ⟨-1, m₁, ⟨d₁, p.sz⟩, by simp [growproc, hpos, ha], h₁, hev.foreign, ?_,
        Or.inr ⟨rfl, rfl, fun v _ => hsame v, ?_⟩⟩
      · exact fun v hv e he => hd.writable v hv e ((hsame v).symm.trans he)
      · exact fun v hv => hev.kept v (Set.notMem_empty v) hv
    · have hlt' : (p.sz + n).toNat < p.sz.toNat := hlt
      omega
    · have hne : p.sz + n ≠ 0 := fun h0 => by
        have : (p.sz + n).toNat = 0 := congrArg BitVec.toNat h0
        omega
      have hmem : ∀ v, v ∈ pagesFrom (pageUp p.sz) (p.sz + n) ↔
          p.sz.toNat ≤ v * PGSIZE ∧ v * PGSIZE < (p.sz + n).toNat :=
        fun v => and_congr_left fun _ => pageUp_le hle
      refine ⟨0, m₁, ⟨d₁, p.sz + n⟩, by simpa [growproc, hpos, ha] using hne, h₁, hev.foreign,
        fun v hv e he => ?_,
        Or.inl ⟨rfl, hsum, hlt, fun v hv => ?_, fun v hv e he _ => ?_, fun v hv e hnone he => ?_⟩⟩
      · by_cases hv' : v ∈ pagesFrom (pageUp p.sz) (p.sz + n)
        · obtain ⟨f, hf, -⟩ := hnew v hv'
          exact (Option.some.inj (hf.symm.trans he)) ▸ rfl
        · exact hd.writable v hv e ((hev.same v hv').symm.trans he)
      · by_cases hv' : v ∈ pagesFrom (pageUp p.sz) (p.sz + n)
        · obtain ⟨f, hf, -⟩ := hnew v hv'
          simpa [hf] using ((hmem v).mp hv').2
        · dsimp only
          rw [hev.same v hv', hd.full v hv]
          have := mt (hmem v).mpr hv'
          omega
      · have hv' : v ∉ pagesFrom (pageUp p.sz) (p.sz + n) := fun hv' => by
          have := (hd.full v hv).mp (by simp [he])
          exact absurd this (not_lt.mpr ((hmem v).mp hv').1)
        exact ⟨(hev.same v hv').trans he, hev.kept v hv' hv e he⟩
      · by_cases hv' : v ∈ pagesFrom (pageUp p.sz) (p.sz + n)
        · obtain ⟨f, hf, hz⟩ := hnew v hv'
          obtain rfl := Option.some.inj (hf.symm.trans he)
          exact hz
        · rw [hev.same v hv', hnone] at he
          exact absurd he (by simp)

/-- A decrement past 0 does nothing, and returns 0 unless the size is 0. -/
theorem growproc_past (hd : Dense p) (hn : n.toInt < 0) (hneg : (p.sz.toNat : ℤ) + n.toInt < 0) :
    growproc m p n = if p.sz = 0 then some (-1, m, p) else some (0, m, p) := by
  simp only [growproc, if_neg (by omega : ¬ 0 < n.toInt), if_pos hn, deallocuvm,
    if_pos (add_wraps hd.small hneg)]

/-- Any other decrement clears the pages between the sizes. -/
theorem growproc_down (h : Held m p.pgdir O) (hd : Dense p) (hn : n.toInt < 0)
    (hsum : ((p.sz + n).toNat : ℤ) = p.sz.toNat + n.toInt) :
    ∃ m₁ d₁, Held m₁ d₁ O ∧ Evolves O (pagesFrom (pageUp (p.sz + n)) p.sz) m p.pgdir m₁ d₁ ∧
      (∀ v, v ∈ pagesFrom (pageUp (p.sz + n)) p.sz ↔
        (p.sz + n).toNat ≤ v * PGSIZE ∧ v * PGSIZE < p.sz.toNat) ∧
      (∀ v ∈ pagesFrom (pageUp (p.sz + n)) p.sz, d₁.get v = none) ∧
      growproc m p n =
        if p.sz + n = 0 then some (-1, m₁, ⟨d₁, p.sz⟩) else some (0, m₁, ⟨d₁, p.sz + n⟩) := by
  have hle : p.sz ≤ KERNBASE := BitVec.le_of_lt hd.small
  have hlt : p.sz + n < p.sz := BitVec.lt_def.mpr (by omega)
  have hnew : p.sz + n ≤ KERNBASE := BitVec.le_trans (BitVec.le_of_lt hlt) hle
  obtain ⟨m₁, d₁, hdl, h₁, hev, hgone⟩ := deallocuvm_spec h hle hnew
  refine ⟨m₁, d₁, h₁, hev, fun v => and_congr_left fun _ => pageUp_le hnew, hgone, ?_⟩
  have hfst : (deallocuvm m p.pgdir p.sz (p.sz + n)).1 = p.sz + n := by
    simp only [deallocuvm, if_neg (BitVec.not_le.mpr hlt)]
  simp only [growproc, if_neg (by omega : ¬ 0 < n.toInt), if_pos hn, hfst, hdl]

/-- A sane increment is all-or-nothing. -/
theorem growproc_proper (h : Held m p.pgdir O) (hd : Dense p) (hs : Sane p n) :
    Proper O m p n := by
  by_cases hn : 0 ≤ n.toInt
  · exact growproc_up h hd hn
  · replace hn : n.toInt < 0 := not_le.mp hn
    rcases hs.resolve_left (not_le.mpr hn) with h0 | hpos
    · have hneg : (p.sz.toNat : ℤ) + n.toInt < 0 := by
        simpa [h0] using hn
      refine ⟨-1, m, p, by rw [growproc_past hd hn hneg, if_pos h0], h, fun _ _ => rfl,
        hd.writable, Or.inr ⟨rfl, .refl⟩⟩
    · have hsum := add_toNat_down hd.small hn hpos.le
      obtain ⟨m₁, d₁, h₁, hev, hmem, hgone, hg⟩ := growproc_down h hd hn hsum
      have hne : p.sz + n ≠ 0 := fun h0 => by
        have : (p.sz + n).toNat = 0 := congrArg BitVec.toNat h0
        omega
      have hsmall : p.sz + n < KERNBASE :=
        BitVec.lt_trans (BitVec.lt_def.mpr (by omega)) hd.small
      refine ⟨0, m₁, ⟨d₁, p.sz + n⟩, by rw [hg, if_neg hne], h₁, hev.foreign, fun v hv e he => ?_,
        Or.inl ⟨rfl, hsum, hsmall, fun v hv => ?_, fun v hv e he hlim => ?_,
          fun v hv e hnone he => ?_⟩⟩
      · by_cases hv' : v ∈ pagesFrom (pageUp (p.sz + n)) p.sz
        · exact absurd ((hgone v hv').symm.trans he) (by simp)
        · exact hd.writable v hv e ((hev.same v hv').symm.trans he)
      · by_cases hv' : v ∈ pagesFrom (pageUp (p.sz + n)) p.sz
        · simpa [hgone v hv'] using ((hmem v).mp hv').1
        · dsimp only
          rw [hev.same v hv', hd.full v hv]
          have := mt (hmem v).mpr hv'
          omega
      · have hv' : v ∉ pagesFrom (pageUp (p.sz + n)) p.sz :=
          fun hv' => absurd hlim (not_lt.mpr ((hmem v).mp hv').1)
        exact ⟨(hev.same v hv').trans he, hev.kept v hv' hv e he⟩
      · by_cases hv' : v ∈ pagesFrom (pageUp (p.sz + n)) p.sz
        · exact absurd ((hgone v hv').symm.trans he) (by simp)
        · exact absurd (hnone.symm.trans ((hev.same v hv').symm.trans he)) (by simp)

/-- `growproc` is all-or-nothing exactly for sane increments. -/
theorem allOrNothing_iff (h : Held m p.pgdir O) (hd : Dense p) :
    AllOrNothing m p n ↔ Sane p n := by
  constructor
  · rintro ⟨ret, m', p', hg, hr⟩
    by_contra hs
    have hs' := not_or.mp hs
    have hn : n.toInt < 0 := not_le.mp hs'.1
    obtain ⟨hsz, hle⟩ := not_or.mp hs'.2
    rcases (not_lt.mp hle).eq_or_lt with heq | hneg
    · -- the whole memory is given back, and the call fails
      have hsum := add_toNat_down hd.small hn heq.ge
      obtain ⟨m₁, d₁, -, hev, hmem, hgone, hg'⟩ := growproc_down h hd hn hsum
      have h0 : p.sz + n = 0 := BitVec.eq_of_toNat_eq (by
        have : ((p.sz + n).toNat : ℤ) = 0 := hsum.trans heq
        exact_mod_cast this)
      rw [hg', if_pos h0] at hg
      obtain ⟨rfl, rfl, rfl⟩ : -1 = ret ∧ m₁ = m' ∧ (⟨d₁, p.sz⟩ : Proc) = p' := by
        simpa using Option.some.inj hg
      rcases hr with ⟨hret, -⟩ | ⟨-, hun⟩
      · exact absurd hret (by decide)
      · have hpos : 0 < p.sz.toNat := Nat.pos_of_ne_zero fun hz =>
          hsz (BitVec.eq_of_toNat_eq hz)
        have hin : 0 ∈ pagesFrom (pageUp (p.sz + n)) p.sz :=
          (hmem 0).mpr ⟨by simp [h0], by simpa using hpos⟩
        have hsome := (hd.full 0 (by decide)).mpr (by simpa using hpos)
        rw [← hun.same 0 (by decide), hgone 0 hin] at hsome
        exact absurd hsome (by simp)
    · -- nothing happens, and the call succeeds
      rw [growproc_past hd hn hneg, if_neg hsz] at hg
      obtain ⟨rfl, rfl, rfl⟩ : 0 = ret ∧ m = m' ∧ p = p' := by
        simpa using Option.some.inj hg
      rcases hr with ⟨-, hgr⟩ | ⟨hret, -⟩
      · have := hgr.size
        omega
      · exact absurd hret (by decide)
  · intro hs
    obtain ⟨ret, m', p', hg, -, -, -, hr⟩ := growproc_proper h hd hs
    exact ⟨ret, m', p', hg, hr⟩

end Growproc

end Xv6.Memory
