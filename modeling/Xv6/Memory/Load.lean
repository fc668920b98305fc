import Xv6.Memory.Copy
import Xv6.Memory.Image

/-! @src exec.c vm.c | name:exec | layer:proof

    `exec` builds a dense address space next to the old one, or leaves the process as it was. -/

namespace Xv6.Memory
open Xv6.Schemes
open Xv6.Schemes.X86 (Word)

/-- Only contents of pages that are not in `O` have changed. -/
structure Wrote (O : Set Frame) (m m' : Phys) : Prop where
  free : m'.freelist = m.freelist
  foreign : ∀ f ∈ O, m'.page f = m.page f

section

variable {m m₁ m₂ : Phys} {d : Pgdir} {O : Set Frame} {sz : Word}

theorem Wrote.refl : Wrote O m m := ⟨rfl, fun _ _ => rfl⟩

theorem Wrote.trans (h₁ : Wrote O m m₁) (h₂ : Wrote O m₁ m₂) : Wrote O m m₂ :=
  ⟨h₂.free.trans h₁.free, fun f hf => (h₂.foreign f hf).trans (h₁.foreign f hf)⟩

theorem Wrote.held (h : Wrote O m m₁) (hh : Held m d O) : Held m₁ d O :=
  ⟨h.free ▸ hh.nodup, h.free ▸ hh.owns, hh.kernel⟩

/-- Writing a user page of the address space. -/
theorem Wrote.page {v : ℕ} {e : Pte} (o : ℕ) (bytes : List Byte) (hh : Held m d O) (hv : v < UPAGES)
    (he : d.get v = some e) : Wrote O m (m.write e.frame o bytes) where
  free := rfl
  foreign := by
    intro f hf
    have hne : f ≠ e.frame := fun heq => (hh.page hv he).2 (heq ▸ hf)
    simp [Phys.write, hne]

/-! ### Parts of exec -/

/-- `loaduvm` finds the pages of a segment that has been allocated. -/
theorem loadLoop_spec {ph : Proghdr} (hmax : sz ≤ KERNBASE) (hfull : Full d sz)
    (halign : ph.vaddr.toNat % PGSIZE = 0) (hfit : ph.vaddr.toNat + ph.filesz.toNat ≤ sz.toNat)
    (fuel k : ℕ) (h : Held m d O) :
    ∃ b m₁, loadLoop ph d fuel k m = some (b, m₁) ∧ Wrote O m m₁ := by
  induction fuel generalizing k m with
  | zero => exact ⟨true, m, rfl, .refl⟩
  | succ fuel ih =>
    by_cases hk : k * PGSIZE < ph.filesz.toNat
    · have hlim : (ph.vaddr.toNat / PGSIZE + k) * PGSIZE < sz.toNat := by
        have hdiv := Nat.div_add_mod ph.vaddr.toNat PGSIZE
        rw [halign, Nat.add_zero, Nat.mul_comm] at hdiv
        rw [Nat.add_mul, hdiv]
        omega
      have hu := lt_UPAGES hmax hlim
      obtain ⟨e, he⟩ := Option.isSome_iff_exists.mp ((hfull _ hu).mpr hlim)
      by_cases hr : ph.readable k
      · have hw := Wrote.page 0 ((List.range (min PGSIZE (ph.filesz.toNat -
          k * PGSIZE))).map fun o => ph.data (k * PGSIZE + o)) h hu he
        obtain ⟨b, m₁, hl, hw₁⟩ := ih (k + 1) (hw.held h)
        refine ⟨b, m₁, ?_, hw.trans hw₁⟩
        rw [loadLoop, if_pos hk]
        simp only [he, hr, if_true, hl]
      · refine ⟨false, m, ?_, .refl⟩
        rw [loadLoop, if_pos hk]
        simp only [he, hr, Bool.false_eq_true, if_false]
    · exact ⟨true, m, by rw [loadLoop, if_neg hk], .refl⟩

/-- `allocuvm` of an address space that is dense stays dense. -/
theorem allocuvm_dense {oldsz : Word} (newsz : Word) (h : Held m d O) (hold : oldsz ≤ KERNBASE)
    (hfull : Full d oldsz) (hw : Writable d) (hbelow : oldsz < KERNBASE ∨ oldsz ≤ newsz) :
    ∃ sz m₁ d₁, allocuvm m d oldsz newsz = some (sz, m₁, d₁) ∧ Held m₁ d₁ O ∧
      (∀ f ∈ O, m₁.page f = m.page f) ∧ (sz ≠ 0 → newsz ≤ sz ∧ Dense ⟨d₁, sz⟩) := by
  obtain ⟨sz, m₁, d₁, ha, h₁, hr⟩ := allocuvm_spec newsz h hold hfull
  refine ⟨sz, m₁, d₁, ha, h₁, ?_⟩
  rcases hr with ⟨rfl, hev⟩ | ⟨rfl, hlt, rfl, rfl⟩ | ⟨rfl, hle, hlt, hev, hnew⟩
  · exact ⟨hev.foreign, fun hne => absurd rfl hne⟩
  · refine ⟨fun _ _ => rfl, fun _ => ⟨BitVec.le_of_lt hlt, ?_, hfull, hw⟩⟩
    exact hbelow.resolve_right (BitVec.not_le.mpr hlt)
  · refine ⟨hev.foreign, fun _ => ⟨BitVec.le_refl _, hlt, fun v hv => ?_, fun v hv e he => ?_⟩⟩
    · by_cases hv' : v ∈ pagesFrom (pageUp oldsz) sz
      · obtain ⟨f, hf, -⟩ := hnew v hv'
        simpa [hf] using hv'.2
      · dsimp only
        rw [hev.same v hv', hfull v hv]
        have hmem : v ∈ pagesFrom (pageUp oldsz) sz ↔
            oldsz.toNat ≤ v * PGSIZE ∧ v * PGSIZE < sz.toNat :=
          and_congr_left fun _ => pageUp_le hold
        have := mt hmem.mpr hv'
        have hle' : oldsz.toNat ≤ sz.toNat := hle
        omega
    · by_cases hv' : v ∈ pagesFrom (pageUp oldsz) sz
      · obtain ⟨f, hf, -⟩ := hnew v hv'
        exact (Option.some.inj (hf.symm.trans he)) ▸ rfl
      · exact hw v hv e ((hev.same v hv').symm.trans he)

/-- A segment that has passed the tests is inside the pages allocated for it. -/
theorem segment_fits {ph : Proghdr} (hsize : ¬ ph.memsz < ph.filesz)
    (hwrap : ¬ ph.vaddr + ph.memsz < ph.vaddr) (hle : ph.vaddr + ph.memsz ≤ sz) :
    ph.vaddr.toNat + ph.filesz.toNat ≤ sz.toNat := by
  have hm : ph.filesz.toNat ≤ ph.memsz.toNat := BitVec.not_lt.mp hsize
  have hv : ph.vaddr.toNat ≤ (ph.vaddr + ph.memsz).toNat := BitVec.not_lt.mp hwrap
  have hs : (ph.vaddr + ph.memsz).toNat ≤ sz.toNat := hle
  have hadd := BitVec.toNat_add ph.vaddr ph.memsz
  have := ph.vaddr.isLt
  have := ph.memsz.isLt
  omega

/-- The loop over the program headers keeps the new address space dense. -/
theorem loadImage_spec (phs : List (Option Proghdr)) (h : Held m d O) (hd : Dense ⟨d, sz⟩) :
    ∃ r m₁ d₁, loadImage phs sz m d = some (r, m₁, d₁) ∧ Held m₁ d₁ O ∧
      (∀ f ∈ O, m₁.page f = m.page f) ∧ ∀ sz', r = some sz' → Dense ⟨d₁, sz'⟩ := by
  induction phs generalizing sz m d with
  | nil =>
    refine ⟨some sz, m, d, rfl, h, fun _ _ => rfl, fun sz' hr => ?_⟩
    obtain rfl := Option.some.inj hr
    exact hd
  | cons y phs ih =>
    have hbad : ∀ {m₁ d₁}, Held m₁ d₁ O → (∀ f ∈ O, m₁.page f = m.page f) →
        loadImage (y :: phs) sz m d = some (none, m₁, d₁) →
        ∃ r m₁ d₁, loadImage (y :: phs) sz m d = some (r, m₁, d₁) ∧ Held m₁ d₁ O ∧
          (∀ f ∈ O, m₁.page f = m.page f) ∧ ∀ sz', r = some sz' → Dense ⟨d₁, sz'⟩ :=
      fun h₁ hf hl => ⟨none, _, _, hl, h₁, hf, fun _ hr => absurd hr (by simp)⟩
    cases y with
    | none => exact hbad h (fun _ _ => rfl) rfl
    | some ph =>
      by_cases hload : ph.load
      · by_cases hsize : ph.memsz < ph.filesz
        · exact hbad h (fun _ _ => rfl) (by simp [loadImage, hload, hsize])
        by_cases hwrap : ph.vaddr + ph.memsz < ph.vaddr
        · exact hbad h (fun _ _ => rfl) (by simp [loadImage, hload, hsize, hwrap])
        obtain ⟨sz₁, m₁, d₁, ha, h₁, hf₁, hd₁⟩ := allocuvm_dense (ph.vaddr + ph.memsz) h
          (BitVec.le_of_lt hd.small) hd.full hd.writable (Or.inl hd.small)
        by_cases h0 : sz₁ = 0
        · exact hbad h₁ hf₁ (by simp [loadImage, hload, hsize, hwrap, ha, h0])
        have h0' : ¬ sz₁ = 0#32 := h0
        obtain ⟨hle, hd₁⟩ := hd₁ h0
        by_cases halign : ph.vaddr.toNat % PGSIZE = 0
        · have hfit : ph.vaddr.toNat + ph.filesz.toNat ≤ sz₁.toNat := segment_fits hsize hwrap hle
          obtain ⟨b, m₂, hl, hw⟩ := loadLoop_spec (BitVec.le_of_lt hd₁.small) hd₁.full halign hfit
            NPAGES 0 h₁
          have hf₂ : ∀ f ∈ O, m₂.page f = m.page f :=
            fun f hf => (hw.foreign f hf).trans (hf₁ f hf)
          cases b with
          | false =>
            exact hbad (hw.held h₁) hf₂
              (by simp [loadImage, hload, hsize, hwrap, ha, h0', halign, hl])
          | true =>
            obtain ⟨r, m₃, d₃, hrest, h₃, hf₃, hd₃⟩ := ih (hw.held h₁) hd₁
            refine ⟨r, m₃, d₃, ?_, h₃, fun f hf => (hf₃ f hf).trans (hf₂ f hf), hd₃⟩
            simp [loadImage, hload, hsize, hwrap, ha, h0', halign, hl, hrest]
        · exact hbad h₁ hf₁ (by simp [loadImage, hload, hsize, hwrap, ha, h0', halign])
      · obtain ⟨r, m₁, d₁, hrest, hr⟩ := ih h hd
        exact ⟨r, m₁, d₁, by simp [loadImage, hload, hrest], hr⟩

/-- Rounding the size up keeps the pages. -/
theorem full_round (hd : Dense ⟨d, sz⟩) :
    BitVec.ofNat 32 (pageUp sz * PGSIZE) ≤ KERNBASE ∧
      Full d (BitVec.ofNat 32 (pageUp sz * PGSIZE)) := by
  have hsmall : sz ≤ KERNBASE := BitVec.le_of_lt hd.small
  have hup : pageUp sz ≤ UPAGES := (pageUp_le hsmall).mpr (KERNBASE_eq ▸ hsmall)
  have hnat : (BitVec.ofNat 32 (pageUp sz * PGSIZE)).toNat = pageUp sz * PGSIZE := by
    rw [BitVec.toNat_ofNat, Nat.mod_eq_of_lt]
    exact (Nat.mul_le_mul_right PGSIZE hup).trans_lt (by decide)
  refine ⟨BitVec.le_def.mpr ?_, fun v hv => ?_⟩
  · rw [hnat, KERNBASE_eq]
    exact Nat.mul_le_mul_right PGSIZE hup
  · rw [hd.full v hv, hnat]
    have hle := pageUp_le hsmall (v := v)
    constructor
    · intro h
      exact Nat.mul_lt_mul_of_pos_right (not_le.mp (mt hle.mp (not_le.mpr h))) (by decide)
    · intro h
      exact not_le.mp (mt hle.mpr (not_le.mpr (Nat.lt_of_mul_lt_mul_right h)))

/-- `clearpteu` of a page that is present. -/
theorem clearpteu_spec {v : ℕ} {e : Pte} (h : Held m d O) (hd : Dense ⟨d, sz⟩) (hv : v < UPAGES)
    (he : d.get v = some e) :
    ∃ d₁, clearpteu m d v = some d₁ ∧ Held m d₁ O ∧ Dense ⟨d₁, sz⟩ := by
  have ht : (d.pde (PDX v)).isSome := by
    cases hp : d.pde (PDX v) with
    | some t => rfl
    | none => simp [Pgdir.get, hp] at he
  obtain ⟨t, hp⟩ := Option.isSome_iff_exists.mp ht
  have hget : ∀ x, (d.set v (some { e with u := false })).get x =
      if x = v then some { e with u := false } else d.get x := get_set ht _
  refine ⟨d.set v (some { e with u := false }), by simp [clearpteu, walkpgdir, hp, he],
    ⟨h.nodup, ?_, ?_⟩, hd.small, ?_, ?_⟩
  · have hholds : (d.set v (some { e with u := false })).holds = d.holds := by
      have hsame : (some { e with u := false }).map Pte.frame = d.holds (.page v) :=
        (h.page hv he).1.symm
      rw [holds_set ht hv, hsame]
      exact Function.update_eq_self _ _
    rw [hholds]
    exact h.owns
  · intro x hx e' he'
    have hne : x ≠ v := by omega
    rw [hget, if_neg hne] at he'
    exact h.kernel x hx e' he'
  · intro x hx
    have := hd.full x hx
    dsimp only at this ⊢
    rw [hget, ← this]
    split
    · rename_i hxv
      simp [hxv, he]
    · rfl
  · intro x hx e' he'
    dsimp only at he'
    rw [hget] at he'
    split at he'
    · obtain rfl := Option.some.inj he'
      exact hd.writable v hv e he
    · exact hd.writable x hx e' he'

/-- `copyout` writes user pages of the address space only. -/
theorem copyLoopOut_spec (fuel : ℕ) {va : Word} {buf : List Byte} {b : Bool} (h : Held m d O)
    (hc : copyLoopOut d fuel m va buf = some (b, m₁)) : Wrote O m m₁ := by
  induction fuel generalizing m va buf with
  | zero =>
    obtain ⟨-, rfl⟩ := Prod.mk.inj (Option.some.inj hc)
    exact .refl
  | succ fuel ih =>
    unfold copyLoopOut at hc
    split at hc
    · obtain ⟨-, rfl⟩ := Prod.mk.inj (Option.some.inj hc)
      exact .refl
    · dsimp only at hc
      split at hc
      · exact absurd hc (by simp)
      · split at hc
        · obtain ⟨-, rfl⟩ := Prod.mk.inj (Option.some.inj hc)
          exact .refl
        · rename_i e he
          split at hc
          · rename_i hu
            have hv : va.toNat / PGSIZE < UPAGES := by
              by_contra hv
              exact absurd (h.kernel _ (not_lt.mp hv) e he) (by simp [hu])
            have hw := Wrote.page (va.toNat % PGSIZE)
              (buf.take (min (PGSIZE - va.toNat % PGSIZE) buf.length)) h hv he
            exact hw.trans (ih (hw.held h) hc)
          · obtain ⟨-, rfl⟩ := Prod.mk.inj (Option.some.inj hc)
            exact .refl

theorem pushArgs_spec (argv : List (List Byte)) {sp : Word} {us : List Word}
    {r : Option (Word × List Word)} (h : Held m d O)
    (hc : pushArgs d argv sp us m = some (r, m₁)) : Wrote O m m₁ := by
  induction argv generalizing sp us m with
  | nil =>
    obtain ⟨-, rfl⟩ := Prod.mk.inj (Option.some.inj hc)
    exact .refl
  | cons arg argv ih =>
    unfold pushArgs at hc
    split at hc
    · obtain ⟨-, rfl⟩ := Prod.mk.inj (Option.some.inj hc)
      exact .refl
    · dsimp only at hc
      split at hc
      · exact absurd hc (by simp)
      · rename_i m' hout
        obtain ⟨-, rfl⟩ := Prod.mk.inj (Option.some.inj hc)
        exact copyLoopOut_spec _ h hout
      · rename_i m' hout
        have hw := copyLoopOut_spec _ h hout
        exact hw.trans (ih (hw.held h) hc)

/-! ### exec -/

/-- An address space without user pages. -/
theorem Dense.of_empty (h : ∀ v, v < UPAGES → d.get v = none) : Dense ⟨d, 0⟩ where
  small := (by decide : (0 : Word) < KERNBASE)
  full := fun v hv => by simp [h v hv]
  writable := fun v hv e he => absurd ((h v hv).symm.trans he) (by simp)

/-- An address space with the first page only. -/
theorem Dense.of_first {e : Pte} (hget : d.get 0 = some e) (hw : e.w = true)
    (hother : ∀ v, v < UPAGES → v ≠ 0 → d.get v = none) : Dense ⟨d, BitVec.ofNat 32 PGSIZE⟩ where
  small := (by decide : BitVec.ofNat 32 PGSIZE < KERNBASE)
  full := fun v hv => by
    rcases eq_or_ne v 0 with rfl | hne
    · simpa [hget] using (by decide : 0 < PGSIZE % 4294967296)
    · have hpage : (BitVec.ofNat 32 PGSIZE).toNat = 4096 := rfl
      dsimp only
      rw [hother v hv hne, hpage]
      have := Nat.pos_of_ne_zero hne
      simp only [Option.isSome_none, Bool.false_eq_true, false_iff, not_lt]
      exact Nat.le_mul_of_pos_left 4096 this
  writable := fun v hv e' he => by
    rcases eq_or_ne v 0 with rfl | hne
    · exact (Option.some.inj (hget.symm.trans he)) ▸ hw
    · exact absurd ((hother v hv hne).symm.trans he) (by simp)

/-- An address space stays held when none of its pages has become free. -/
theorem Held.of_clean (h : Held m d O) (hc : Clean m₁ (O ∪ d.frames)) : Held m₁ d O where
  nodup := hc.nodup
  owns :=
    { inj := h.owns.inj
      used := fun i f hi => hc.elsewhere f (Or.inr ⟨i, hi⟩)
      apart := h.owns.apart
      elsewhere := fun f hf => hc.elsewhere f (Or.inl hf) }
  kernel := h.kernel

theorem Held.clean_frames (h : Held m d O) : Clean m (O ∪ d.frames) where
  nodup := h.nodup
  elsewhere := by
    rintro f (hf | ⟨i, hi⟩)
    · exact h.owns.elsewhere f hf
    · exact h.owns.used i f hi

/-- Two address spaces next to each other. -/
theorem Held.swap {d' : Pgdir} {m' : Phys} (h : Held m d O) (h' : Held m' d' (O ∪ d.frames)) :
    Held m' d (O ∪ d'.frames) where
  nodup := h'.nodup
  owns :=
    { inj := h.owns.inj
      used := fun i f hi => h'.owns.elsewhere f (Or.inr ⟨i, hi⟩)
      apart := by
        rintro i f hi (hf | ⟨j, hj⟩)
        · exact h.owns.apart i f hi hf
        · exact h'.owns.apart j f hj (Or.inr ⟨i, hi⟩)
      elsewhere := by
        rintro f (hf | ⟨j, hj⟩)
        · exact h'.owns.elsewhere f (Or.inl hf)
        · exact h'.owns.used j f hj }
  kernel := h.kernel

/-- `exec` leaves a dense address space, the old or a new one. -/
theorem exec_spec {kmap : List Kmap} {p p' : Proc} {m' : Phys}
    {elf : Option (List (Option Proghdr))} {argv : List (List Byte)} {b : Bool}
    (hk : KmapOk kmap) (h : Held m p.pgdir O) (hd : Dense p)
    (he : exec kmap m p elf argv = some (b, m', p')) : Held m' p'.pgdir O ∧ Dense p' := by
  have hfail : ∀ {m₁ d₁}, Held m₁ d₁ (O ∪ p.pgdir.frames) → Held (freevm m₁ d₁) p.pgdir O :=
    fun h₁ => h.of_clean (freevm_spec h₁).1
  obtain ⟨r, m₁, hs, hb⟩ := setupkvm_spec hk h.clean_frames
  cases elf with
  | none =>
    obtain ⟨-, rfl, rfl⟩ : false = b ∧ m = m' ∧ p = p' := by simpa [exec] using he
    exact ⟨h, hd⟩
  | some phs =>
    cases r with
    | none =>
      obtain ⟨-, rfl, rfl⟩ : false = b ∧ m₁ = m' ∧ p = p' := by simpa [exec, hs] using he
      exact ⟨h.of_clean hb.1, hd⟩
    | some d =>
      obtain ⟨h₁, -, hempty⟩ := hb
      have hd₁ : Dense ⟨d, 0⟩ := .of_empty hempty
      obtain ⟨r, m₂, d₂, hl, h₂, -, hd₂⟩ := loadImage_spec phs h₁ hd₁
      cases r with
      | none =>
        simp only [exec, hs, hl] at he
        obtain ⟨-, rfl, rfl⟩ : false = b ∧ freevm m₂ d₂ = m' ∧ p = p' := by simpa using he
        exact ⟨hfail h₂, hd⟩
      | some sz =>
        have hd₂ := hd₂ sz rfl
        obtain ⟨hle, hfull⟩ := full_round hd₂
        set sz₁ := BitVec.ofNat 32 (pageUp sz * PGSIZE) with hsz₁
        have hk₁ : sz₁.toNat ≤ 0x80000000 := hle
        have h8192 : (2 * BitVec.ofNat 32 PGSIZE : Word).toNat = 8192 := by decide
        have hadd : (sz₁ + 2 * BitVec.ofNat 32 PGSIZE).toNat = sz₁.toNat + 8192 := by
          rw [BitVec.toNat_add, h8192]
          omega
        obtain ⟨sz₃, m₃, d₃, ha, h₃, -, hd₃⟩ :=
          allocuvm_dense (sz₁ + 2 * BitVec.ofNat 32 PGSIZE) h₂ hle hfull hd₂.writable
            (Or.inr (BitVec.le_def.mpr (by omega)))
        by_cases h0 : sz₃ = 0
        · simp only [exec, hs, hl, ← hsz₁, ha, if_pos h0] at he
          obtain ⟨-, rfl, rfl⟩ : false = b ∧ freevm m₃ d₃ = m' ∧ p = p' := by simpa using he
          exact ⟨hfail h₃, hd⟩
        obtain ⟨hge, hd₃⟩ := hd₃ h0
        -- the guard page is one of the two new ones
        have hguard : (sz₃ - 2 * BitVec.ofNat 32 PGSIZE).toNat / PGSIZE * PGSIZE < sz₃.toNat := by
          have hge' : sz₁.toNat + 8192 ≤ sz₃.toNat := hadd ▸ hge
          have hsub : (sz₃ - 2 * BitVec.ofNat 32 PGSIZE).toNat = sz₃.toNat - 8192 := by
            rw [BitVec.toNat_sub_of_le (BitVec.le_def.mpr (by omega)), h8192]
          have := Nat.div_mul_le_self (sz₃ - 2 * BitVec.ofNat 32 PGSIZE).toNat PGSIZE
          omega
        have hu := lt_UPAGES (BitVec.le_of_lt hd₃.small) hguard
        obtain ⟨e, hpte⟩ := Option.isSome_iff_exists.mp ((hd₃.full _ hu).mpr hguard)
        obtain ⟨d₄, hclear, h₄, hd₄⟩ := clearpteu_spec h₃ hd₃ hu hpte
        simp only [exec, hs, hl, ← hsz₁, ha, if_neg h0, hclear] at he
        split at he
        · exact absurd he (by simp)
        · rename_i m₅ hpush
          obtain ⟨-, rfl, rfl⟩ : false = b ∧ freevm m₅ d₄ = m' ∧ p = p' := by simpa using he
          exact ⟨hfail ((pushArgs_spec argv h₄ hpush).held h₄), hd⟩
        · rename_i m₅ hpush
          have h₅ := (pushArgs_spec argv h₄ hpush).held h₄
          split at he
          · exact absurd he (by simp)
          · rename_i m₆ hout
            obtain ⟨-, rfl, rfl⟩ : false = b ∧ freevm m₆ d₄ = m' ∧ p = p' := by simpa using he
            exact ⟨hfail ((copyLoopOut_spec _ h₅ hout).held h₅), hd⟩
          · rename_i m₆ hout
            obtain ⟨-, rfl, rfl⟩ :
                true = b ∧ freevm m₆ p.pgdir = m' ∧ (⟨d₄, sz₃⟩ : Proc) = p' := by simpa using he
            have h₆ : Held m₆ d₄ (O ∪ p.pgdir.frames) := (copyLoopOut_spec _ h₅ hout).held h₅
            have hold := freevm_spec (h.swap h₆)
            exact ⟨(h₆.mono Set.subset_union_left).of_clean hold.1, hd₄⟩

end

end Xv6.Memory
