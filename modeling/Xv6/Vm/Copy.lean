import Xv6.Vm.Kernel

/-! @src vm.c proc.c | name:copyuvm | layer:proof

    What `fork` makes of an address space. Every page that the copy and its page tables take comes
    off the free list once, where no page of the parent is, and an entry of the copy is the
    parent's with another address. That `setupkvm` gets through says that the frame buffer lies
    where nothing else is mapped. -/

namespace Xv6.Vm

open Xv6.Schemes.X86 (Word)
open Xv6.Memory (Frame Phys)

variable {a last pa perm sz : Word} {v k fuel : ℕ} {kend data : Word} {gpu : Gpu}
variable {m m' m'' : Phys} {d d' d'' P : Dir} {b : Bool}

/-! ### Pages off the free list -/

/-- What a function leaves that fills in a page directory: its pages come off the front of the free
    list, and no other page is written. -/
structure Takes (m : Phys) (d : Dir) (m' : Phys) (d' : Dir) : Prop where
  frame : d'.frame = d.frame
  rest : m'.freelist <:+ m.freelist
  kept : ∀ f, f ∉ m.freelist → m'.page f = m.page f
  tables : ∀ i t, d'.pde i = some t →
    t.frame ∈ m.freelist ∨ ∃ t', d.pde i = some t' ∧ t'.frame = t.frame

theorem Takes.refl : Takes m d m d :=
  ⟨rfl, List.suffix_refl _, fun _ _ => rfl, fun _ t ht => .inr ⟨t, ht, rfl⟩⟩

theorem Takes.trans (h : Takes m d m' d') (h' : Takes m' d' m'' d'') : Takes m d m'' d'' where
  frame := h'.frame.trans h.frame
  rest := h'.rest.trans h.rest
  kept f hf := (h'.kept f fun hm => hf (h.rest.subset hm)).trans (h.kept f hf)
  tables := by
    intro i t ht
    rcases h'.tables i t ht with hm | ⟨t', ht', hframe⟩
    · exact .inl (h.rest.subset hm)
    · rcases h.tables i t' ht' with hm | ⟨t'', ht'', hframe'⟩
      · exact .inl (hframe ▸ hm)
      · exact .inr ⟨t'', ht'', hframe'.trans hframe⟩

theorem kalloc_some {f : Frame} (h : Memory.kalloc m = some (f, m')) :
    m.freelist = f :: m'.freelist ∧ m'.page = m.page := by
  unfold Memory.kalloc at h
  split at h
  · rename_i r next hl
    simp only [Option.some.injEq, Prod.mk.injEq] at h
    obtain ⟨rfl, rfl⟩ := h
    exact ⟨hl, rfl⟩
  · exact absurd h (by simp)

theorem walk_takes (h : walkpgdir m d a true = some (m', d')) : Takes m d m' d' := by
  unfold walkpgdir at h
  cases ht : d.pde (PDX a) with
  | some t =>
    simp only [ht, Option.some.injEq, Prod.mk.injEq] at h
    obtain ⟨rfl, rfl⟩ := h
    exact .refl
  | none =>
    simp only [ht, if_true] at h
    cases hk : Memory.kalloc m with
    | none => simp [hk] at h
    | some y =>
      obtain ⟨f, m₀⟩ := y
      obtain ⟨hfree, hpage⟩ := kalloc_some hk
      simp only [hk, Option.some.injEq, Prod.mk.injEq] at h
      obtain ⟨rfl, rfl⟩ := h
      refine ⟨rfl, ?_, fun g hg => ?_, fun i t hi => ?_⟩
      · rw [hfree]
        exact List.suffix_cons f _
      · have hne : g ≠ f := fun he => hg (by rw [he, hfree]; exact List.mem_cons_self)
        exact (Function.update_of_ne hne ..).trans (congrFun hpage g)
      · rcases eq_or_ne i (PDX a) with rfl | hne
        · simp only [Function.update_self, Option.some.injEq] at hi
          subst hi
          exact .inl (hfree ▸ List.mem_cons_self)
        · simp only [Function.update_of_ne hne] at hi
          exact .inr ⟨t, hi, rfl⟩

theorem set_takes (e : Word) : Takes m d m (d.set a e) where
  frame := rfl
  rest := List.suffix_refl _
  kept _ _ := rfl
  tables := by
    intro i t ht
    have hframe := Dir.table_set d a e i
    rw [ht, Option.map_some] at hframe
    exact .inr (Option.map_eq_some_iff.mp hframe.symm)

/-- One round of `mappages`. -/
theorem mapLoop_succ (h : mapLoop perm last (fuel + 1) a pa m d = .returns (true, m', d')) :
    ∃ m₁ d₁, walkpgdir m d a true = some (m₁, d₁) ∧ d.pte a &&& PTE_P = 0 ∧
      (a = last → m' = m₁ ∧ d' = d₁.set a (pa ||| perm ||| PTE_P)) ∧
      (a ≠ last → mapLoop perm last fuel (a + PGSIZE) (pa + PGSIZE) m₁
        (d₁.set a (pa ||| perm ||| PTE_P)) = .returns (true, m', d')) := by
  rw [mapLoop] at h
  cases hw : walkpgdir m d a true with
  | none => simp [hw] at h
  | some y =>
    obtain ⟨m₁, d₁⟩ := y
    have hsame : d₁.pte a = d.pte a := (walk_some hw).2.outside a not_false
    simp only [hw] at h
    split at h
    · cases h
    · rename_i hp
      rw [hsame] at hp
      refine ⟨m₁, d₁, rfl, not_not.mp hp, fun he => ?_, fun hne => ?_⟩
      · rw [if_pos he] at h
        simp only [Ends.returns.injEq, Prod.mk.injEq] at h
        exact ⟨h.2.1.symm, h.2.2.symm⟩
      · rwa [if_neg hne] at h

theorem mapLoop_takes (h : mapLoop perm last fuel a pa m d = .returns (true, m', d')) :
    Takes m d m' d' := by
  induction fuel generalizing a pa m d with
  | zero => cases h
  | succ fuel ih =>
    obtain ⟨m₁, d₁, hw, -, hend, hgo⟩ := mapLoop_succ h
    have hstep := (walk_takes hw).trans (set_takes (a := a) (pa ||| perm ||| PTE_P))
    by_cases he : a = last
    · obtain ⟨rfl, rfl⟩ := hend he
      exact hstep
    · exact hstep.trans (ih (hgo he))

theorem mapKernel_takes {ks : List Kmap} (h : mapKernel ks m d = .returns (true, m', d')) :
    Takes m d m' d' := by
  induction ks generalizing m d with
  | nil =>
    simp only [mapKernel, Ends.returns.injEq, Prod.mk.injEq] at h
    obtain ⟨-, rfl, rfl⟩ := h
    exact .refl
  | cons k ks ih =>
    rw [mapKernel] at h
    split at h
    · rename_i m₁ d₁ hmap
      exact (mapLoop_takes hmap).trans (ih h)
    · rename_i hno
      exact absurd h (fun he => hno _ _ he)

/-! ### setupkvm gets through -/

theorem present_or (x : Word) : (x ||| PTE_P) &&& PTE_P ≠ 0 := by
  intro h
  have hbit := congrArg (fun y => y.getLsbD 0) h
  simp [PTE_P] at hbit

/-- No function clears an entry. -/
theorem mapLoop_present (h : mapLoop perm last fuel a pa m d = .returns (true, m', d')) {x : Word}
    (hx : d.pte x &&& PTE_P ≠ 0) : d'.pte x &&& PTE_P ≠ 0 := by
  induction fuel generalizing a pa m d with
  | zero => cases h
  | succ fuel ih =>
    obtain ⟨m₁, d₁, hw, -, hend, hgo⟩ := mapLoop_succ h
    obtain ⟨hsome, hext⟩ := walk_some hw
    have hset : (d₁.set a (pa ||| perm ||| PTE_P)).pte x &&& PTE_P ≠ 0 := by
      rw [Dir.pte_set hsome]
      split
      · exact present_or _
      · rwa [hext.outside x not_false]
    by_cases he : a = last
    · obtain ⟨-, rfl⟩ := hend he
      exact hset
    · exact ih (hgo he) hset

/-- The pages on the way to the last one were absent before, and are present afterwards. -/
theorem mapLoop_path (h : mapLoop perm last fuel a pa m d = .returns (true, m', d')) (k : ℕ)
    (hk : ∀ j < k, a + BitVec.ofNat 32 (4096 * j) ≠ last) :
    d.pte (a + BitVec.ofNat 32 (4096 * k)) &&& PTE_P = 0 ∧
      d'.pte (a + BitVec.ofNat 32 (4096 * k)) &&& PTE_P ≠ 0 := by
  induction fuel generalizing a pa m d k with
  | zero => cases h
  | succ fuel ih =>
    obtain ⟨m₁, d₁, hw, hfresh, hend, hgo⟩ := mapLoop_succ h
    obtain ⟨hsome, hext⟩ := walk_some hw
    have hset : ∀ x, (d₁.set a (pa ||| perm ||| PTE_P)).pte x &&& PTE_P = 0 →
        d.pte x &&& PTE_P = 0 := by
      intro x hx
      rw [Dir.pte_set hsome] at hx
      split at hx
      · exact absurd hx (present_or _)
      · rwa [hext.outside x not_false] at hx
    cases k with
    | zero =>
      rw [Nat.mul_zero, BitVec.add_zero]
      refine ⟨hfresh, ?_⟩
      have hput : (d₁.set a (pa ||| perm ||| PTE_P)).pte a &&& PTE_P ≠ 0 := by
        rw [Dir.pte_set hsome, if_pos rfl]
        exact present_or _
      by_cases he : a = last
      · obtain ⟨-, rfl⟩ := hend he
        exact hput
      · exact mapLoop_present (hgo he) hput
    | succ k =>
      have hshift : ∀ j, a + PGSIZE + BitVec.ofNat 32 (4096 * j) =
          a + BitVec.ofNat 32 (4096 * (j + 1)) := by
        intro j
        have hsize : PGSIZE = BitVec.ofNat 32 4096 := rfl
        rw [BitVec.add_assoc, hsize, ← BitVec.ofNat_add]
        congr 2
        omega
      have hne : a ≠ last := by
        have := hk 0 (Nat.succ_pos k)
        rwa [Nat.mul_zero, BitVec.add_zero] at this
      have hrest := ih (hgo hne) k fun j hj => by
        rw [hshift]
        exact hk (j + 1) (Nat.succ_lt_succ hj)
      rw [hshift] at hrest
      exact ⟨hset _ hrest.1, hrest.2⟩

theorem mapKernel_cons {e : Kmap} {ks : List Kmap}
    (h : mapKernel (e :: ks) m d = .returns (true, m', d')) :
    ∃ m₁ d₁, mappages m d e.virt (e.phys_end - e.phys_start) e.phys_start e.perm =
        .returns (true, m₁, d₁) ∧ mapKernel ks m₁ d₁ = .returns (true, m', d') := by
  rw [mapKernel] at h
  split at h
  · exact ⟨_, _, ‹_›, h⟩
  · rename_i hno
    exact absurd h (fun he => hno _ _ he)

/-- What `mappages` does to the pages from `s` on, whose last one is `t`. -/
theorem mappages_path {e : Kmap} {s t : ℕ}
    (h : mappages m d e.virt (e.phys_end - e.phys_start) e.phys_start e.perm =
      .returns (true, m', d')) (hs : e.first = s) (ht : e.final = t) (k : ℕ)
    (hk : ∀ j < k, (s + j) % 2 ^ 20 ≠ t) :
    d.pte (addr (s + k)) &&& PTE_P = 0 ∧ d'.pte (addr (s + k)) &&& PTE_P ≠ 0 := by
  have hlast : t < 2 ^ 20 := ht ▸ pageOf_lt _
  have haddr : ∀ j, addr s + BitVec.ofNat 32 (4096 * j) = addr (s + j) := by
    intro j
    have hsum : s * 4096 + 4096 * j = (s + j) * 4096 := by omega
    unfold addr
    rw [← BitVec.ofNat_add, hsum]
  unfold mappages at h
  rw [PGROUNDDOWN_eq, PGROUNDDOWN_eq] at h
  have hrun : mapLoop e.perm (addr t) Memory.NPAGES (addr s) e.phys_start m d =
      .returns (true, m', d') := by
    rw [← hs, ← ht]
    exact h
  have := mapLoop_path hrun k fun j hj he => ?_
  · rwa [haddr] at this
  · rw [haddr] at he
    have he := congrArg BitVec.toNat he
    unfold addr at he
    rw [BitVec.toNat_ofNat, BitVec.toNat_ofNat] at he
    have := hk j hj
    omega

theorem setupkvm_some (h : setupkvm kend data gpu m = .returns (some d, m')) :
    ∃ f m₀, Memory.kalloc m = some (f, m₀) ∧
      mapKernel (kmap data gpu) (m₀.memset f 0) ⟨f, fun _ => none⟩ = .returns (true, m', d) := by
  unfold setupkvm at h
  cases hk : Memory.kalloc m with
  | none => simp [hk] at h
  | some y =>
    obtain ⟨f, m₀⟩ := y
    have hphys : ¬ P2V PHYSTOP > DEVSPACE := by decide
    simp only [hk, if_neg hphys] at h
    split at h
    · rename_i m₁ d₁ hrun
      simp only [Ends.returns.injEq, Prod.mk.injEq, Option.some.injEq] at h
      obtain ⟨rfl, rfl⟩ := h
      exact ⟨f, m₀, rfl, hrun⟩
    · split at h <;> simp at h
    · cases h
    · cases h

/-- A frame buffer that is empty or reaches below the devices of the PCI bus runs into pages that
    are mapped. -/
theorem fits_of_setupkvm (h : setupkvm kend data gpu m = .returns (some d, m')) : Fits gpu := by
  obtain ⟨f, m₀, -, hrun⟩ := setupkvm_some h
  unfold kmap at hrun
  obtain ⟨m₁, d₁, hio, hrun⟩ := mapKernel_cons hrun
  obtain ⟨m₂, d₂, htext, hrun⟩ := mapKernel_cons hrun
  obtain ⟨m₃, d₃, hdata, hrun⟩ := mapKernel_cons hrun
  obtain ⟨m₄, d₄, hvram, hrun⟩ := mapKernel_cons hrun
  obtain ⟨m₅, d₅, hpci, hrun⟩ := mapKernel_cons hrun
  have hlow : d₃.pte (addr 0x80000) &&& PTE_P ≠ 0 := by
    have := (mappages_path hio span_io.first span_io.final 0 (by omega)).2
    exact mapLoop_present hdata (mapLoop_present htext this)
  have hfinal : (vram gpu).final = 0xFDFFF := by
    have hlast : DEVSPACE - gpu.vram_size + (gpu.pvram_addr + gpu.vram_size - gpu.pvram_addr) - 1 =
        0xFDFFFFFF := by
      unfold DEVSPACE
      bv_omega
    unfold Kmap.final pageOf vram
    simp only [hlast]
    rfl
  have hfirst : (vram gpu).first = (DEVSPACE - gpu.vram_size).toNat / 4096 := rfl
  generalize hs : (DEVSPACE - gpu.vram_size).toNat / 4096 = s at hfirst
  have hlt := (DEVSPACE - gpu.vram_size).isLt
  have habove : s < 0xFE000 := by
    by_contra hge
    have hpath := (mappages_path hvram hfirst hfinal (0x180000 - s) (by omega)).1
    have hwrap : addr (s + (0x180000 - s)) = addr 0x80000 := by
      have hsum : s + (0x180000 - s) = 0x180000 := by omega
      rw [hsum]
      rfl
    rw [hwrap] at hpath
    exact hlow hpath
  have hbelow : 0xD0000 ≤ s := by
    by_contra hge
    have hpath := (mappages_path hvram hfirst hfinal (0xCFFFF - s) (by omega)).2
    have hsum : s + (0xCFFFF - s) = 0xCFFFF := by omega
    rw [hsum] at hpath
    exact hpath (mappages_path hpci span_pci.first span_pci.final 0xFFFF (by omega)).1
  unfold Fits
  unfold DEVSPACE at hs hlt ⊢
  bv_omega

/-- What `setupkvm` leaves is its own, and has nothing below `KERNBASE`. -/
structure Blank (m : Phys) (d : Dir) (m' : Phys) : Prop where
  dir : d.frame ∈ m.freelist
  tables : ∀ i t, d.pde i = some t → t.frame ∈ m.freelist
  rest : m'.freelist <:+ m.freelist
  kept : ∀ f, f ∉ m.freelist → m'.page f = m.page f
  user : ∀ x, pageOf x < 0x80000 → d.pte x = 0

theorem setupkvm_blank (hl : Linked kend data)
    (h : setupkvm kend data gpu m = .returns (some d, m')) : Blank m d m' := by
  have hg := fits_of_setupkvm h
  obtain ⟨f, m₀, hk, hrun⟩ := setupkvm_some h
  obtain ⟨hfree, hpage⟩ := kalloc_some hk
  have htakes := mapKernel_takes hrun
  obtain ⟨b, m₁, d₁, hrun', hext, -⟩ := mapKernel_spec (m := m₀.memset f 0)
    (d := ⟨f, fun _ => none⟩) (kmap data gpu) (kmap_spans hl hg) fun _ _ x _ _ => by
      exact BitVec.zero_and
  rw [hrun] at hrun'
  simp only [Ends.returns.injEq, Prod.mk.injEq] at hrun'
  obtain ⟨-, rfl, rfl⟩ := hrun'
  have hsub : m₀.freelist <:+ m.freelist := by
    rw [hfree]
    exact List.suffix_cons f _
  have hmem : f ∈ m.freelist := by
    rw [hfree]
    exact List.mem_cons_self
  refine ⟨?_, fun i t ht => ?_, htakes.rest.trans hsub, fun g hg => ?_, fun x hx => ?_⟩
  · rw [htakes.frame]
    exact hmem
  · rcases htakes.tables i t ht with ht | ⟨t', ht', -⟩
    · exact hsub.subset ht
    · cases ht'
  · have hne : g ≠ f := fun he => hg (he ▸ hmem)
    rw [htakes.kept g fun hm => hg (hsub.subset hm), ← hpage]
    exact Function.update_of_ne hne ..
  · rw [hext.outside x ?_]
    · rfl
    · rintro ⟨k, hk, hlow, -⟩
      have := kmap_above hl hg k hk
      omega

/-! ### One page -/

/-- The page that an entry maps. -/
def mapped (e : Word) : Frame := frameOf (PTE_ADDR e)

/-- The entry of the copy: another page, and the flags of the parent. -/
def copyOf (f : Frame) (e : Word) : Word := BitVec.ofNat 32 (f * 4096) ||| PTE_FLAGS e ||| PTE_P

theorem copyOf_spec {f : ℕ} {e : Word} (hf : f < 2 ^ 20) (he : e &&& PTE_P ≠ 0) :
    copyOf f e &&& PTE_P ≠ 0 ∧ PTE_FLAGS (copyOf f e) = PTE_FLAGS e ∧ mapped (copyOf f e) = f := by
  have hbit : e.getLsbD 0 = true := by
    by_contra hno
    refine he (BitVec.eq_of_getLsbD_eq fun i hi => ?_)
    rw [BitVec.getLsbD_and]
    rcases Nat.eq_zero_or_pos i with rfl | hpos
    · rw [Bool.eq_false_of_not_eq_true hno]
      simp
    · simp [PTE_P, hpos.ne']
  have hflag : PTE_FLAGS e ||| PTE_P = PTE_FLAGS e := by
    refine BitVec.eq_of_getLsbD_eq fun i hi => ?_
    unfold PTE_FLAGS PTE_P
    rw [BitVec.getLsbD_or, BitVec.getLsbD_and]
    rcases Nat.eq_zero_or_pos i with rfl | hpos
    · simp [hbit]
    · simp [hpos.ne']
  have haddr : (BitVec.ofNat 32 (f * 4096) : Word).toNat = f * 4096 := by
    rw [BitVec.toNat_ofNat, Nat.mod_eq_of_lt (by omega)]
  have hzero : (BitVec.ofNat 32 (f * 4096) : Word) &&& 0xFFF = 0 :=
    and_aligned (by decide) (by rw [haddr]; exact Nat.mul_mod_left f 4096)
  have hlow : (e &&& 0xFFF) &&& ~~~(0xFFF : Word) = 0 := by
    rw [BitVec.and_assoc, BitVec.and_not_self]
    exact BitVec.and_zero
  refine ⟨present_or _, ?_, ?_⟩
  · unfold copyOf
    rw [BitVec.or_assoc, hflag]
    unfold PTE_FLAGS
    rw [BitVec.and_or_distrib_right, hzero, BitVec.and_assoc, BitVec.and_self]
    exact BitVec.zero_or
  · have hframe : PTE_ADDR (copyOf f e) = BitVec.ofNat 32 (f * 4096) := by
      unfold copyOf
      rw [BitVec.or_assoc, hflag]
      unfold PTE_ADDR PTE_FLAGS
      rw [BitVec.and_or_distrib_right, hlow]
      refine BitVec.or_zero.trans (BitVec.eq_of_toNat_eq ?_)
      rw [toNat_and_not, haddr, Nat.mul_div_cancel f (by decide)]
    unfold mapped frameOf
    rw [hframe, haddr, Nat.mul_div_cancel f (by decide)]

/-- `mappages` of the page at an address. -/
theorem mappages_page (hv : v < 2 ^ 20) : mappages m d (addr v) PGSIZE pa perm =
    mapLoop perm (addr v) Memory.NPAGES (addr v) pa m d := by
  have hlast : (addr v + PGSIZE - 1).toNat / 4096 = v := by
    have haddr := toNat_addr hv
    unfold PGSIZE
    bv_omega
  unfold mappages
  rw [PGROUNDDOWN_eq, PGROUNDDOWN_eq, pageOf_addr hv]
  unfold pageOf
  rw [hlast]

/-- What the copy of a page does. -/
structure PageCopied (e : Word) (v : ℕ) (m : Phys) (d : Dir) (f : Frame) (m' : Phys) (d' : Dir) :
    Prop where
  takes : Takes m d m' d'
  fresh : f ∈ m.freelist
  taken : f ∉ m'.freelist
  same : m'.page f = m.page (mapped e)
  entry : d'.pte (addr v) = copyOf f e
  outside : ∀ x, pageOf x ≠ v → d'.pte x = d.pte x

theorem copyPage_spec {e : Word} (hv : v < 2 ^ 20) (hnd : m.freelist.Nodup)
    (h : copyPage e (addr v) m d = .returns (true, m', d')) :
    ∃ f, PageCopied e v m d f m' d' := by
  unfold copyPage at h
  cases hk : Memory.kalloc m with
  | none => simp [hk] at h
  | some y =>
    obtain ⟨f, m₀⟩ := y
    obtain ⟨hfree, hpage⟩ := kalloc_some hk
    simp only [hk, mappages_page hv] at h
    obtain ⟨m₁, d₁, hw, -, hend, -⟩ := mapLoop_succ h
    obtain ⟨rfl, rfl⟩ := hend rfl
    obtain ⟨hsome, hext⟩ := walk_some hw
    have htakes := walk_takes hw
    rw [hfree] at hnd
    have hf : f ∉ m₀.freelist := (List.nodup_cons.mp hnd).1
    have hsub : m₀.freelist <:+ m.freelist := by
      rw [hfree]
      exact List.suffix_cons f _
    have hmem : f ∈ m.freelist := by
      rw [hfree]
      exact List.mem_cons_self
    refine ⟨f, ⟨htakes.frame, htakes.rest.trans hsub, fun g hg => ?_, fun i t ht => ?_⟩, hmem,
      fun hm => hf (htakes.rest.subset hm), ?_, ?_, fun x hx => ?_⟩
    · have hne : g ≠ f := fun he => hg (he ▸ hmem)
      rw [htakes.kept g fun hm => hg (hsub.subset hm), ← hpage]
      exact Function.update_of_ne hne ..
    · have hboth := htakes.trans (set_takes (a := addr v) (copyOf f e))
      exact (hboth.tables i t ht).imp_left fun hm => hsub.subset hm
    · rw [htakes.kept f hf, ← hpage]
      exact Function.update_self ..
    · rw [Dir.pte_set hsome, if_pos rfl]
      rfl
    · rw [Dir.pte_set hsome, pageOf_addr hv, if_neg hx, hext.outside x not_false]

/-! ### All pages -/

/-- One round of the loop. -/
theorem copyLoop_succ (hlt : addr v < sz) (hv : v + 1 < 2 ^ 20)
    (h : copyLoop P sz (fuel + 1) (addr v) m d = .returns (true, m', d')) :
    P.pte (addr v) &&& PTE_P ≠ 0 ∧ ∃ m₁ d₁,
      copyPage (P.pte (addr v)) (addr v) m d = .returns (true, m₁, d₁) ∧
      copyLoop P sz fuel (addr (v + 1)) m₁ d₁ = .returns (true, m', d') := by
  rw [copyLoop, if_pos hlt] at h
  split at h
  · cases h
  · split at h
    · cases h
    · rename_i hp
      split at h
      · rename_i m₁ d₁ hpage
        rw [addr_add hv] at h
        exact ⟨hp, m₁, d₁, hpage, h⟩
      · rename_i hno
        exact absurd h (fun he => hno _ _ he)

/-- The pages from `v` on are copied, and nothing else happens. -/
structure Copied (P : Dir) (sz : Word) (v : ℕ) (m : Phys) (d : Dir) (m' : Phys) (d' : Dir) :
    Prop where
  takes : Takes m d m' d'
  outside : ∀ x, ¬ (v ≤ pageOf x ∧ pageOf x * 4096 < sz.toNat) → d'.pte x = d.pte x
  page : ∀ x, v ≤ x → x * 4096 < sz.toNat → P.pte (addr x) &&& PTE_P ≠ 0 ∧
    ∃ f ∈ m.freelist, d'.pte (addr x) = copyOf f (P.pte (addr x)) ∧
      m'.page f = m.page (mapped (P.pte (addr x)))
  distinct : ∀ x y, v ≤ x → x < y → y * 4096 < sz.toNat →
    mapped (d'.pte (addr x)) ≠ mapped (d'.pte (addr y))

theorem copyLoop_copied (hmax : sz.toNat ≤ 2 ^ 31) (hv : v ≤ 2 ^ 19) (hnd : m.freelist.Nodup)
    (hsmall : ∀ f ∈ m.freelist, f < (2 ^ 20 : ℕ))
    (hsrc : ∀ x, x * 4096 < sz.toNat → mapped (P.pte (addr x)) ∉ m.freelist)
    (h : copyLoop P sz fuel (addr v) m d = .returns (true, m', d')) :
    Copied P sz v m d m' d' := by
  induction fuel generalizing v m d with
  | zero => cases h
  | succ fuel ih =>
    have haddr := toNat_addr (x := v) (by omega)
    by_cases hlt : v * 4096 < sz.toNat
    · have hword : addr v < sz := by
        rw [BitVec.lt_def, haddr]
        exact hlt
      obtain ⟨hp, m₁, d₁, hpage, hrest⟩ := copyLoop_succ hword (by omega) h
      obtain ⟨f, hcopy⟩ := copyPage_spec (by omega) hnd hpage
      have hf := hsmall f hcopy.fresh
      have hsub := hcopy.takes.rest.subset
      have hnd₁ := hnd.sublist hcopy.takes.rest.sublist
      have hnext := ih (v := v + 1) (by omega) hnd₁ (fun g hg => hsmall g (hsub hg))
        (fun x hx hm => hsrc x hx (hsub hm)) hrest
      have hfirst : d'.pte (addr v) = copyOf f (P.pte (addr v)) := by
        rw [hnext.outside _ (by rw [pageOf_addr (by omega)]; omega), hcopy.entry]
      refine ⟨hcopy.takes.trans hnext.takes, fun x hx => ?_, fun x hvx hx => ?_,
        fun x y hvx hxy hy => ?_⟩
      · rw [hnext.outside x (by omega), hcopy.outside x]
        rintro rfl
        exact hx ⟨le_rfl, hlt⟩
      · rcases hvx.eq_or_lt with rfl | hvx
        · refine ⟨hp, f, hcopy.fresh, hfirst, ?_⟩
          rw [hnext.takes.kept f hcopy.taken, hcopy.same]
        · obtain ⟨hpx, g, hg, hentry, hsame⟩ := hnext.page x hvx hx
          exact ⟨hpx, g, hsub hg, hentry, hsame.trans (hcopy.takes.kept _ (hsrc x hx))⟩
      · rcases hvx.eq_or_lt with rfl | hvx
        · obtain ⟨hpy, g, hg, hentry, -⟩ := hnext.page y hxy hy
          rw [hfirst, hentry, (copyOf_spec hf hp).2.2,
            (copyOf_spec (hsmall g (hsub hg)) hpy).2.2]
          rintro rfl
          exact hcopy.taken hg
        · exact hnext.distinct x y hvx hxy hy
    · have hstop : ¬ addr v < sz := by
        rw [BitVec.lt_def, haddr]
        exact hlt
      rw [copyLoop, if_neg hstop] at h
      simp only [Ends.returns.injEq, Prod.mk.injEq] at h
      obtain ⟨-, rfl, rfl⟩ := h
      exact ⟨.refl, fun _ _ => rfl, fun x hvx hx => by omega, fun x y hvx hxy hy => by omega⟩

/-! ### copyuvm -/

/-- The pages of an address space: the directory, the page tables, and what is mapped below
    `KERNBASE`. -/
def Dir.frames (d : Dir) : Set Frame :=
  {f | f = d.frame ∨ (∃ i t, d.pde i = some t ∧ t.frame = f) ∨
    ∃ va e, va < KERNBASE ∧ d.get va = some e ∧ mapped e = f}

/-- An address space with all pages below `sz`, none of its own pages free. -/
structure Space (m : Phys) (sz : Word) extends Dir where
  small : sz < KERNBASE
  full : ∀ va, va < sz → (toDir.get va).isSome
  apart : ∀ f ∈ toDir.frames, f ∉ m.freelist

/-- A copy of the address space `P` below `sz`: the flags and the bytes of every page, in pages of
    its own, and nothing else; with `P` as it was. -/
structure CopyOf (P : Dir) (sz : Word) (m : Phys) (d : Dir) (m' : Phys) : Prop where
  same : ∀ va, va.toNat % 4096 = 0 → va < sz → ∃ e e', P.get va = some e ∧ d.get va = some e' ∧
    PTE_FLAGS e' = PTE_FLAGS e ∧ m'.page (mapped e') = m.page (mapped e)
  distinct : ∀ va vb e e', va < KERNBASE → vb < KERNBASE → d.get va = some e →
    d.get vb = some e' → mapped e = mapped e' → pageOf va = pageOf vb
  separate : ∀ f ∈ d.frames, f ∉ P.frames
  only : ∀ va, va < KERNBASE → sz.toNat ≤ pageOf va * 4096 → d.get va = none
  parent : ∀ f ∈ P.frames, m'.page f = m.page f

theorem pte_page (d : Dir) (va : Word) : d.pte va = d.pte (addr (pageOf va)) := by
  have hidx := index_eq.mpr (pageOf_addr (pageOf_lt va))
  unfold Dir.pte
  rw [hidx.1, hidx.2]

theorem copyuvm_some (h : copyuvm kend data gpu m P sz = .returns (some d, m')) :
    ∃ d₀ m₀, setupkvm kend data gpu m = .returns (some d₀, m₀) ∧
      copyLoop P sz Memory.NPAGES (addr 0) m₀ d₀ = .returns (true, m', d) := by
  unfold copyuvm at h
  split at h
  · simp at h
  · rename_i d₀ m₀ hsetup
    refine ⟨d₀, m₀, hsetup, ?_⟩
    split at h
    · rename_i m₁ d₁ hloop
      simp only [Ends.returns.injEq, Prod.mk.injEq, Option.some.injEq] at h
      obtain ⟨rfl, rfl⟩ := h
      exact hloop
    · split at h <;> simp at h
    · cases h
    · cases h
  · cases h
  · cases h

/-- What `copyuvm` returns is a copy of the parent's user half, next to the kernel half that
    `setupkvm` makes. -/
theorem copyuvm_copies (hl : Linked kend data) (hm : Stocked kend m) (P : Space m sz)
    (h : copyuvm kend data gpu m P.toDir sz = .returns (some d, m')) :
    CopyOf P.toDir sz m d m' ∧ ∃ d₀ m₀, setupkvm kend data gpu m = .returns (some d₀, m₀) ∧
      ∀ va, KERNBASE ≤ va → d.pte va = d₀.pte va := by
  have hkern : KERNBASE.toNat = 2 ^ 31 := rfl
  have hmax : sz.toNat < 2 ^ 31 := hkern ▸ BitVec.lt_def.mp P.small
  obtain ⟨d₀, m₀, hsetup, hloop⟩ := copyuvm_some h
  have hblank := setupkvm_blank hl hsetup
  have hsub := hblank.rest.subset
  have hpte : ∀ va, va < sz → ∃ e, P.get va = some e ∧ P.pte va = e := by
    intro va hva
    obtain ⟨e, he⟩ := Option.isSome_iff_exists.mp (P.full va hva)
    refine ⟨e, he, ?_⟩
    unfold Dir.get at he
    split at he
    · exact Option.some.inj he
    · exact absurd he (by simp)
  have hfree : ∀ x, x * 4096 < sz.toNat → mapped (P.pte (addr x)) ∉ m.freelist := by
    intro x hx
    have haddr := toNat_addr (x := x) (by omega)
    have hlow : addr x < sz := by
      rw [BitVec.lt_def, haddr]
      exact hx
    obtain ⟨e, he, hpe⟩ := hpte (addr x) hlow
    rw [hpe]
    exact P.apart _ (.inr (.inr ⟨addr x, e, BitVec.lt_trans hlow P.small, he, rfl⟩))
  have hcopied := copyLoop_copied (by omega) (by omega)
    (hm.nodup.sublist hblank.rest.sublist) (fun f hf => (hm.pages f (hsub hf)).1)
    (fun x hx hf => hfree x hx (hsub hf)) hloop
  -- an entry of the copy is the copy of an entry
  have hget : ∀ va e, va < KERNBASE → d.get va = some e → pageOf va * 4096 < sz.toNat ∧
      d.pte (addr (pageOf va)) = e ∧ mapped e ∈ m.freelist := by
    intro va e hva he
    have hva : va.toNat < 2 ^ 31 := hkern ▸ BitVec.lt_def.mp hva
    have hpe : d.pte va &&& PTE_P ≠ 0 ∧ d.pte va = e := by
      unfold Dir.get at he
      split at he
      · exact ⟨‹_›, Option.some.inj he⟩
      · exact absurd he (by simp)
    have hin : pageOf va * 4096 < sz.toNat := by
      by_contra hout
      have hzero : d.pte va = 0 := by
        rw [hcopied.outside va fun hx => hout hx.2]
        refine hblank.user va ?_
        unfold pageOf
        omega
      rw [hzero] at hpe
      exact hpe.1 BitVec.zero_and
    obtain ⟨hp, f, hf, hentry, -⟩ := hcopied.page (pageOf va) (Nat.zero_le _) hin
    rw [← pte_page, hpe.2] at hentry
    refine ⟨hin, (pte_page d va).symm.trans hpe.2, ?_⟩
    rw [hentry, (copyOf_spec (hm.pages f (hsub hf)).1 hp).2.2]
    exact hsub hf
  refine ⟨⟨fun va halign hva => ?_, fun va vb e e' hva hvb he he' hsame => ?_, fun f hf hP => ?_,
    fun va hva hout => ?_, fun f hf => ?_⟩, d₀, m₀, hsetup, fun va hva => ?_⟩
  · obtain ⟨e, he, hpe⟩ := hpte va hva
    have hpage : addr (pageOf va) = va := by
      refine BitVec.eq_of_toNat_eq ?_
      rw [toNat_addr (pageOf_lt va)]
      unfold pageOf
      omega
    have hin : pageOf va * 4096 < sz.toNat := by
      rw [← toNat_addr (pageOf_lt va), hpage]
      exact hva
    obtain ⟨hp, f, hf, hentry, hsame⟩ := hcopied.page (pageOf va) (Nat.zero_le _) hin
    rw [hpage, hpe] at hp hentry hsame
    obtain ⟨hpres, hflags, hmap⟩ := copyOf_spec (hm.pages f (hsub hf)).1 hp
    refine ⟨e, copyOf f e, he, ?_, hflags, ?_⟩
    · unfold Dir.get
      rw [hentry, if_pos hpres]
    · have hsrc : mapped e ∉ m.freelist := by
        have := hfree (pageOf va) hin
        rwa [hpage, hpe] at this
      rw [hmap, hsame, hblank.kept _ hsrc]
  · obtain ⟨hin, hpe, -⟩ := hget va e hva he
    obtain ⟨hin', hpe', -⟩ := hget vb e' hvb he'
    rw [← hpe, ← hpe'] at hsame
    rcases lt_trichotomy (pageOf va) (pageOf vb) with hlt | heq | hlt
    · exact absurd hsame (hcopied.distinct _ _ (Nat.zero_le _) hlt hin')
    · exact heq
    · exact absurd hsame.symm (hcopied.distinct _ _ (Nat.zero_le _) hlt hin)
  · -- every page of the copy was free
    refine P.apart f hP ?_
    rcases hf with rfl | ⟨i, t, ht, rfl⟩ | ⟨va, e, hva, he, rfl⟩
    · rw [hcopied.takes.frame]
      exact hblank.dir
    · rcases hcopied.takes.tables i t ht with hf | ⟨t', ht', hframe⟩
      · exact hsub hf
      · rw [← hframe]
        exact hblank.tables i t' ht'
    · exact (hget va e hva he).2.2
  · cases he : d.get va with
    | none => rfl
    | some e =>
      have := (hget va e hva he).1
      omega
  · have hnot := P.apart f hf
    rw [hcopied.takes.kept f fun hf => hnot (hsub hf), hblank.kept f hnot]
  · have hva : 2 ^ 31 ≤ va.toNat := hkern ▸ BitVec.le_def.mp hva
    refine hcopied.outside va ?_
    unfold pageOf
    omega

/-! ### With enough pages -/

theorem copyPage_runs {e : Word} (hv : v < 2 ^ 20) (hfresh : d.pte (addr v) &&& PTE_P = 0)
    (hlen : 2 ≤ m.freelist.length) : ∃ m' d',
      copyPage e (addr v) m d = .returns (true, m', d') ∧
      m.freelist.length ≤ m'.freelist.length + 2 := by
  unfold copyPage
  cases hk : Memory.kalloc m with
  | none =>
    unfold Memory.kalloc at hk
    split at hk
    · exact absurd hk (by simp)
    · rename_i hnil
      rw [hnil] at hlen
      exact absurd hlen (by decide)
  | some y =>
    obtain ⟨f, m₀⟩ := y
    have hfree := congrArg List.length (kalloc_some hk).1
    rw [List.length_cons] at hfree
    simp only [mappages_page hv]
    cases hw : walkpgdir (m₀.memmove f (frameOf (PTE_ADDR e))) d (addr v) true with
    | none =>
      have hnil := congrArg List.length (walk_none hw).1
      simp only [Phys.memmove, List.length_nil] at hnil
      omega
    | some y =>
      obtain ⟨m₁, d₁⟩ := y
      obtain ⟨hsome, hext⟩ := walk_some hw
      have hstep : m₀.freelist.length ≤ m₁.freelist.length + 1 := by
        unfold walkpgdir at hw
        split at hw
        · simp only [Option.some.injEq, Prod.mk.injEq] at hw
          obtain ⟨rfl, rfl⟩ := hw
          exact Nat.le_succ _
        · simp only [if_true] at hw
          split at hw
          · simp at hw
          · rename_i hk₁
            have hfree₁ := congrArg List.length (kalloc_some hk₁).1
            rw [List.length_cons] at hfree₁
            simp only [Option.some.injEq, Prod.mk.injEq] at hw
            obtain ⟨rfl, rfl⟩ := hw
            exact hfree₁.le
      refine ⟨m₁, d₁.set (addr v) (copyOf f e), ?_, by omega⟩
      have hpages : Memory.NPAGES = 0xFFFFF + 1 := rfl
      have habs : ¬ d₁.pte (addr v) &&& PTE_P ≠ 0 := by
        rw [hext.outside _ not_false]
        exact not_not.mpr hfresh
      rw [hpages, mapLoop, hw]
      simp only [if_neg habs, if_true]
      rfl

theorem copyLoop_runs (hmax : sz.toNat ≤ 2 ^ 31) (hv : v ≤ 2 ^ 19) (hfuel : 2 ^ 19 < v + fuel)
    (hnd : m.freelist.Nodup)
    (hpres : ∀ x, v ≤ x → x * 4096 < sz.toNat → P.pte (addr x) &&& PTE_P ≠ 0)
    (hfresh : ∀ x, v ≤ x → x * 4096 < sz.toNat → d.pte (addr x) &&& PTE_P = 0)
    (hlen : 2 * ((sz.toNat + 4095) / 4096 - v) ≤ m.freelist.length) :
    ∃ m' d', copyLoop P sz fuel (addr v) m d = .returns (true, m', d') := by
  induction fuel generalizing v m d with
  | zero => omega
  | succ fuel ih =>
    have haddr := toNat_addr (x := v) (by omega)
    rw [copyLoop]
    by_cases hlt : v * 4096 < sz.toNat
    · have hword : addr v < sz := by
        rw [BitVec.lt_def, haddr]
        exact hlt
      have hp := hpres v le_rfl hlt
      obtain ⟨m₁, d₁, hpage, hlen₁⟩ := copyPage_runs (e := P.pte (addr v)) (v := v) (m := m)
        (d := d) (by omega) (hfresh v le_rfl hlt) (by omega)
      obtain ⟨f, hcopy⟩ := copyPage_spec (by omega) hnd hpage
      have htable : ∃ t, P.pde (PDX (addr v)) = some t := by
        unfold Dir.pte at hp
        split at hp
        · exact ⟨_, ‹_›⟩
        · exact absurd BitVec.zero_and hp
      obtain ⟨t, ht⟩ := htable
      obtain ⟨m₂, d₂, hrest⟩ := ih (v := v + 1) (m := m₁) (d := d₁) (by omega) (by omega)
        (hnd.sublist hcopy.takes.rest.sublist) (fun x hvx hx => hpres x (by omega) hx)
        (fun x hvx hx => by
          rw [hcopy.outside _ (by rw [pageOf_addr (by omega)]; omega)]
          exact hfresh x (by omega) hx) (by omega)
      refine ⟨m₂, d₂, ?_⟩
      rw [if_pos hword]
      simp only [walkpgdir, ht, if_neg hp, hpage, addr_add (x := v) (by omega), hrest]
    · have hstop : ¬ addr v < sz := by
        rw [BitVec.lt_def, haddr]
        exact hlt
      exact ⟨m, d, if_neg hstop⟩

/-- `setupkvm` needs a page for the directory and at most 1024 page tables. -/
theorem setupkvm_runs (hl : Linked kend data) (hg : Fits gpu) (hlen : 1025 ≤ m.freelist.length) :
    ∃ d m', setupkvm kend data gpu m = .returns (some d, m') ∧
      m.freelist.length ≤ m'.freelist.length + 1025 := by
  have hphys : ¬ P2V PHYSTOP > DEVSPACE := by decide
  have hmissing : missing (⟨0, fun _ => none⟩ : Dir) = 1024 := by
    have hall : missing (⟨0, fun _ => none⟩ : Dir) = indices.length :=
      List.countP_eq_length.mpr fun i _ => rfl
    rw [hall]
    unfold indices
    rw [List.length_map, List.length_range]
  unfold setupkvm
  cases hk : Memory.kalloc m with
  | none =>
    unfold Memory.kalloc at hk
    split at hk
    · exact absurd hk (by simp)
    · rename_i hnil
      rw [hnil] at hlen
      exact absurd hlen (by decide)
  | some y =>
    obtain ⟨f, m₀⟩ := y
    have hfree := congrArg List.length (kalloc_some hk).1
    rw [List.length_cons] at hfree
    obtain ⟨b, m₁, d₁, hrun, hext, hfail, -⟩ := mapKernel_spec (m := m₀.memset f 0)
      (d := ⟨f, fun _ => none⟩) (kmap data gpu) (kmap_spans hl hg) fun _ _ x _ _ => by
        exact BitVec.zero_and
    have hcount := hext.count
    have hempty : missing (⟨f, fun _ => none⟩ : Dir) = 1024 := hmissing
    rw [hempty] at hcount
    simp only [Phys.memset] at hcount
    simp only [if_neg hphys, hrun]
    cases b with
    | true => exact ⟨d₁, m₁, rfl, by omega⟩
    | false =>
      obtain ⟨hnil, hpos⟩ := hfail rfl
      have hnil := congrArg List.length hnil
      rw [List.length_nil] at hnil
      omega

/-- `copyuvm` gets through with a page and a page table for each page of the parent. -/
theorem copyuvm_runs (hl : Linked kend data) (hg : Fits gpu) (hm : Stocked kend m)
    (P : Space m sz) (hlen : 1025 + 2 * ((sz.toNat + 4095) / 4096) ≤ m.freelist.length) :
    ∃ d m', copyuvm kend data gpu m P.toDir sz = .returns (some d, m') := by
  have hkern : KERNBASE.toNat = 2 ^ 31 := rfl
  have hmax : sz.toNat < 2 ^ 31 := hkern ▸ BitVec.lt_def.mp P.small
  obtain ⟨d₀, m₀, hsetup, hlen₀⟩ := setupkvm_runs hl hg (m := m) (by omega)
  have hblank := setupkvm_blank hl hsetup
  have hpages : Memory.NPAGES = 2 ^ 20 := rfl
  have hfuel : 2 ^ 19 < 0 + Memory.NPAGES := by omega
  have hpres : ∀ x, 0 ≤ x → x * 4096 < sz.toNat → P.toDir.pte (addr x) &&& PTE_P ≠ 0 := by
    intro x _ hx
    have hlow : addr x < sz := by
      rw [BitVec.lt_def, toNat_addr (by omega)]
      exact hx
    have hget := P.full (addr x) hlow
    unfold Dir.get at hget
    split at hget
    · assumption
    · cases hget
  have hfresh : ∀ x, 0 ≤ x → x * 4096 < sz.toNat → d₀.pte (addr x) &&& PTE_P = 0 := by
    intro x _ hx
    rw [hblank.user (addr x) (by rw [pageOf_addr (by omega)]; omega)]
    exact BitVec.zero_and
  have hroom : 2 * ((sz.toNat + 4095) / 4096 - 0) ≤ m₀.freelist.length := by omega
  obtain ⟨m', d, hloop⟩ := copyLoop_runs hmax.le (Nat.zero_le _) hfuel
    (hm.nodup.sublist hblank.rest.sublist) hpres hfresh hroom
  have hzero : addr 0 = 0 := rfl
  rw [hzero] at hloop
  refine ⟨d, m', ?_⟩
  unfold copyuvm
  simp only [hsetup, hloop]

/-- A directory with the page 0, readable and writable for the user. -/
def init : Dir where
  frame := 0x200
  pde i := if i = 0 then some ⟨0x201, fun j => if j = 0 then 0x202007 else 0⟩ else none

theorem init_get {va e : Word} (h : init.get va = some e) : e = 0x202007 := by
  have hpte : init.pte va = 0x202007 ∨ init.pte va = 0 := by
    unfold Dir.pte init
    by_cases hi : PDX va = 0
    · by_cases hj : PTX va = 0
      · simp only [if_pos hi, if_pos hj, true_or]
      · simp only [if_pos hi, if_neg hj, or_true]
    · simp only [if_neg hi, or_true]
  unfold Dir.get at h
  rcases hpte with hp | hp <;> rw [hp] at h
  · exact (Option.some.inj h).symm
  · exact absurd h (by simp)

def initSpace : Space bootPages 0x1000 where
  toDir := init
  small := by decide
  full va hva := by
    have hva : va.toNat < 0x1000 := BitVec.lt_def.mp hva
    have hi : PDX va = 0 := by
      refine BitVec.eq_of_toNat_eq ?_
      rw [toNat_PDX]
      exact Nat.div_eq_of_lt (by omega)
    have hj : PTX va = 0 := by
      refine BitVec.eq_of_toNat_eq ?_
      rw [toNat_PTX]
      have hzero : (0 : Index).toNat = 0 := rfl
      omega
    unfold Dir.get Dir.pte init
    simp only [if_pos hi, if_pos hj]
    decide
  apart f hf hfree := by
    have hin := List.mem_range'_1.mp hfree
    have hlow : f < 0x400 := by
      rcases hf with rfl | ⟨i, t, ht, rfl⟩ | ⟨va, e, -, he, rfl⟩
      · decide
      · simp only [init] at ht
        split at ht
        · obtain rfl := Option.some.inj ht
          decide
        · cases ht
      · rw [init_get he]
        decide
    exact absurd hlow (not_lt.mpr hin.1)

/-- The first process, with 1100 free pages. -/
theorem copyuvm_copies_init : ∃ d m',
    copyuvm 0x80200000 0x80110000 screen bootPages initSpace.toDir 0x1000 = .returns (some d, m') ∧
      CopyOf initSpace.toDir 0x1000 bootPages d m' := by
  have hm := stocked_bootPages linked_small.small
  have hlen : bootPages.freelist.length = 1100 := List.length_range'
  have hpages : ((0x1000 : Word).toNat + 4095) / 4096 = 1 := rfl
  obtain ⟨d, m', h⟩ := copyuvm_runs linked_small fits_screen hm initSpace (by omega)
  exact ⟨d, m', h, (copyuvm_copies linked_small hm initSpace h).1⟩

end Xv6.Vm
