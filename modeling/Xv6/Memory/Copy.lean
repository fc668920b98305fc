import Xv6.Memory.Growproc

/-! @src vm.c | name:setupkvm, freevm and copyuvm | layer:proof

    An address space is built next to pages in use elsewhere and taken apart again without touching
    them. `copyuvm` finds every page it asks for if the parent's address space is dense. -/

namespace Xv6.Memory
open Xv6.Schemes
open Xv6.Schemes.X86 (Word)

/-- None of the pages `O` is free. -/
structure Clean (m : Phys) (O : Set Frame) : Prop where
  nodup : m.freelist.Nodup
  elsewhere : ∀ f ∈ O, f ∉ m.freelist

/-- The kernel mappings are above `KERNBASE` and do not overlap. -/
structure KmapOk (kmap : List Kmap) : Prop where
  above : ∀ k ∈ kmap, UPAGES ≤ k.v
  disjoint : kmap.Pairwise fun a b => a.v + a.n ≤ b.v ∨ b.v + b.n ≤ a.v

section

variable {m m₁ : Phys} {d P : Pgdir} {O : Set Frame} {f : Frame}

theorem Held.clean (h : Held m d O) : Clean m O := ⟨h.nodup, h.owns.elsewhere⟩

theorem Held.mono {O' : Set Frame} (h : Held m d O) (hsub : O' ⊆ O) : Held m d O' :=
  ⟨h.nodup, h.owns.mono hsub, h.kernel⟩

/-! ### freevm -/

theorem kfree_owns {holds : Part → Option Frame} {i : Part} (hnd : m.freelist.Nodup)
    (h : Owns {f | f ∈ m.freelist} holds O) (hi : holds i = some f) :
    (kfree m f).freelist.Nodup ∧ f ∉ O ∧
      Owns {g | g ∈ (kfree m f).freelist} (Function.update holds i none) O := by
  have hf : f ∉ O := h.apart i f hi
  have hset : {g | g ∈ (kfree m f).freelist} = insert f {g | g ∈ m.freelist} := by
    ext g
    simp [kfree, Phys.memset]
  exact ⟨List.nodup_cons.mpr ⟨h.used i f hi, hnd⟩, hf, hset ▸ (h.release hi).put hf⟩

/-- The loop of `freevm`. -/
theorem freeTables_spec (d : Pgdir) (is : List ℕ) (his : is.Nodup) (holds : Part → Option Frame)
    (hnd : m.freelist.Nodup) (h : Owns {f | f ∈ m.freelist} holds O)
    (htab : ∀ i ∈ is, holds (.table i) = (d.pde i).map PageTable.frame)
    (hdir : holds .dir = some d.frame) :
    ∃ (m₁ : Phys) (holds' : Part → Option Frame),
      is.foldl (freeTable d) m = m₁ ∧ m₁.freelist.Nodup ∧ Owns {f | f ∈ m₁.freelist} holds' O ∧ holds' .dir = some d.frame ∧
      ∀ f ∈ O, m₁.page f = m.page f := by
  induction is generalizing m holds with
  | nil => exact ⟨m, holds, rfl, hnd, h, hdir, fun _ _ => rfl⟩
  | cons i is ih =>
    obtain ⟨hi, his⟩ := List.nodup_cons.mp his
    have hti := htab i List.mem_cons_self
    cases hp : d.pde i with
    | none =>
      simp only [List.foldl_cons, freeTable, hp]
      exact ih his holds hnd h (fun j hj => htab j (List.mem_cons_of_mem i hj)) hdir
    | some t =>
      rw [hp] at hti
      obtain ⟨hnd₁, hf, h₁⟩ := kfree_owns hnd h hti
      simp only [List.foldl_cons, freeTable, hp]
      obtain ⟨m₂, holds', hm, hnd₂, h₂, hdir₂, hpage⟩ := ih his _ hnd₁ h₁ (fun j hj => by
        have hne : Part.table j ≠ .table i := fun he => hi (Part.table.inj he ▸ hj)
        rw [Function.update_of_ne hne]
        exact htab j (List.mem_cons_of_mem i hj)) (by
          rw [Function.update_of_ne (by simp)]
          exact hdir)
      refine ⟨m₂, holds', hm, hnd₂, h₂, hdir₂, fun g hg => ?_⟩
      have hne : g ≠ t.frame := fun he => hf (he ▸ hg)
      exact (hpage g hg).trans (kfree_page hne)

/-- `freevm` frees no page that is in use elsewhere. -/
theorem freevm_spec (h : Held m d O) :
    Clean (freevm m d) O ∧ ∀ f ∈ O, (freevm m d).page f = m.page f := by
  obtain ⟨m₁, d₁, hd, h₁, hev, -⟩ := deallocuvm_spec h (BitVec.le_refl KERNBASE)
    (by decide : (0 : Word) ≤ KERNBASE)
  obtain ⟨m₂, holds, hm, hnd, h₂, hdir, hpage⟩ := freeTables_spec d₁ (List.range NPDENTRIES)
    List.nodup_range d₁.holds h₁.nodup h₁.owns (fun i _ => rfl) rfl
  have hfree : freevm m d = kfree m₂ d₁.frame := by
    have hfst : (deallocuvm m d KERNBASE 0).1 = 0 := by rw [deallocuvm, if_neg (by decide)]
    have hd' : deallocuvm m d KERNBASE 0 = (0, m₁, d₁) := Prod.ext hfst hd
    simp only [freevm, hd', hm]
  rw [hfree]
  obtain ⟨hnd₃, hf, h₃⟩ := kfree_owns hnd h₂ hdir
  refine ⟨⟨hnd₃, h₃.elsewhere⟩, fun g hg => ?_⟩
  have hne : g ≠ d₁.frame := fun he => hf (he ▸ hg)
  exact (kfree_page hne).trans ((hpage g hg).trans (hev.foreign g hg))

/-! ### setupkvm -/

theorem kalloc_clean (h : Clean m O) (hk : kalloc m = some (f, m₁)) :
    Clean m₁ (insert f O) ∧ f ∉ O ∧ m₁.page = m.page := by
  unfold kalloc at hk
  split at hk
  · rename_i r next hl
    obtain ⟨rfl, rfl⟩ := Prod.mk.inj (Option.some.inj hk)
    have hnd := h.nodup
    rw [hl] at hnd
    obtain ⟨hr, hnext⟩ := List.nodup_cons.mp hnd
    refine ⟨⟨hnext, ?_⟩, fun hO => h.elsewhere r hO (by simp [hl]), rfl⟩
    rintro g (rfl | hg)
    · exact hr
    · exact fun hm => h.elsewhere g hg (by simp [hl, hm])
  · exact absurd hk (by simp)

/-- An empty page directory. -/
theorem held_empty (h : Clean m (insert f O)) (hf : f ∉ O) : Held m ⟨f, fun _ => none⟩ O := by
  have hget : ∀ v, (⟨f, fun _ => none⟩ : Pgdir).get v = none := fun v => by simp [Pgdir.get]
  have hholds : ∀ i g, (⟨f, fun _ => none⟩ : Pgdir).holds i = some g → i = .dir ∧ g = f := by
    intro i g hg
    cases i with
    | dir => exact ⟨rfl, (Option.some.inj hg).symm⟩
    | table i => simp [Pgdir.holds] at hg
    | page v => simp [Pgdir.holds, hget] at hg
  refine ⟨h.nodup, ⟨?_, ?_, ?_, ?_⟩, ?_⟩
  · exact fun i j g hi hj => (hholds i g hi).1.trans (hholds j g hj).1.symm
  · exact fun i g hi => (hholds i g hi).2 ▸ h.elsewhere f (Set.mem_insert f O)
  · exact fun i g hi => (hholds i g hi).2 ▸ hf
  · exact fun g hg => h.elsewhere g (Set.mem_insert_of_mem f hg)
  · exact fun v _ e he => absurd ((hget v).symm.trans he) (by simp)

/-- The loop of `setupkvm` meets no mapping of its own, and leaves the user half alone. -/
theorem mapKernel_spec (ks : List Kmap) (hk : KmapOk ks) (h : Held m d O)
    (hnone : ∀ k ∈ ks, ∀ x, k.v ≤ x → x < k.v + k.n → d.get x = none) :
    ∃ b m₁ d₁, mapKernel ks m d = some (b, m₁, d₁) ∧ Held m₁ d₁ O ∧
      Evolves O {x | UPAGES ≤ x} m d m₁ d₁ := by
  induction ks generalizing m d with
  | nil => exact ⟨true, m, d, rfl, h, .refl⟩
  | cons k ks ih =>
    obtain ⟨hdisj, hrest⟩ := List.pairwise_cons.mp hk.disjoint
    have habove := hk.above k List.mem_cons_self
    obtain ⟨b, m₁, d₁, hmap, h₁, hev⟩ := mappages_kernel (w := k.w) h habove
      (hnone k List.mem_cons_self) k.pa
    have hev' : Evolves O {x | UPAGES ≤ x} m d m₁ d₁ := hev.mono fun x hx => habove.trans hx.1
    cases b with
    | false => exact ⟨false, m₁, d₁, by simp [mapKernel, hmap], h₁, hev'⟩
    | true =>
      have hnone₁ : ∀ k' ∈ ks, ∀ x, k'.v ≤ x → x < k'.v + k'.n → d₁.get x = none := by
        intro k' hk' x h₂ h₃
        rw [hev.same x ?_]
        · exact hnone k' (List.mem_cons_of_mem k hk') x h₂ h₃
        · rintro ⟨h₄, h₅⟩
          rcases hdisj k' hk' with hd | hd <;> omega
      obtain ⟨b, m₂, d₂, hl, h₂, hev₂⟩ :=
        ih ⟨fun k' hk' => hk.above k' (List.mem_cons_of_mem k hk'), hrest⟩ h₁ hnone₁
      refine ⟨b, m₂, d₂, by simp [mapKernel, hmap, hl], h₂, (hev'.trans hev₂).mono ?_⟩
      exact (Set.union_self _).subset

/-- What a function that builds an address space leaves: the new one, or nothing. -/
def Built (O : Set Frame) (m m₁ : Phys) (good : Pgdir → Prop) : Option Pgdir → Prop
  | some d => Held m₁ d O ∧ (∀ f ∈ O, m₁.page f = m.page f) ∧ good d
  | none => Clean m₁ O ∧ ∀ f ∈ O, m₁.page f = m.page f

theorem setupkvm_spec {kmap : List Kmap} (hk : KmapOk kmap) (h : Clean m O) :
    ∃ r m₁, setupkvm kmap m = some (r, m₁) ∧
      Built O m m₁ (fun d => ∀ v, v < UPAGES → d.get v = none) r := by
  unfold setupkvm
  cases hka : kalloc m with
  | none => exact ⟨none, m, rfl, h, fun _ _ => rfl⟩
  | some y =>
    obtain ⟨f, m₀⟩ := y
    obtain ⟨h₀, hf, hpage⟩ := kalloc_clean h hka
    have hd : Held (m₀.memset f 0) ⟨f, fun _ => none⟩ O :=
      held_empty ⟨h₀.nodup, h₀.elsewhere⟩ hf
    have hpage₁ : ∀ g ∈ O, (m₀.memset f 0).page g = m.page g := by
      intro g hg
      have hne : g ≠ f := fun he => hf (he ▸ hg)
      rw [memset_page hne, hpage]
    obtain ⟨b, m₁, d₁, hmap, h₁, hev⟩ := mapKernel_spec kmap hk hd fun _ _ _ _ _ => rfl
    have hforeign : ∀ g ∈ O, m₁.page g = m.page g :=
      fun g hg => (hev.foreign g hg).trans (hpage₁ g hg)
    cases b with
    | true =>
      refine ⟨some d₁, m₁, by simp only [hmap], h₁, hforeign, fun v hv => ?_⟩
      rw [hev.same v (not_le.mpr hv)]
      rfl
    | false =>
      obtain ⟨hc, hfree⟩ := freevm_spec h₁
      exact ⟨none, freevm m₁ d₁, by simp only [hmap], hc,
        fun g hg => (hfree g hg).trans (hforeign g hg)⟩

/-! ### copyuvm -/

/-- The loop of `copyuvm` finds the pages of the parent, and copies them as long as it gets any. -/
theorem copyLoop_spec {sz : Word} (hmax : sz ≤ KERNBASE)
    (hP : ∀ x, x * PGSIZE < sz.toNat → ∃ e, P.get x = some e ∧ e.frame ∈ O) {fuel v : ℕ}
    (h : Held m d O) (hfuel : UPAGES ≤ v + fuel) (hnone : ∀ x ∈ pagesFrom v sz, d.get x = none) :
    ∃ b m₁ d₁, copyLoop P sz fuel v m d = some (b, m₁, d₁) ∧ Held m₁ d₁ O ∧
      Evolves O (pagesFrom v sz) m d m₁ d₁ ∧
      (b = true → ∀ x ∈ pagesFrom v sz, ∃ e f, P.get x = some e ∧
        d₁.get x = some ⟨f, e.w, e.u⟩ ∧ m₁.page f = m.page e.frame) := by
  induction fuel generalizing v m d with
  | zero =>
    refine ⟨true, m, d, rfl, h, .refl, ?_⟩
    rintro - x ⟨hv, hx⟩
    have := lt_UPAGES hmax hx
    omega
  | succ fuel ih =>
    by_cases hv : v * PGSIZE < sz.toNat
    · obtain ⟨e, he, heO⟩ := hP v hv
      have hw : walkpgdir m P v false = some (m, P) := by
        cases hp : P.pde (PDX v) with
        | some t => simp [walkpgdir, hp]
        | none => simp [Pgdir.get, hp] at he
      cases hk : kalloc m with
      | none =>
        refine ⟨false, m, d, ?_, h, .refl, fun hb => absurd hb (by decide)⟩
        rw [copyLoop, if_pos hv]
        simp only [hw, he, hk]
      | some y =>
        obtain ⟨mem, m₀⟩ := y
        obtain ⟨h₁, hf, hev₁⟩ := kalloc_scratch (V := ∅) (m₀.memmove mem e.frame) h hk rfl
          fun g hg => by simp [Phys.memmove, hg]
        have hcopy : (m₀.memmove mem e.frame).page mem = m.page e.frame := by
          have := (kalloc_held h hk).2.2
          simp [Phys.memmove, this]
        rcases mappages_user (w := e.w) (u := e.u) h₁ hf (lt_UPAGES hmax hv)
          (hnone v ⟨le_rfl, hv⟩) with hmap | ⟨m₂, d₂, hmap, h₂, hev₂, hget, hsame⟩
        · -- the page just taken is lost
          refine ⟨false, _, d, ?_, h₁.mono (Set.subset_insert mem O),
            hev₁.mono (Set.empty_subset _), fun hb => absurd hb (by decide)⟩
          rw [copyLoop, if_pos hv]
          simp only [hw, he, hk, hmap]
        · have hnone₂ : ∀ x ∈ pagesFrom (v + 1) sz, d₂.get x = none := by
            intro x hx
            have hne : x ∉ ({v} : Set ℕ) := by
              rintro rfl
              exact absurd hx.1 (Nat.not_succ_le_self x)
            rw [hev₂.same x hne]
            exact hnone x (pagesFrom_mono (Nat.le_succ v) hx)
          obtain ⟨b, m₃, d₃, hl, h₃, hev₃, hall⟩ := ih (v := v + 1) h₂ (by omega) hnone₂
          have hsub : ∅ ∪ {v} ∪ pagesFrom (v + 1) sz ⊆ pagesFrom v sz := by
            rintro x ((hx | rfl) | hx)
            · exact absurd hx (Set.notMem_empty x)
            · exact ⟨le_rfl, hv⟩
            · exact pagesFrom_mono (Nat.le_succ v) hx
          refine ⟨b, m₃, d₃, ?_, h₃, ((hev₁.trans hev₂).trans hev₃).mono hsub, ?_⟩
          · rw [copyLoop, if_pos hv]
            simp only [hw, he, hk, hmap, hl]
          · rintro hb x ⟨hx, hlim⟩
            rcases hx.eq_or_lt with rfl | hlt
            · have hout : v ∉ pagesFrom (v + 1) sz :=
                fun hm => absurd hm.1 (Nat.not_succ_le_self v)
              refine ⟨e, mem, he, (hev₃.same v hout).trans hget, ?_⟩
              rw [hev₃.kept v hout (lt_UPAGES hmax hv) _ hget, hsame, hcopy]
            · obtain ⟨e', f', he', hd', hp'⟩ := hall hb x ⟨hlt, hlim⟩
              refine ⟨e', f', he', hd', hp'.trans ?_⟩
              obtain ⟨e'', he'', hO⟩ := hP x hlim
              obtain rfl := Option.some.inj (he'.symm.trans he'')
              rw [hev₂.foreign _ hO, hev₁.foreign _ hO]
    · refine ⟨true, m, d, by rw [copyLoop, if_neg hv], h, .refl, ?_⟩
      rintro - x ⟨hx, hlim⟩
      exact absurd ((Nat.mul_le_mul_right PGSIZE hx).trans_lt hlim) hv

/-- `copyuvm` of a dense address space does not panic, and makes a dense copy or none. -/
theorem copyuvm_spec {kmap : List Kmap} {p : Proc} (hk : KmapOk kmap) (h : Clean m O)
    (hd : Dense p) (hO : ∀ x e, x < UPAGES → p.pgdir.get x = some e → e.frame ∈ O) :
    ∃ r m₁, copyuvm kmap m p.pgdir p.sz = some (r, m₁) ∧
      Built O m m₁ (fun d => Dense ⟨d, p.sz⟩) r := by
  have hle : p.sz ≤ KERNBASE := BitVec.le_of_lt hd.small
  have hP : ∀ x, x * PGSIZE < p.sz.toNat → ∃ e, p.pgdir.get x = some e ∧ e.frame ∈ O := by
    intro x hx
    have hu := lt_UPAGES hle hx
    obtain ⟨e, he⟩ := Option.isSome_iff_exists.mp ((hd.full x hu).mpr hx)
    exact ⟨e, he, hO x e hu he⟩
  obtain ⟨r, m₁, hs, hb⟩ := setupkvm_spec hk h
  unfold copyuvm
  cases r with
  | none => exact ⟨none, m₁, by simp only [hs], hb⟩
  | some d =>
    obtain ⟨hheld, hforeign, hempty⟩ := hb
    obtain ⟨b, m₂, d₂, hl, h₂, hev, hall⟩ := copyLoop_spec (v := 0) hle hP hheld
      (Nat.le_add_left_of_le (by decide : UPAGES ≤ NPAGES))
      (fun x hx => hempty x (lt_UPAGES hle hx.2))
    have hforeign₂ : ∀ f ∈ O, m₂.page f = m.page f :=
      fun f hf => (hev.foreign f hf).trans (hforeign f hf)
    cases b with
    | true =>
      refine ⟨some d₂, m₂, by simp only [hs, hl], h₂, hforeign₂, hd.small, fun v hv => ?_,
        fun v hv e he => ?_⟩
      · by_cases hin : v * PGSIZE < p.sz.toNat
        · obtain ⟨e, f, -, hf, -⟩ := hall rfl v ⟨Nat.zero_le v, hin⟩
          simp [hf, hin]
        · dsimp only
          rw [hev.same v fun hm => hin hm.2, hempty v hv]
          simpa using hin
      · by_cases hin : v * PGSIZE < p.sz.toNat
        · obtain ⟨e', f, he', hf, -⟩ := hall rfl v ⟨Nat.zero_le v, hin⟩
          obtain rfl := Option.some.inj (hf.symm.trans he)
          exact hd.writable v hv e' he'
        · rw [hev.same v fun hm => hin hm.2, hempty v hv] at he
          exact absurd he (by simp)
    | false =>
      obtain ⟨hc, hfree⟩ := freevm_spec h₂
      exact ⟨none, freevm m₂ d₂, by simp only [hs, hl], hc,
        fun g hg => (hfree g hg).trans (hforeign₂ g hg)⟩

end

end Xv6.Memory
