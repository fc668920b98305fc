import Xv6.Memory.Load

/-! @src vm.c kalloc.c | name:No physical page is lost | layer:proof

    The pages that are free together with those of an address space: a function that works on the
    address space moves pages between the two, and loses none. What `copyuvm` loses, when it gets
    no page table for a page that it has copied, is that page. -/

namespace Xv6.Memory
open Xv6.Schemes
open Xv6.Schemes.X86 (Word)

/-- The free pages. -/
def Phys.frees (m : Phys) : Set Frame := {f | f ∈ m.freelist}

/-- The free pages and those of the address space. -/
def stock (m : Phys) (d : Pgdir) : Set Frame := m.frees ∪ Taken d.holds

section

variable {m m₁ m₂ : Phys} {d d₁ P : Pgdir} {O : Set Frame} {f : Frame} {v : ℕ} {sz : Word}

theorem frees_congr (h : m₁.freelist = m.freelist) : m₁.frees = m.frees := by
  rw [Phys.frees, h, Phys.frees]

theorem frees_kalloc (h : kalloc m = some (f, m₁)) : m.frees = insert f m₁.frees := by
  unfold kalloc at h
  split at h
  · rename_i r next hl
    obtain ⟨rfl, rfl⟩ := Prod.mk.inj (Option.some.inj h)
    ext g
    simp [Phys.frees, hl]
  · exact absurd h (by simp)

theorem frees_kfree : (kfree m f).frees = insert f m.frees := by
  ext g
  simp [Phys.frees, kfree, Phys.memset]

/-! ### Page tables -/

theorem stock_walkpgdir (h : walkpgdir m d v true = some (m₁, d₁)) :
    stock m₁ d₁ = stock m d := by
  unfold walkpgdir at h
  cases hp : d.pde (PDX v) with
  | some t =>
    rw [hp] at h
    obtain ⟨rfl, rfl⟩ := Prod.mk.inj (Option.some.inj h)
    rfl
  | none =>
    cases hk : kalloc m with
    | none => simp [hp, hk] at h
    | some x =>
      obtain ⟨f, m₀⟩ := x
      simp only [hp, hk, if_true] at h
      obtain ⟨rfl, rfl⟩ := Prod.mk.inj (Option.some.inj h)
      have hnone : d.holds (.table (PDX v)) = none := by simp [Pgdir.holds, hp]
      have hholds : (d.addTable (PDX v) f).holds =
          Function.update d.holds (.table (PDX v)) (some f) := holds_addTable hp
      have htaken : Taken (d.addTable (PDX v) f).holds = insert f (Taken d.holds) := by
        rw [hholds, Taken.assign hnone]
      have hfree : (m₀.memset f 0).frees = m₀.frees := frees_congr rfl
      change (m₀.memset f 0).frees ∪ Taken (d.addTable (PDX v) f).holds = _
      rw [htaken, hfree, stock, frees_kalloc hk, Set.union_insert, Set.insert_union]

theorem walkpgdir_pde {b : Bool} (h : walkpgdir m d v b = some (m₁, d₁)) :
    (d₁.pde (PDX v)).isSome := by
  unfold walkpgdir at h
  cases hp : d.pde (PDX v) with
  | some t =>
    rw [hp] at h
    obtain ⟨-, rfl⟩ := Prod.mk.inj (Option.some.inj h)
    simp [hp]
  | none =>
    cases hk : kalloc m with
    | none => simp [hp, hk] at h
    | some x =>
      obtain ⟨f, m₀⟩ := x
      simp only [hp, hk] at h
      split at h
      · obtain ⟨-, rfl⟩ := Prod.mk.inj (Option.some.inj h)
        simp
      · exact absurd h (by simp)

/-- A page that is mapped goes to the address space. -/
theorem stock_mappages {w u b : Bool} (hv : v < UPAGES)
    (h : mappages w u 1 v f m d = some (b, m₁, d₁)) :
    b = true ∧ stock m₁ d₁ = insert f (stock m d) ∨ b = false ∧ m₁ = m ∧ d₁ = d := by
  unfold mappages at h
  cases hw : walkpgdir m d v true with
  | none =>
    rw [hw] at h
    obtain ⟨rfl, rfl, rfl⟩ : false = b ∧ m = m₁ ∧ d = d₁ := by simpa using h
    exact Or.inr ⟨rfl, rfl, rfl⟩
  | some x =>
    obtain ⟨m₀, d₀⟩ := x
    cases hg : d₀.get v with
    | some e => simp [hw, hg] at h
    | none =>
      simp only [hw, hg, mappages] at h
      obtain ⟨rfl, rfl, rfl⟩ : true = b ∧ m₀ = m₁ ∧ d₀.set v (some ⟨f, w, u⟩) = d₁ := by
        simpa using h
      have hnone : d₀.holds (.page v) = none := by simp [Pgdir.holds, hg]
      refine Or.inl ⟨rfl, ?_⟩
      rw [stock, holds_set (walkpgdir_pde hw) hv, Option.map_some, Taken.assign hnone,
        Set.union_insert]
      exact congrArg (insert f) (stock_walkpgdir hw)

theorem stock_mappages_kernel {w b : Bool} {n : ℕ} {pa : Frame} (hv : UPAGES ≤ v)
    (h : mappages w false n v pa m d = some (b, m₁, d₁)) : stock m₁ d₁ = stock m d := by
  induction n generalizing v pa m d with
  | zero =>
    obtain ⟨-, rfl, rfl⟩ : true = b ∧ m = m₁ ∧ d = d₁ := by simpa [mappages] using h
    rfl
  | succ n ih =>
    unfold mappages at h
    cases hw : walkpgdir m d v true with
    | none =>
      rw [hw] at h
      obtain ⟨-, rfl, rfl⟩ : false = b ∧ m = m₁ ∧ d = d₁ := by simpa using h
      rfl
    | some x =>
      obtain ⟨m₀, d₀⟩ := x
      cases hg : d₀.get v with
      | some e => simp [hw, hg] at h
      | none =>
        simp only [hw, hg] at h
        rw [ih (Nat.le_succ_of_le hv) h, stock, holds_set_kernel (walkpgdir_pde hw) hv]
        exact stock_walkpgdir hw

theorem stock_mapKernel {ks : List Kmap} {b : Bool} (habove : ∀ k ∈ ks, UPAGES ≤ k.v)
    (h : mapKernel ks m d = some (b, m₁, d₁)) : stock m₁ d₁ = stock m d := by
  induction ks generalizing m d with
  | nil =>
    obtain ⟨-, rfl, rfl⟩ : true = b ∧ m = m₁ ∧ d = d₁ := by simpa [mapKernel] using h
    rfl
  | cons k ks ih =>
    have hk := habove k List.mem_cons_self
    unfold mapKernel at h
    cases hm : mappages k.w false k.n k.v k.pa m d with
    | none => simp [hm] at h
    | some x =>
      obtain ⟨b₀, m₀, d₀⟩ := x
      rw [hm] at h
      cases b₀ with
      | true =>
        rw [ih (fun k' hk' => habove k' (List.mem_cons_of_mem k hk')) h]
        exact stock_mappages_kernel hk hm
      | false =>
        obtain ⟨-, rfl, rfl⟩ : false = b ∧ m₀ = m₁ ∧ d₀ = d₁ := by simpa using h
        exact stock_mappages_kernel hk hm

/-- The page tables that are present. -/
def Pgdir.tables (d : Pgdir) : Set ℕ := {i | (d.pde i).isSome}

/-- The page tables of `n` pages from `v` on. -/
def tablesOf (v n : ℕ) : Set ℕ := {i | ∃ x, v ≤ x ∧ x < v + n ∧ PDX x = i}

/-- A page directory has no entries beyond its page. -/
def Pgdir.Sized (d : Pgdir) : Prop := d.tables ⊆ {i | i < NPDENTRIES}

theorem tables_walkpgdir (h : walkpgdir m d v true = some (m₁, d₁)) :
    d₁.tables = insert (PDX v) d.tables := by
  unfold walkpgdir at h
  ext i
  cases hp : d.pde (PDX v) with
  | some t =>
    rw [hp] at h
    obtain ⟨-, rfl⟩ := Prod.mk.inj (Option.some.inj h)
    constructor
    · exact Or.inr
    · rintro (rfl | hi)
      · simp [Pgdir.tables, hp]
      · exact hi
  | none =>
    cases hk : kalloc m with
    | none => simp [hp, hk] at h
    | some x =>
      simp only [hp, hk, if_true] at h
      obtain ⟨-, rfl⟩ := Prod.mk.inj (Option.some.inj h)
      rcases eq_or_ne i (PDX v) with rfl | hne
      · simp [Pgdir.tables]
      · simp [Pgdir.tables, hne]

theorem tables_set (e : Option Pte) : (d.set v e).tables = d.tables := by
  ext i
  have h := congrArg Option.isSome (set_pde (d := d) (v := v) e i)
  rw [Option.isSome_map, Option.isSome_map] at h
  simp [Pgdir.tables, h]

theorem tablesOf_zero : tablesOf v 0 = ∅ :=
  Set.eq_empty_of_forall_notMem fun _ ⟨_, h₁, h₂, _⟩ => absurd h₂ (not_lt.mpr h₁)

theorem tablesOf_succ (n : ℕ) : tablesOf v (n + 1) = insert (PDX v) (tablesOf (v + 1) n) := by
  ext i
  constructor
  · rintro ⟨x, h₁, h₂, rfl⟩
    rcases h₁.eq_or_lt with rfl | hlt
    · exact Or.inl rfl
    · exact Or.inr ⟨x, hlt, by omega, rfl⟩
  · rintro (rfl | ⟨x, h₁, h₂, rfl⟩)
    · exact ⟨v, le_rfl, by omega, rfl⟩
    · exact ⟨x, by omega, by omega, rfl⟩

/-- The page tables of the pages are there after `mappages`, or some of them when it fails. -/
theorem tables_mappages {w u b : Bool} {n : ℕ} {pa : Frame}
    (h : mappages w u n v pa m d = some (b, m₁, d₁)) :
    d₁.tables ⊆ d.tables ∪ tablesOf v n ∧ (b = true → d₁.tables = d.tables ∪ tablesOf v n) := by
  induction n generalizing v pa m d with
  | zero =>
    obtain ⟨-, -, rfl⟩ : true = b ∧ m = m₁ ∧ d = d₁ := by simpa [mappages] using h
    simp [tablesOf_zero]
  | succ n ih =>
    unfold mappages at h
    cases hw : walkpgdir m d v true with
    | none =>
      rw [hw] at h
      obtain ⟨rfl, -, rfl⟩ : false = b ∧ m = m₁ ∧ d = d₁ := by simpa using h
      exact ⟨Set.subset_union_left, fun hb => absurd hb (by decide)⟩
    | some x =>
      obtain ⟨m₀, d₀⟩ := x
      cases hg : d₀.get v with
      | some e => simp [hw, hg] at h
      | none =>
        simp only [hw, hg] at h
        obtain ⟨hsub, heq⟩ := ih h
        rw [tables_set, tables_walkpgdir hw, Set.insert_union, ← Set.union_insert,
          ← tablesOf_succ] at hsub heq
        exact ⟨hsub, heq⟩

theorem tables_deallocLoop {oldsz : Word} {fuel v : ℕ} :
    (deallocLoop oldsz fuel v m d).2.tables = d.tables := by
  induction fuel generalizing v m d with
  | zero => rfl
  | succ fuel ih =>
    unfold deallocLoop
    split
    · split
      · exact ih
      · split
        · exact ih.trans (tables_set none)
        · exact ih
    · rfl

theorem tables_deallocuvm {oldsz newsz : Word} :
    (deallocuvm m d oldsz newsz).2.2.tables = d.tables := by
  unfold deallocuvm
  split
  · rfl
  · exact tables_deallocLoop

/-! ### Taking address spaces apart -/

/-- Clearing the entry of a user page, and freeing the page. -/
theorem stock_clear {e : Pte} (h : Held m d O) (hv : v < UPAGES) (he : d.get v = some e) :
    stock (kfree m e.frame) (d.set v none) = stock m d := by
  have ht : (d.pde (PDX v)).isSome := by
    cases hp : d.pde (PDX v) with
    | some t => rfl
    | none => simp [Pgdir.get, hp] at he
  have hrel := Taken.release (h.page hv he).1
  rw [stock, frees_kfree, holds_set ht hv, Option.map_none, Set.insert_union, ← Set.union_insert,
    hrel, stock]

theorem stock_deallocLoop {oldsz : Word} (hmax : oldsz ≤ KERNBASE) {fuel v : ℕ} (h : Held m d O) :
    stock (deallocLoop oldsz fuel v m d).1 (deallocLoop oldsz fuel v m d).2 = stock m d := by
  induction fuel generalizing v m d with
  | zero => rfl
  | succ fuel ih =>
    unfold deallocLoop
    split
    · rename_i hv
      split
      · exact ih h
      · cases he : d.get v with
        | none => exact ih h
        | some e =>
          have hu := lt_UPAGES hmax hv
          exact (ih (h.clear hu he).1).trans (stock_clear h hu he)
    · rfl

theorem stock_deallocuvm {oldsz newsz : Word} (hmax : oldsz ≤ KERNBASE) (h : Held m d O) :
    stock (deallocuvm m d oldsz newsz).2.1 (deallocuvm m d oldsz newsz).2.2 = stock m d := by
  unfold deallocuvm
  split
  · rfl
  · exact stock_deallocLoop hmax h

/-- Freeing the page tables of an address space. -/
theorem frees_freeTables (d : Pgdir) (is : List ℕ) :
    (is.foldl (freeTable d) m).frees =
      m.frees ∪ {f | ∃ i ∈ is, (d.pde i).map PageTable.frame = some f} := by
  induction is generalizing m with
  | nil => simp
  | cons i is ih =>
    rw [List.foldl_cons, ih]
    ext g
    cases hp : d.pde i with
    | none => simp [freeTable, hp]
    | some t =>
      simp only [freeTable, hp, frees_kfree, Set.mem_union, Set.mem_insert_iff, List.mem_cons,
        exists_eq_or_imp, Set.mem_ofPred_eq, Option.map_some, Option.some.injEq]
      constructor
      · rintro ((hg | hg) | hg)
        · exact Or.inr (Or.inl hg.symm)
        · exact Or.inl hg
        · exact Or.inr (Or.inr hg)
      · rintro (hg | hg | hg)
        · exact Or.inl (Or.inr hg)
        · exact Or.inl (Or.inl hg.symm)
        · exact Or.inr hg

/-- `freevm` frees all pages of the address space. -/
theorem frees_freevm (h : Held m d O) (hsize : d.Sized) : (freevm m d).frees = stock m d := by
  obtain ⟨m₁, d₁, hd, h₁, -, hgone⟩ := deallocuvm_spec h (BitVec.le_refl KERNBASE)
    (by decide : (0 : Word) ≤ KERNBASE)
  have hstock : stock (deallocuvm m d KERNBASE 0).2.1 (deallocuvm m d KERNBASE 0).2.2 = stock m d :=
    stock_deallocuvm (BitVec.le_refl KERNBASE) h
  have htables : (deallocuvm m d KERNBASE 0).2.2.tables = d.tables := tables_deallocuvm
  rw [hd] at hstock htables
  have hfst : (deallocuvm m d KERNBASE 0).1 = 0 := by rw [deallocuvm, if_neg (by decide)]
  have hd' : deallocuvm m d KERNBASE 0 = (0, m₁, d₁) := Prod.ext hfst hd
  have hpages : ∀ v, v < UPAGES → d₁.get v = none := fun v hv =>
    hgone v ⟨Nat.zero_le v, by rw [KERNBASE_eq]; exact Nat.mul_lt_mul_of_pos_right hv (by decide)⟩
  rw [← hstock]
  ext g
  simp only [freevm, hd', frees_kfree, frees_freeTables, stock, Taken, Set.mem_insert_iff,
    Set.mem_union, Set.mem_ofPred_eq]
  constructor
  · rintro (rfl | hg | ⟨i, -, hi⟩)
    · exact Or.inr ⟨.dir, rfl⟩
    · exact Or.inl hg
    · exact Or.inr ⟨.table i, hi⟩
  · rintro (hg | ⟨i, hi⟩)
    · exact Or.inr (Or.inl hg)
    · cases i with
      | dir => exact Or.inl (Option.some.inj hi).symm
      | table i =>
        have hin : i ∈ d₁.tables := by
          obtain ⟨t, ht, -⟩ := Option.map_eq_some_iff.mp hi
          simp [Pgdir.tables, ht]
        exact Or.inr (Or.inr ⟨i, List.mem_range.mpr (hsize (htables ▸ hin)), hi⟩)
      | page v =>
        by_cases hv : v < UPAGES
        · simp [Pgdir.holds, hpages v hv] at hi
        · simp [Pgdir.holds, hv] at hi

/-! ### Building address spaces -/

theorem Pgdir.Sized.insert (h : d.Sized) (hv : v < NPAGES) (ht : d₁.tables = insert (PDX v) d.tables) :
    d₁.Sized := by
  rw [Pgdir.Sized, ht]
  exact Set.insert_subset (Nat.div_lt_of_lt_mul (hv : v < NPTENTRIES * NPDENTRIES)) h

theorem Pgdir.Sized.mappages {w u b : Bool} {n : ℕ} {pa : Frame} (h : d.Sized)
    (hv : v + n ≤ NPAGES) (hm : mappages w u n v pa m d = some (b, m₁, d₁)) : d₁.Sized := by
  refine (tables_mappages hm).1.trans (Set.union_subset h ?_)
  rintro i ⟨x, h₁, h₂, rfl⟩
  exact Nat.div_lt_of_lt_mul (h₂.trans_le hv : x < NPTENTRIES * NPDENTRIES)

theorem subset_tables_mappages {w u b : Bool} {n : ℕ} {pa : Frame}
    (h : mappages w u n v pa m d = some (b, m₁, d₁)) : d.tables ⊆ d₁.tables := by
  induction n generalizing v pa m d with
  | zero =>
    obtain ⟨-, -, rfl⟩ : true = b ∧ m = m₁ ∧ d = d₁ := by simpa [Memory.mappages] using h
    exact Set.Subset.rfl
  | succ n ih =>
    unfold Memory.mappages at h
    cases hw : walkpgdir m d v true with
    | none =>
      rw [hw] at h
      obtain ⟨-, -, rfl⟩ : false = b ∧ m = m₁ ∧ d = d₁ := by simpa using h
      exact Set.Subset.rfl
    | some x =>
      obtain ⟨m₀, d₀⟩ := x
      cases hg : d₀.get v with
      | some e => simp [hw, hg] at h
      | none =>
        simp only [hw, hg] at h
        have hsub := ih h
        rw [tables_set, tables_walkpgdir hw] at hsub
        exact (Set.subset_insert _ _).trans hsub

/-- An address space has got page tables, within its page directory. -/
structure Pgdir.Grows (d d₁ : Pgdir) : Prop where
  tables : d.tables ⊆ d₁.tables
  sized : d.Sized → d₁.Sized

theorem Pgdir.Grows.refl (d : Pgdir) : d.Grows d := ⟨Set.Subset.rfl, id⟩

theorem Pgdir.Grows.trans {d₂ : Pgdir} (h₁ : d.Grows d₁) (h₂ : d₁.Grows d₂) : d.Grows d₂ :=
  ⟨h₁.tables.trans h₂.tables, fun h => h₂.sized (h₁.sized h)⟩

theorem Pgdir.Grows.of_eq (h : d₁.tables = d.tables) : d.Grows d₁ :=
  ⟨h.ge, fun hs => by rwa [Pgdir.Sized, h]⟩

/-- A kernel mapping is inside the address space. -/
structure KmapIn (kmap : List Kmap) : Prop extends KmapOk kmap where
  fits : ∀ k ∈ kmap, k.v + k.n ≤ NPAGES

theorem Pgdir.Sized.mapKernel {ks : List Kmap} {b : Bool} (hfits : ∀ k ∈ ks, k.v + k.n ≤ NPAGES)
    (h : d.Sized) (hm : mapKernel ks m d = some (b, m₁, d₁)) : d₁.Sized := by
  induction ks generalizing m d with
  | nil =>
    obtain ⟨-, -, rfl⟩ : true = b ∧ m = m₁ ∧ d = d₁ := by simpa [Memory.mapKernel] using hm
    exact h
  | cons k ks ih =>
    have hk := hfits k List.mem_cons_self
    unfold Memory.mapKernel at hm
    cases hmap : Memory.mappages k.w false k.n k.v k.pa m d with
    | none => simp [hmap] at hm
    | some x =>
      obtain ⟨b₀, m₀, d₀⟩ := x
      have h₀ : d₀.Sized := h.mappages hk hmap
      rw [hmap] at hm
      cases b₀ with
      | true => exact ih (fun k' hk' => hfits k' (List.mem_cons_of_mem k hk')) h₀ hm
      | false =>
        obtain ⟨-, -, rfl⟩ : false = b ∧ m₀ = m₁ ∧ d₀ = d₁ := by simpa using hm
        exact h₀

/-- `setupkvm` takes what it needs from the free pages, and nothing when it fails. -/
theorem stock_setupkvm {kmap : List Kmap} {r : Option Pgdir} (hk : KmapIn kmap) (h : Clean m O)
    (hs : setupkvm kmap m = some (r, m₁)) :
    (∀ d, r = some d → stock m₁ d = m.frees ∧ d.Sized) ∧ (r = none → m₁.frees = m.frees) := by
  unfold setupkvm at hs
  cases hka : kalloc m with
  | none =>
    rw [hka] at hs
    obtain ⟨rfl, rfl⟩ := Prod.mk.inj (Option.some.inj hs)
    exact ⟨fun d hd => absurd hd (by simp), fun _ => rfl⟩
  | some y =>
    obtain ⟨f, m₀⟩ := y
    obtain ⟨h₀, hf, -⟩ := kalloc_clean h hka
    have hempty : Held (m₀.memset f 0) ⟨f, fun _ => none⟩ O :=
      held_empty ⟨h₀.nodup, h₀.elsewhere⟩ hf
    have hstart : stock (m₀.memset f 0) ⟨f, fun _ => none⟩ = m.frees := by
      have htaken : Taken (⟨f, fun _ => none⟩ : Pgdir).holds = {f} := by
        ext g
        constructor
        · rintro ⟨i, hi⟩
          cases i with
          | dir => exact (Option.some.inj hi).symm
          | table i => simp [Pgdir.holds] at hi
          | page v => simp [Pgdir.holds, Pgdir.get] at hi
        · rintro rfl
          exact ⟨.dir, rfl⟩
      rw [stock, htaken, frees_kalloc hka, Set.union_singleton]
      rfl
    have hsized : (⟨f, fun _ => none⟩ : Pgdir).Sized := fun i hi => by simp [Pgdir.tables] at hi
    obtain ⟨b, m₂, d₂, hmap, h₂, -⟩ := mapKernel_spec kmap hk.toKmapOk hempty fun _ _ _ _ _ => rfl
    have hstock := (stock_mapKernel hk.above hmap).trans hstart
    have hsized₂ := hsized.mapKernel hk.fits hmap
    simp only [hka, hmap] at hs
    cases b with
    | true =>
      obtain ⟨rfl, rfl⟩ := Prod.mk.inj (Option.some.inj hs)
      refine ⟨fun d hd => ?_, fun hn => absurd hn (by simp)⟩
      obtain rfl := Option.some.inj hd
      exact ⟨hstock, hsized₂⟩
    | false =>
      obtain ⟨rfl, rfl⟩ := Prod.mk.inj (Option.some.inj hs)
      refine ⟨fun d hd => absurd hd (by simp), fun _ => ?_⟩
      rw [frees_freevm h₂ hsized₂, hstock]

/-- The pages that the loop of `allocuvm` leaves; one without a page table is not mapped. -/
def AllocEnd.stock (m : Phys) (d : Pgdir) : AllocEnd → Set Frame
  | .through | .noPage => Memory.stock m d
  | .noTable mem => insert mem (Memory.stock m d)

/-- The loop of `allocuvm` takes what it maps from the free pages. -/
theorem stock_allocLoop {newsz : Word} (hmax : newsz ≤ KERNBASE) {fuel v : ℕ} {r : AllocEnd}
    (hl : allocLoop newsz fuel v m d = some (r, m₁, d₁)) :
    r.stock m₁ d₁ = stock m d ∧ d.Grows d₁ := by
  induction fuel generalizing v m d with
  | zero =>
    obtain ⟨rfl, rfl, rfl⟩ : AllocEnd.through = r ∧ m = m₁ ∧ d = d₁ := by simpa [allocLoop] using hl
    exact ⟨rfl, .refl d⟩
  | succ fuel ih =>
    unfold allocLoop at hl
    split at hl
    · rename_i hv
      have hu := lt_UPAGES hmax hv
      cases hk : kalloc m with
      | none =>
        obtain ⟨rfl, rfl, rfl⟩ : AllocEnd.noPage = r ∧ m = m₁ ∧ d = d₁ := by simpa [hk] using hl
        exact ⟨rfl, .refl d⟩
      | some y =>
        obtain ⟨mem, m₀⟩ := y
        have htake : insert mem (stock (m₀.memset mem 0) d) = stock m d := by
          rw [stock, stock, frees_kalloc hk, Set.insert_union]
          rfl
        cases hm : mappages true true 1 v mem (m₀.memset mem 0) d with
        | none =>
          simp only [hk, hm] at hl
          exact absurd hl (by simp)
        | some x =>
          obtain ⟨b, m₂, d₂⟩ := x
          have hin : v + 1 ≤ NPAGES := hu.trans_le (by decide)
          have hgrows : d.Grows d₂ := ⟨subset_tables_mappages hm, fun h => h.mappages hin hm⟩
          simp only [hk, hm] at hl
          rcases stock_mappages hu hm with ⟨rfl, hstock⟩ | ⟨rfl, rfl, rfl⟩
          · obtain ⟨hrest, hgrows₂⟩ := ih hl
            exact ⟨hrest.trans (hstock.trans htake), hgrows.trans hgrows₂⟩
          · obtain ⟨rfl, rfl, rfl⟩ : AllocEnd.noTable mem = r ∧ m₀.memset mem 0 = m₁ ∧ d₂ = d₁ := by
              simpa using hl
            exact ⟨htake, hgrows⟩
    · obtain ⟨rfl, rfl, rfl⟩ : AllocEnd.through = r ∧ m = m₁ ∧ d = d₁ := by simpa using hl
      exact ⟨rfl, .refl d⟩

/-- `allocuvm` loses no page. -/
theorem stock_allocuvm {oldsz newsz : Word} (h : Held m d O) (hold : oldsz ≤ KERNBASE)
    (hfull : Full d oldsz) {sz : Word} (ha : allocuvm m d oldsz newsz = some (sz, m₁, d₁)) :
    stock m₁ d₁ = stock m d ∧ d.Grows d₁ := by
  unfold allocuvm at ha
  split at ha
  · obtain ⟨-, rfl, rfl⟩ : 0 = sz ∧ m = m₁ ∧ d = d₁ := by simpa using ha
    exact ⟨rfl, .refl d⟩
  rename_i hbig
  have hmax : newsz ≤ KERNBASE := BitVec.le_of_lt (BitVec.not_le.mp hbig)
  split at ha
  · obtain ⟨-, rfl, rfl⟩ : oldsz = sz ∧ m = m₁ ∧ d = d₁ := by simpa using ha
    exact ⟨rfl, .refl d⟩
  have hnone : ∀ x ∈ pagesFrom (pageUp oldsz) newsz, d.get x = none := by
    rintro x ⟨hx, hlim⟩
    have habs := mt (hfull x (lt_UPAGES hmax hlim)).mp (not_lt.mpr ((pageUp_le hold).mp hx))
    exact Option.not_isSome_iff_eq_none.mp habs
  obtain ⟨r, m₂, d₂, hl, hdone⟩ := allocLoop_spec hmax h
    (Nat.le_add_left_of_le (by decide : UPAGES ≤ NPAGES)) hnone
  obtain ⟨hstock, hgrows⟩ := stock_allocLoop hmax hl
  have hdealloc : ∀ {O'}, Held m₂ d₂ O' →
      stock (deallocuvm m₂ d₂ newsz oldsz).2.1 (deallocuvm m₂ d₂ newsz oldsz).2.2 = stock m₂ d₂ :=
    fun h₂ => stock_deallocuvm hmax h₂
  have hgrows₂ : d.Grows (deallocuvm m₂ d₂ newsz oldsz).2.2 := hgrows.trans (.of_eq tables_deallocuvm)
  rw [hl] at ha
  cases r with
  | through =>
    obtain ⟨-, rfl, rfl⟩ : newsz = sz ∧ m₂ = m₁ ∧ d₂ = d₁ := by simpa using ha
    exact ⟨hstock, hgrows⟩
  | noPage =>
    have hd := hdealloc hdone.1
    obtain ⟨-, he⟩ := Prod.mk.inj (Option.some.inj ha)
    rw [he] at hd hgrows₂
    exact ⟨hd.trans hstock, hgrows₂⟩
  | noTable mem =>
    have hd := hdealloc hdone.2.1
    obtain ⟨rfl, rfl, rfl⟩ : 0 = sz ∧ kfree (deallocuvm m₂ d₂ newsz oldsz).2.1 mem = m₁ ∧
        (deallocuvm m₂ d₂ newsz oldsz).2.2 = d₁ := by simpa using ha
    refine ⟨?_, hgrows₂⟩
    rw [stock, frees_kfree, Set.insert_union]
    exact (congrArg (insert mem) hd).trans hstock

/-! ### Loading a program -/

theorem Wrote.stock (h : Wrote O m m₁) : stock m₁ d = stock m d := by
  rw [Memory.stock, frees_congr h.free, Memory.stock]

/-- `allocuvm` returns the larger size, or 0. -/
theorem allocuvm_size {oldsz newsz sz : Word} (ha : allocuvm m d oldsz newsz = some (sz, m₁, d₁))
    (h0 : sz ≠ 0) :
    ¬ newsz ≥ KERNBASE ∧ sz = if newsz < oldsz then oldsz else newsz := by
  unfold allocuvm at ha
  split at ha
  · obtain ⟨rfl, -⟩ := Prod.mk.inj (Option.some.inj ha)
    exact absurd rfl h0
  rename_i hbig
  refine ⟨hbig, ?_⟩
  split at ha
  · rename_i hlt
    rw [if_pos hlt]
    exact (Prod.mk.inj (Option.some.inj ha)).1.symm
  · rename_i hlt
    rw [if_neg hlt]
    split at ha
    · exact absurd ha (by simp)
    · exact (Prod.mk.inj (Option.some.inj ha)).1.symm
    · exact absurd (Prod.mk.inj (Option.some.inj ha)).1.symm h0
    · exact absurd (Prod.mk.inj (Option.some.inj ha)).1.symm h0

theorem stock_loadImage (phs : List (Option Proghdr)) {r : Option Word} (h : Held m d O)
    (hd : Dense ⟨d, sz⟩) (hl : loadImage phs sz m d = some (r, m₁, d₁)) :
    stock m₁ d₁ = stock m d ∧ d.Grows d₁ := by
  induction phs generalizing sz m d with
  | nil =>
    obtain ⟨-, rfl, rfl⟩ : some sz = r ∧ m = m₁ ∧ d = d₁ := by simpa [loadImage] using hl
    exact ⟨rfl, .refl d⟩
  | cons y phs ih =>
    cases y with
    | none =>
      obtain ⟨-, rfl, rfl⟩ : none = r ∧ m = m₁ ∧ d = d₁ := by simpa [loadImage] using hl
      exact ⟨rfl, .refl d⟩
    | some ph =>
      rw [loadImage] at hl
      split at hl
      · exact ih h hd hl
      split at hl
      · obtain ⟨-, rfl, rfl⟩ : none = r ∧ m = m₁ ∧ d = d₁ := by simpa using hl
        exact ⟨rfl, .refl d⟩
      rename_i hsize
      split at hl
      · obtain ⟨-, rfl, rfl⟩ : none = r ∧ m = m₁ ∧ d = d₁ := by simpa using hl
        exact ⟨rfl, .refl d⟩
      rename_i hwrap
      obtain ⟨sz₁, m₂, d₂, ha, h₂, -, hd₂⟩ := allocuvm_dense (ph.vaddr + ph.memsz) h
        (BitVec.le_of_lt hd.small) hd.full hd.writable (Or.inl hd.small)
      obtain ⟨hstock, hgrows⟩ := stock_allocuvm h (BitVec.le_of_lt hd.small) hd.full ha
      simp only [ha] at hl
      split at hl
      · obtain ⟨-, rfl, rfl⟩ : none = r ∧ m₂ = m₁ ∧ d₂ = d₁ := by simpa using hl
        exact ⟨hstock, hgrows⟩
      rename_i h0
      obtain ⟨hle, hd₂⟩ := hd₂ h0
      split at hl
      · obtain ⟨-, rfl, rfl⟩ : none = r ∧ m₂ = m₁ ∧ d₂ = d₁ := by simpa using hl
        exact ⟨hstock, hgrows⟩
      rename_i halign
      have hfit : ph.vaddr.toNat + ph.filesz.toNat ≤ sz₁.toNat := segment_fits hsize hwrap hle
      obtain ⟨b, m₃, hload, hw⟩ := loadLoop_spec (BitVec.le_of_lt hd₂.small) hd₂.full
        (not_not.mp halign) hfit NPAGES 0 h₂
      have hstock₃ : stock m₃ d₂ = stock m d := hw.stock.trans hstock
      simp only [hload] at hl
      cases b with
      | false =>
        obtain ⟨-, rfl, rfl⟩ : none = r ∧ m₃ = m₁ ∧ d₂ = d₁ := by simpa using hl
        exact ⟨hstock₃, hgrows⟩
      | true =>
        obtain ⟨hstock₄, hgrows₄⟩ := ih (hw.held h₂) hd₂ hl
        exact ⟨hstock₄.trans hstock₃, hgrows.trans hgrows₄⟩

theorem stock_clearpteu (hv : v < UPAGES) (h : Held m d O) {e : Pte} (he : d.get v = some e)
    (hc : clearpteu m d v = some d₁) :
    stock m d₁ = stock m d ∧ d.Grows d₁ ∧ d₁.get v = some { e with u := false } := by
  have ht : (d.pde (PDX v)).isSome := by
    cases hp : d.pde (PDX v) with
    | some t => rfl
    | none => simp [Pgdir.get, hp] at he
  obtain ⟨t, hp⟩ := Option.isSome_iff_exists.mp ht
  simp only [clearpteu, walkpgdir, hp, he, Option.map_some, Option.some.injEq] at hc
  subst hc
  refine ⟨?_, .of_eq (tables_set _), by rw [get_set ht, if_pos rfl]⟩
  have hsame : (some { e with u := false }).map Pte.frame = d.holds (.page v) :=
    (h.page hv he).1.symm
  rw [stock, holds_set ht hv, hsame, Function.update_eq_self, stock]

end

end Xv6.Memory
