import Xv6.Memory.PageTable
import Xv6.Schemes.Pool

/-! @src vm.c kalloc.c | name:Physical pages have one use | layer:proof

    A physical page is free, or holds the page directory, a page table or a user page of one
    address space, or is in use elsewhere. Each function of `vm.c` changes the entries of the pages
    it is called for and leaves everything else alone, contents included. -/

namespace Xv6.Memory
open Xv6.Schemes
open Xv6.Schemes.X86 (Word)

/-- The kernel half is not for the user. -/
def Pgdir.KernelOnly (d : Pgdir) : Prop := ∀ v, UPAGES ≤ v → ∀ e, d.get v = some e → e.u = false

/-- The address space `d` in the memory `m`, with the pages `O` in use elsewhere. -/
structure Held (m : Phys) (d : Pgdir) (O : Set Frame) : Prop where
  nodup : m.freelist.Nodup
  owns : Owns {f | f ∈ m.freelist} d.holds O
  kernel : d.KernelOnly

/-- Only the entries of the pages in `V` have changed, and no content of another page. -/
structure Evolves (O : Set Frame) (V : Set ℕ) (m : Phys) (d : Pgdir) (m' : Phys) (d' : Pgdir) :
    Prop where
  foreign : ∀ f ∈ O, m'.page f = m.page f
  same : ∀ v, v ∉ V → d'.get v = d.get v
  kept : ∀ v, v ∉ V → v < UPAGES → ∀ e, d.get v = some e → m'.page e.frame = m.page e.frame

section

variable {m m₁ m₂ : Phys} {d d₁ d₂ : Pgdir} {O : Set Frame} {V W : Set ℕ} {f : Frame} {v : ℕ}

theorem Evolves.refl : Evolves O V m d m d :=
  ⟨fun _ _ => rfl, fun _ _ => rfl, fun _ _ _ _ _ => rfl⟩

theorem Evolves.trans (h₁ : Evolves O V m d m₁ d₁) (h₂ : Evolves O W m₁ d₁ m₂ d₂) :
    Evolves O (V ∪ W) m d m₂ d₂ where
  foreign := fun f hf => (h₂.foreign f hf).trans (h₁.foreign f hf)
  same := fun v hv =>
    (h₂.same v fun hw => hv (Or.inr hw)).trans (h₁.same v fun hw => hv (Or.inl hw))
  kept := by
    intro v hv hu e he
    have hv₁ : v ∉ V := fun hw => hv (Or.inl hw)
    have hv₂ : v ∉ W := fun hw => hv (Or.inr hw)
    exact (h₂.kept v hv₂ hu e ((h₁.same v hv₁).trans he)).trans (h₁.kept v hv₁ hu e he)

theorem Evolves.mono (h : Evolves O V m d m₁ d₁) (hsub : V ⊆ W) : Evolves O W m d m₁ d₁ where
  foreign := h.foreign
  same := fun v hv => h.same v fun hw => hv (hsub hw)
  kept := fun v hv => h.kept v fun hw => hv (hsub hw)

/-! ### The physical pages -/

/-- A user page is not free, and not in use elsewhere. -/
theorem Held.page {e : Pte} (h : Held m d O) (hv : v < UPAGES) (he : d.get v = some e) :
    d.holds (.page v) = some e.frame ∧ e.frame ∉ O := by
  have hh : d.holds (.page v) = some e.frame := by simp [Pgdir.holds, hv, he]
  exact ⟨hh, h.owns.apart _ _ hh⟩

/-- A page that `kalloc` returns is in use elsewhere. -/
theorem kalloc_owns {ι : Type*} {holds : ι → Option Frame} (hnd : m.freelist.Nodup)
    (h : Owns {f | f ∈ m.freelist} holds O) (hk : kalloc m = some (f, m₁)) :
    m₁.freelist.Nodup ∧ Owns {f | f ∈ m₁.freelist} holds (insert f O) ∧ f ∉ O ∧
      m₁.page = m.page := by
  unfold kalloc at hk
  split at hk
  · rename_i r next hl
    obtain ⟨rfl, rfl⟩ := Prod.mk.inj (Option.some.inj hk)
    rw [hl] at hnd
    obtain ⟨hr, hnext⟩ := List.nodup_cons.mp hnd
    have hmem : r ∈ {f | f ∈ m.freelist} := by simp [hl]
    have hset : {f | f ∈ m.freelist} \ {r} = {f | f ∈ next} := by
      ext x
      simp only [hl, List.mem_cons, Set.mem_sdiff, Set.mem_ofPred_eq, Set.mem_singleton_iff]
      constructor
      · rintro ⟨hx | hx, hne⟩
        · exact absurd hx hne
        · exact hx
      · intro hx
        refine ⟨Or.inr hx, ?_⟩
        rintro rfl
        exact hr hx
    exact ⟨hnext, hset ▸ h.take hmem, h.fresh hmem, rfl⟩
  · exact absurd hk (by simp)

theorem kalloc_held (h : Held m d O) (hk : kalloc m = some (f, m₁)) :
    Held m₁ d (insert f O) ∧ f ∉ O ∧ m₁.page = m.page := by
  obtain ⟨hnd, howns, hf, hpage⟩ := kalloc_owns h.nodup h.owns hk
  exact ⟨⟨hnd, howns, h.kernel⟩, hf, hpage⟩

theorem kfree_held (h : Held m d (insert f O)) (hf : f ∉ O) : Held (kfree m f) d O where
  nodup := List.nodup_cons.mpr ⟨h.owns.elsewhere f (Set.mem_insert f O), h.nodup⟩
  owns := by
    have hset : {x | x ∈ (kfree m f).freelist} = insert f {x | x ∈ m.freelist} := by
      ext x
      simp [kfree, Phys.memset]
    exact hset ▸ h.owns.put hf
  kernel := h.kernel

theorem kfree_page {g : Frame} (hne : g ≠ f) : (kfree m f).page g = m.page g := by
  simp [kfree, Phys.memset, hne]

theorem memset_page {g : Frame} {b : Byte} (hne : g ≠ f) : (m.memset f b).page g = m.page g := by
  simp [Phys.memset, hne]

/-! ### Page tables -/

theorem eq_of_index {v x : ℕ} (hd : PDX x = PDX v) (ht : PTX x = PTX v) : x = v := by
  have hv := Nat.div_add_mod v NPTENTRIES
  have hx := Nat.div_add_mod x NPTENTRIES
  rw [← hx, ← hv]
  exact congrArg₂ (fun a b => NPTENTRIES * a + b) hd ht

theorem get_set (ht : (d.pde (PDX v)).isSome) (e : Option Pte) (x : ℕ) :
    (d.set v e).get x = if x = v then e else d.get x := by
  obtain ⟨t, ht⟩ := Option.isSome_iff_exists.mp ht
  by_cases hd : PDX x = PDX v
  · by_cases hp : PTX x = PTX v
    · obtain rfl := eq_of_index hd hp
      simp [Pgdir.get, Pgdir.set, ht]
    · have hne : x ≠ v := fun h => hp (h ▸ rfl)
      simp [Pgdir.get, Pgdir.set, hd, ht, hp, hne]
  · have hne : x ≠ v := fun h => hd (h ▸ rfl)
    simp [Pgdir.get, Pgdir.set, hd, hne]

theorem set_pde (e : Option Pte) (i : ℕ) :
    ((d.set v e).pde i).map PageTable.frame = (d.pde i).map PageTable.frame := by
  rcases eq_or_ne i (PDX v) with rfl | hne
  · cases hp : d.pde (PDX v) with
    | none => simp [Pgdir.set, hp]
    | some t => simp [Pgdir.set, hp]
  · simp [Pgdir.set, hne]

theorem holds_set (ht : (d.pde (PDX v)).isSome) (hv : v < UPAGES) (e : Option Pte) :
    (d.set v e).holds = Function.update d.holds (.page v) (e.map Pte.frame) := by
  funext i
  cases i with
  | dir => simp [Pgdir.holds, Pgdir.set]
  | table i => simpa [Pgdir.holds] using set_pde e i
  | page x =>
    rcases eq_or_ne x v with rfl | hne
    · simp [Pgdir.holds, get_set ht, hv]
    · simp [Pgdir.holds, get_set ht, hne]

theorem holds_set_kernel (ht : (d.pde (PDX v)).isSome) (hv : UPAGES ≤ v) (e : Option Pte) :
    (d.set v e).holds = d.holds := by
  funext i
  cases i with
  | dir => rfl
  | table i => simpa [Pgdir.holds] using set_pde e i
  | page x =>
    by_cases hx : x < UPAGES
    · have hne : x ≠ v := by omega
      simp [Pgdir.holds, get_set ht, hne]
    · simp [Pgdir.holds, hx]

/-- Adding an empty page table. -/
def Pgdir.addTable (d : Pgdir) (i : ℕ) (f : Frame) : Pgdir :=
  { d with pde := Function.update d.pde i (some ⟨f, fun _ => none⟩) }

theorem get_addTable {i : ℕ} (hi : d.pde i = none) (x : ℕ) : (d.addTable i f).get x = d.get x := by
  by_cases hx : PDX x = i
  · simp [Pgdir.get, Pgdir.addTable, hx, hi]
  · simp [Pgdir.get, Pgdir.addTable, hx]

theorem holds_addTable {i : ℕ} (hi : d.pde i = none) :
    (d.addTable i f).holds = Function.update d.holds (.table i) (some f) := by
  funext j
  cases j with
  | dir => rfl
  | table j =>
    rcases eq_or_ne j i with rfl | hne
    · simp [Pgdir.holds, Pgdir.addTable]
    · simp [Pgdir.holds, Pgdir.addTable, hne]
  | page x => simp [Pgdir.holds, get_addTable hi]

/-- The page that backs `v` keeps its content when another page is written. -/
theorem page_kept {e : Pte} (h : Held m d (insert f O)) (hv : v < UPAGES)
    (he : d.get v = some e) : e.frame ≠ f := by
  rintro rfl
  exact (h.page hv he).2 (Set.mem_insert _ _)

/-- Writing a page that is neither held nor in use elsewhere changes nothing. -/
theorem Evolves.scratch (h : Held m d (insert f O)) (hf : f ∉ O)
    (hpage : ∀ g, g ≠ f → m₁.page g = m.page g) : Evolves O V m d m₁ d where
  foreign := by
    rintro g hg
    refine hpage g ?_
    rintro rfl
    exact hf hg
  same := fun _ _ => rfl
  kept := fun v _ hv e he => hpage e.frame (page_kept h hv he)

/-- Taking a page with `kalloc` and writing it changes nothing either. -/
theorem kalloc_scratch (m₂ : Phys) (h : Held m d O) (hk : kalloc m = some (f, m₁))
    (hfree : m₂.freelist = m₁.freelist) (hpage : ∀ g, g ≠ f → m₂.page g = m₁.page g) :
    Held m₂ d (insert f O) ∧ f ∉ O ∧ Evolves O V m d m₂ d := by
  obtain ⟨hheld, hf, hsame⟩ := kalloc_held h hk
  refine ⟨⟨hfree ▸ hheld.nodup, hfree ▸ hheld.owns, hheld.kernel⟩, hf, ?_, fun _ _ => rfl, ?_⟩
  · intro g hg
    rw [hpage g fun hgf => hf (hgf ▸ hg), hsame]
  · intro x _ hx e he
    rw [hpage e.frame (page_kept hheld hx he), hsame]

/-- `walkpgdir` finds or adds the page table, or fails without a free page. -/
theorem walkpgdir_spec (h : Held m d O) (v : ℕ) :
    walkpgdir m d v true = none ∨
    ∃ m₁ d₁, walkpgdir m d v true = some (m₁, d₁) ∧ Held m₁ d₁ O ∧ Evolves O ∅ m d m₁ d₁ ∧
      (d₁.pde (PDX v)).isSome := by
  unfold walkpgdir
  cases hp : d.pde (PDX v) with
  | some t => exact Or.inr ⟨m, d, rfl, h, .refl, by simp [hp]⟩
  | none =>
    cases hk : kalloc m with
    | none => exact Or.inl rfl
    | some x =>
      obtain ⟨f, m₁⟩ := x
      obtain ⟨hheld, hf, hev⟩ := kalloc_scratch (V := ∅) (m₁.memset f 0) h hk rfl
        fun g hg => memset_page hg
      refine Or.inr ⟨_, d.addTable (PDX v) f, rfl, ⟨hheld.nodup, ?_, ?_⟩,
        ⟨hev.foreign, fun x _ => get_addTable hp x, hev.kept⟩, ?_⟩
      · rw [holds_addTable hp]
        exact hheld.owns.assign hf (by simp [Pgdir.holds, hp])
      · intro x hx e he
        exact h.kernel x hx e (by rwa [get_addTable hp] at he)
      · simp [Pgdir.addTable]

/-- Setting one entry. -/
theorem Evolves.set (ht : (d.pde (PDX v)).isSome) (e : Option Pte) :
    Evolves O {v} m d m (d.set v e) where
  foreign := fun _ _ => rfl
  same := fun x hx => (get_set ht e x).trans (if_neg fun h => hx h)
  kept := fun _ _ _ _ _ => rfl

/-- Setting the entry of a user page, which was absent, to a page that has been taken. -/
theorem Held.set {e : Pte} (h : Held m d (insert e.frame O)) (hf : e.frame ∉ O)
    (ht : (d.pde (PDX v)).isSome) (hv : v < UPAGES) (hnone : d.get v = none) :
    Held m (d.set v (some e)) O := by
  refine ⟨h.nodup, ?_, ?_⟩
  · rw [holds_set ht hv]
    exact h.owns.assign hf (by simp [Pgdir.holds, hnone])
  · intro x hx e' he
    have hne : x ≠ v := by omega
    exact h.kernel x hx e' (by rwa [get_set ht, if_neg hne] at he)

/-- Clearing the entry of a user page, and freeing the page. -/
theorem Held.clear {e : Pte} (h : Held m d O) (hv : v < UPAGES) (he : d.get v = some e) :
    Held (kfree m e.frame) (d.set v none) O ∧
      Evolves O {v} m d (kfree m e.frame) (d.set v none) := by
  have ht : (d.pde (PDX v)).isSome := by
    cases hp : d.pde (PDX v) with
    | some t => rfl
    | none => simp [Pgdir.get, hp] at he
  obtain ⟨hholds, hf⟩ := h.page hv he
  have hheld : Held m (d.set v none) (insert e.frame O) := by
    refine ⟨h.nodup, ?_, ?_⟩
    · rw [holds_set ht hv]
      exact h.owns.release hholds
    · intro x hx e' he'
      have hne : x ≠ v := by omega
      exact h.kernel x hx e' (by rwa [get_set ht, if_neg hne] at he')
  have hev := Evolves.trans (.set ht none)
    (Evolves.scratch (V := ∅) hheld hf fun g hg => kfree_page hg)
  exact ⟨kfree_held hheld hf, hev.mono (Set.union_empty _).subset⟩

/-- `mappages` of one user page that is absent. -/
theorem mappages_user {w u : Bool} (h : Held m d (insert f O)) (hf : f ∉ O) (hv : v < UPAGES)
    (hnone : d.get v = none) :
    mappages w u 1 v f m d = some (false, m, d) ∨
    ∃ m₁ d₁, mappages w u 1 v f m d = some (true, m₁, d₁) ∧ Held m₁ d₁ O ∧
      Evolves O {v} m d m₁ d₁ ∧ d₁.get v = some ⟨f, w, u⟩ ∧ m₁.page f = m.page f := by
  rcases walkpgdir_spec h v with hw | ⟨m₁, d₁, hw, hheld, hev, ht⟩
  · exact Or.inl (by simp [mappages, hw])
  · have hnone₁ : d₁.get v = none := (hev.same v (Set.notMem_empty v)).trans hnone
    refine Or.inr ⟨m₁, d₁.set v (some ⟨f, w, u⟩), by simp [mappages, hw, hnone₁],
      hheld.set hf ht hv hnone₁, ?_, ?_, ?_⟩
    · have hO : Evolves O ∅ m d m₁ d₁ :=
        ⟨fun g hg => hev.foreign g (Set.mem_insert_of_mem f hg), hev.same, hev.kept⟩
      exact (hO.trans (.set ht _)).mono (Set.empty_union _).subset
    · rw [get_set ht, if_pos rfl]
    · exact hev.foreign f (Set.mem_insert f O)

/-- `mappages` of absent pages of the kernel half. -/
theorem mappages_kernel {w : Bool} {n : ℕ} (h : Held m d O) (hv : UPAGES ≤ v)
    (hnone : ∀ x, v ≤ x → x < v + n → d.get x = none) (pa : Frame) :
    ∃ b m₁ d₁, mappages w false n v pa m d = some (b, m₁, d₁) ∧ Held m₁ d₁ O ∧
      Evolves O {x | v ≤ x ∧ x < v + n} m d m₁ d₁ := by
  induction n generalizing v pa m d with
  | zero => exact ⟨true, m, d, rfl, h, .refl⟩
  | succ n ih =>
    rcases walkpgdir_spec h v with hw | ⟨m₁, d₁, hw, hheld, hev, ht⟩
    · exact ⟨false, m, d, by simp [mappages, hw], h, .refl⟩
    · have hnone₁ : ∀ x, v ≤ x → x < v + (n + 1) → d₁.get x = none := fun x h₁ h₂ =>
        (hev.same x (Set.notMem_empty x)).trans (hnone x h₁ h₂)
      have hset : Held m₁ (d₁.set v (some ⟨pa, w, false⟩)) O := by
        refine ⟨hheld.nodup, ?_, ?_⟩
        · rw [holds_set_kernel ht hv]
          exact hheld.owns
        · intro x hx e he
          rw [get_set ht] at he
          split at he
          · exact (Option.some.inj he) ▸ rfl
          · exact hheld.kernel x hx e he
      have hrest : ∀ x, v + 1 ≤ x → x < v + 1 + n →
          (d₁.set v (some ⟨pa, w, false⟩)).get x = none := by
        intro x h₁ h₂
        have hne : x ≠ v := by omega
        rw [get_set ht, if_neg hne]
        exact hnone₁ x (by omega) (by omega)
      obtain ⟨b, m₂, d₂, hm, hheld₂, hev₂⟩ := ih hset (by omega) hrest (pa + 1)
      refine ⟨b, m₂, d₂, ?_, hheld₂, ((hev.trans (.set ht _)).trans hev₂).mono ?_⟩
      · have := hnone₁ v le_rfl (by omega)
        simp [mappages, hw, this, hm]
      · rintro x ((hx | hx) | hx)
        · exact absurd hx (Set.notMem_empty x)
        · rw [Set.mem_singleton_iff] at hx
          exact ⟨by omega, by omega⟩
        · obtain ⟨h₁, h₂⟩ := hx
          exact ⟨by omega, by omega⟩

end

end Xv6.Memory
