import Xv6.Memory.Tally
import Mathlib.Data.Set.Card

/-! @src vm.c kalloc.c | name:How many pages a call takes | layer:proof

    Mapping a page takes a free page exactly when its page table is missing. So the free pages and
    the page tables together stay as many as they are, and mapping fails exactly when there are not
    enough of them for the page tables it needs. -/

namespace Xv6.Memory
open Xv6.Schemes
open Xv6.Schemes.X86 (Word)

section

variable {m m₁ : Phys} {d d₁ P : Pgdir} {O : Set Frame} {f : Frame} {v n : ℕ} {sz : Word}

theorem length_kalloc (h : kalloc m = some (f, m₁)) :
    m.freelist.length = m₁.freelist.length + 1 := by
  unfold kalloc at h
  split at h
  · rename_i r next hl
    obtain ⟨-, rfl⟩ := Prod.mk.inj (Option.some.inj h)
    rw [hl]
    rfl
  · exact absurd h (by simp)

theorem kalloc_none (h : kalloc m = none) : m.freelist = [] := by
  unfold kalloc at h
  split at h
  · exact absurd h (by simp)
  · assumption

theorem finite_walkpgdir (hfin : d.tables.Finite) (h : walkpgdir m d v true = some (m₁, d₁)) :
    d₁.tables.Finite := tables_walkpgdir h ▸ hfin.insert _

/-- A page table costs a page. -/
theorem length_walkpgdir (hfin : d.tables.Finite) (h : walkpgdir m d v true = some (m₁, d₁)) :
    m₁.freelist.length + d₁.tables.ncard = m.freelist.length + d.tables.ncard := by
  rw [tables_walkpgdir h]
  unfold walkpgdir at h
  cases hp : d.pde (PDX v) with
  | some t =>
    rw [hp] at h
    obtain ⟨rfl, -⟩ := Prod.mk.inj (Option.some.inj h)
    have hin : PDX v ∈ d.tables := by simp [Pgdir.tables, hp]
    rw [Set.insert_eq_of_mem hin]
  | none =>
    cases hk : kalloc m with
    | none => simp [hp, hk] at h
    | some x =>
      obtain ⟨f, m₀⟩ := x
      simp only [hp, hk, if_true] at h
      obtain ⟨rfl, -⟩ := Prod.mk.inj (Option.some.inj h)
      have hout : PDX v ∉ d.tables := by simp [Pgdir.tables, hp]
      have hlen := length_kalloc hk
      rw [Set.ncard_insert_of_notMem hout hfin]
      change m₀.freelist.length + _ = _
      omega

theorem walkpgdir_none (h : walkpgdir m d v true = none) :
    m.freelist = [] ∧ PDX v ∉ d.tables := by
  unfold walkpgdir at h
  cases hp : d.pde (PDX v) with
  | some t => simp [hp] at h
  | none =>
    cases hk : kalloc m with
    | none => exact ⟨kalloc_none hk, by simp [Pgdir.tables, hp]⟩
    | some x => simp [hp, hk] at h

/-- What a function that maps pages takes, and when it fails: without a free page, and with a page
    table of `T` missing. -/
structure Takes (m : Phys) (d : Pgdir) (m₁ : Phys) (d₁ : Pgdir) (T : Set ℕ) (b : Bool) : Prop where
  finite : d₁.tables.Finite
  count : m₁.freelist.length + d₁.tables.ncard = m.freelist.length + d.tables.ncard
  within : d₁.tables ⊆ d.tables ∪ T
  all : b = true → d₁.tables = d.tables ∪ T
  missing : b = false → m₁.freelist = [] ∧ ¬ T ⊆ d₁.tables

theorem takes_mappages {w u b : Bool} {pa : Frame} (hfin : d.tables.Finite)
    (h : mappages w u n v pa m d = some (b, m₁, d₁)) : Takes m d m₁ d₁ (tablesOf v n) b := by
  have htables := tables_mappages h
  suffices hrest : d₁.tables.Finite ∧
      m₁.freelist.length + d₁.tables.ncard = m.freelist.length + d.tables.ncard ∧
      (b = false → m₁.freelist = [] ∧ ¬ tablesOf v n ⊆ d₁.tables) from
    ⟨hrest.1, hrest.2.1, htables.1, htables.2, hrest.2.2⟩
  clear htables
  induction n generalizing v pa m d with
  | zero =>
    obtain ⟨rfl, rfl, rfl⟩ : true = b ∧ m = m₁ ∧ d = d₁ := by simpa [mappages] using h
    exact ⟨hfin, rfl, fun hb => absurd hb (by decide)⟩
  | succ n ih =>
    unfold mappages at h
    cases hw : walkpgdir m d v true with
    | none =>
      rw [hw] at h
      obtain ⟨rfl, rfl, rfl⟩ : false = b ∧ m = m₁ ∧ d = d₁ := by simpa using h
      obtain ⟨hempty, hout⟩ := walkpgdir_none hw
      refine ⟨hfin, rfl, fun _ => ⟨hempty, fun hsub => hout (hsub ?_)⟩⟩
      rw [tablesOf_succ]
      exact Set.mem_insert _ _
    | some x =>
      obtain ⟨m₀, d₀⟩ := x
      cases hg : d₀.get v with
      | some e => simp [hw, hg] at h
      | none =>
        simp only [hw, hg] at h
        have hcount := length_walkpgdir hfin hw
        have hfin₀ := finite_walkpgdir hfin hw
        rw [← tables_set (d := d₀) (v := v) (some ⟨pa, w, u⟩)] at hcount hfin₀
        obtain ⟨hfin₁, hcount₁, hmissing⟩ := ih hfin₀ h
        refine ⟨hfin₁, hcount₁.trans hcount, fun hb => ⟨(hmissing hb).1, fun hsub => ?_⟩⟩
        rw [tablesOf_succ] at hsub
        exact (hmissing hb).2 ((Set.subset_insert _ _).trans hsub)

/-- The page tables of kernel mappings. -/
def tablesIn (ks : List Kmap) : Set ℕ := {i | ∃ k ∈ ks, i ∈ tablesOf k.v k.n}

theorem tablesIn_cons {k : Kmap} {ks : List Kmap} :
    tablesIn (k :: ks) = tablesOf k.v k.n ∪ tablesIn ks := by
  ext i
  simp [tablesIn]

theorem takes_mapKernel {ks : List Kmap} {b : Bool} (hfin : d.tables.Finite)
    (h : mapKernel ks m d = some (b, m₁, d₁)) : Takes m d m₁ d₁ (tablesIn ks) b := by
  induction ks generalizing m d with
  | nil =>
    obtain ⟨rfl, rfl, rfl⟩ : true = b ∧ m = m₁ ∧ d = d₁ := by simpa [mapKernel] using h
    refine ⟨hfin, rfl, Set.subset_union_left, fun _ => ?_, fun hb => absurd hb (by decide)⟩
    simp [tablesIn]
  | cons k ks ih =>
    unfold mapKernel at h
    cases hm : mappages k.w false k.n k.v k.pa m d with
    | none => simp [hm] at h
    | some x =>
      obtain ⟨b₀, m₀, d₀⟩ := x
      have h₀ := takes_mappages hfin hm
      rw [hm] at h
      rw [tablesIn_cons]
      cases b₀ with
      | true =>
        have h₁ := ih h₀.finite h
        have hall := h₀.all rfl
        refine ⟨h₁.finite, h₁.count.trans h₀.count, ?_, fun hb => ?_, fun hb => ?_⟩
        · rw [← Set.union_assoc, ← hall]
          exact h₁.within
        · rw [h₁.all hb, hall, Set.union_assoc]
        · obtain ⟨hempty, hsub⟩ := h₁.missing hb
          exact ⟨hempty, fun h => hsub (Set.subset_union_right.trans h)⟩
      | false =>
        obtain ⟨rfl, rfl, rfl⟩ : false = b ∧ m₀ = m₁ ∧ d₀ = d₁ := by simpa using h
        obtain ⟨hempty, hsub⟩ := h₀.missing rfl
        refine ⟨h₀.finite, h₀.count, ?_, fun hb => absurd hb (by decide), fun _ =>
          ⟨hempty, fun h => hsub (Set.subset_union_left.trans h)⟩⟩
        exact h₀.within.trans (Set.union_subset_union_right _ Set.subset_union_left)

/-! ### setupkvm -/

/-- The page tables of the kernel mappings, for counting. -/
def kernelTables (kmap : List Kmap) : Finset ℕ :=
  (Finset.range NPDENTRIES).filter fun i =>
    ∃ k ∈ kmap, 0 < k.n ∧ PDX k.v ≤ i ∧ i ≤ PDX (k.v + k.n - 1)

theorem mem_tablesOf {i : ℕ} : i ∈ tablesOf v n ↔ 0 < n ∧ PDX v ≤ i ∧ i ≤ PDX (v + n - 1) := by
  unfold PDX
  constructor
  · rintro ⟨x, h₁, h₂, rfl⟩
    exact ⟨by omega, Nat.div_le_div_right h₁, Nat.div_le_div_right (by omega)⟩
  · rintro ⟨hn, h₁, h₂⟩
    refine ⟨max v (i * NPTENTRIES), le_max_left _ _, ?_, ?_⟩
    · have := Nat.mul_le_of_le_div _ _ _ h₂
      omega
    · have hv := Nat.lt_mul_of_div_lt (Nat.lt_succ_of_le h₁) (by decide : 0 < NPTENTRIES)
      rcases le_total v (i * NPTENTRIES) with hle | hle
      · rw [max_eq_right hle]
        exact Nat.mul_div_cancel i (by decide)
      · rw [max_eq_left hle]
        exact le_antisymm h₁ ((Nat.le_div_iff_mul_le (by decide)).mpr hle)

theorem coe_kernelTables {kmap : List Kmap} (hk : KmapIn kmap) :
    (kernelTables kmap : Set ℕ) = tablesIn kmap := by
  ext i
  simp only [kernelTables, Finset.coe_filter, Finset.mem_range, tablesIn, Set.mem_ofPred_eq,
    mem_tablesOf]
  refine ⟨And.right, fun h => ⟨?_, h⟩⟩
  obtain ⟨k, hk', hn, -, hi⟩ := h
  have hfit := hk.fits k hk'
  have hlt : k.v + k.n - 1 < NPTENTRIES * NPDENTRIES := by
    have : NPTENTRIES * NPDENTRIES = NPAGES := rfl
    omega
  exact hi.trans_lt (Nat.div_lt_of_lt_mul hlt)

/-- `setupkvm` needs a page, and one for each page table of the kernel. -/
theorem setupkvm_count {kmap : List Kmap} (hk : KmapIn kmap) (h : Clean m O) :
    ∃ r m₁, setupkvm kmap m = some (r, m₁) ∧
      (∀ d, r = some d → d.tables = kernelTables kmap ∧
        m.freelist.length = m₁.freelist.length + 1 + (kernelTables kmap).card) ∧
      (r = none → m.freelist.length < 1 + (kernelTables kmap).card) := by
  unfold setupkvm
  cases hka : kalloc m with
  | none =>
    refine ⟨none, m, rfl, fun d hd => absurd hd (by simp), fun _ => ?_⟩
    rw [kalloc_none hka]
    exact Nat.lt_of_lt_of_le Nat.one_pos (Nat.le_add_right _ _)
  | some y =>
    obtain ⟨f, m₀⟩ := y
    obtain ⟨h₀, hf, -⟩ := kalloc_clean h hka
    have hempty : Held (m₀.memset f 0) ⟨f, fun _ => none⟩ O :=
      held_empty ⟨h₀.nodup, h₀.elsewhere⟩ hf
    have hnone : (⟨f, fun _ => none⟩ : Pgdir).tables = ∅ := by simp [Pgdir.tables]
    obtain ⟨b, m₂, d₂, hmap, -⟩ := mapKernel_spec kmap hk.toKmapOk hempty fun _ _ _ _ _ => rfl
    have htakes := takes_mapKernel (by rw [hnone]; exact Set.finite_empty) hmap
    have hlen := length_kalloc hka
    have hcount := htakes.count
    have hin := htakes.within
    rw [hnone, Set.ncard_empty, Nat.add_zero] at hcount
    rw [hnone, Set.empty_union] at hin
    change _ = m₀.freelist.length at hcount
    simp only [hmap]
    cases b with
    | true =>
      refine ⟨some d₂, m₂, rfl, fun d hd => ?_, fun hn => absurd hn (by simp)⟩
      obtain rfl := Option.some.inj hd
      have hall : d₂.tables = kernelTables kmap := by
        rw [htakes.all rfl, hnone, Set.empty_union, coe_kernelTables hk]
      rw [hall, Set.ncard_coe_finset] at hcount
      exact ⟨hall, by omega⟩
    | false =>
      refine ⟨none, _, rfl, fun d hd => absurd hd (by simp), fun _ => ?_⟩
      obtain ⟨hout, hsub⟩ := htakes.missing rfl
      rw [← coe_kernelTables hk] at hin hsub
      have hlt := Set.ncard_lt_ncard (hin.ssubset_of_not_subset hsub) (Finset.finite_toSet _)
      rw [Set.ncard_coe_finset] at hlt
      rw [hout] at hcount
      have : d₂.tables.ncard = m₀.freelist.length := by simpa using hcount
      omega

end

end Xv6.Memory
