import Xv6.Vm.Words

/-! @src vm.c mmu.h | name:deallocuvm page by page | layer:proof

    `deallocuvm` jumps over missing page tables: to the last page below the next one, from where
    the increment of the loop goes on. It does to the free list and to the entries what a walk over
    all pages does, each page once. -/

namespace Xv6.Vm

open Xv6.Schemes.X86 (Word)
open Xv6.Memory (Frame Phys)

/-! ### Addresses -/

variable {a b e : Word} {x v : ℕ}

/-- The address of a page. -/
def addr (x : ℕ) : Word := BitVec.ofNat 32 (x * 4096)

/-- The page of an address. -/
def pageOf (a : Word) : ℕ := a.toNat / 4096

theorem toNat_addr (hx : x < 2 ^ 20) : (addr x).toNat = x * 4096 := by
  unfold addr
  rw [BitVec.toNat_ofNat, Nat.mod_eq_of_lt (by omega)]

theorem pageOf_lt (a : Word) : pageOf a < 2 ^ 20 := by
  unfold pageOf
  omega

theorem pageOf_addr (hx : x < 2 ^ 20) : pageOf (addr x) = x := by
  unfold pageOf
  rw [toNat_addr hx, Nat.mul_div_cancel _ (by decide)]

theorem addr_add (hx : x + 1 < 2 ^ 20) : addr x + PGSIZE = addr (x + 1) := by
  refine BitVec.eq_of_toNat_eq ?_
  rw [BitVec.toNat_add, toNat_addr (by omega), toNat_addr hx]
  have hsize : PGSIZE.toNat = 4096 := rfl
  omega

theorem toNat_PDX (a : Word) : (PDX a).toNat = a.toNat / 2 ^ 22 := by
  unfold PDX
  have hmask : (0x3FF : Word).toNat = 2 ^ 10 - 1 := rfl
  rw [BitVec.toNat_setWidth, BitVec.toNat_and, hmask, Nat.and_two_pow_sub_one_eq_mod,
    BitVec.toNat_ushiftRight, Nat.shiftRight_eq_div_pow]
  omega

theorem toNat_PTX (a : Word) : (PTX a).toNat = a.toNat / 2 ^ 12 % 2 ^ 10 := by
  unfold PTX
  have hmask : (0x3FF : Word).toNat = 2 ^ 10 - 1 := rfl
  rw [BitVec.toNat_setWidth, BitVec.toNat_and, hmask, Nat.and_two_pow_sub_one_eq_mod,
    BitVec.toNat_ushiftRight, Nat.shiftRight_eq_div_pow]
  omega

/-- The indices of an address are those of its page. -/
theorem index_eq : PDX a = PDX b ∧ PTX a = PTX b ↔ pageOf a = pageOf b := by
  unfold pageOf
  rw [BitVec.toNat_eq, BitVec.toNat_eq, toNat_PDX, toNat_PDX, toNat_PTX, toNat_PTX]
  omega

theorem PDX_eq : PDX a = PDX b ↔ pageOf a / 1024 = pageOf b / 1024 := by
  unfold pageOf
  rw [BitVec.toNat_eq, toNat_PDX, toNat_PDX]
  omega

theorem toNat_and_not (x : Word) : (x &&& ~~~(0xFFF : Word)).toNat = x.toNat / 4096 * 4096 := by
  have hand := Nat.and_two_pow_sub_one_eq_mod x.toNat 12
  have hsplit : (x &&& 0xFFF) + (x &&& ~~~(0xFFF : Word)) = x := by
    rw [BitVec.add_eq_or_of_and_eq_zero]
    · rw [← BitVec.and_or_distrib_left, BitVec.or_not_self, BitVec.and_allOnes]
    · rw [BitVec.and_assoc, ← BitVec.and_assoc 0xFFF x, BitVec.and_comm 0xFFF x, BitVec.and_assoc,
        BitVec.and_not_self]
      simp
  have hlow : (x &&& 0xFFF).toNat = x.toNat % 4096 := by
    rw [BitVec.toNat_and]
    exact hand
  have hsum := congrArg BitVec.toNat hsplit
  rw [BitVec.toNat_add, hlow] at hsum
  have hle : (x &&& ~~~(0xFFF : Word)).toNat ≤ x.toNat := by
    rw [BitVec.toNat_and]
    exact Nat.and_le_left
  have := x.isLt
  omega

theorem toNat_PGROUNDDOWN (a : Word) : (PGROUNDDOWN a).toNat = pageOf a * 4096 := toNat_and_not a

theorem PGROUNDDOWN_eq (a : Word) : PGROUNDDOWN a = addr (pageOf a) :=
  BitVec.eq_of_toNat_eq (by rw [toNat_PGROUNDDOWN, toNat_addr (pageOf_lt a)])

theorem toNat_PTE_ADDR (pte : Word) : (PTE_ADDR pte).toNat = pte.toNat / 4096 * 4096 :=
  toNat_and_not pte

/-- Rounding up, below the last page. -/
theorem PGROUNDUP_eq (h : a.toNat ≤ 2 ^ 31) : PGROUNDUP a = addr ((a.toNat + 4095) / 4096) := by
  refine BitVec.eq_of_toNat_eq ?_
  have hup : PGROUNDUP a = (a + PGSIZE - 1) &&& ~~~(0xFFF : Word) := rfl
  have hsize : (a + PGSIZE - 1).toNat = a.toNat + 4095 := by
    unfold PGSIZE
    bv_omega
  rw [hup, toNat_and_not, hsize, toNat_addr (by omega)]

/-- The jump to the next page table. -/
theorem next_table (h : a.toNat < 2 ^ 31) :
    PGADDR ((PDX a).setWidth 32 + 1) 0 0 - PGSIZE + PGSIZE = addr ((pageOf a / 1024 + 1) * 1024) := by
  have hpdx := toNat_PDX a
  have hwide : ((PDX a).setWidth 32 + 1 : Word).toNat = a.toNat / 2 ^ 22 + 1 := by
    have hset : ((PDX a).setWidth 32 : Word).toNat = (PDX a).toNat := by
      rw [BitVec.toNat_setWidth, Nat.mod_eq_of_lt (by omega)]
    rw [BitVec.toNat_add, hset, hpdx]
    have hone : (1 : Word).toNat = 1 := rfl
    omega
  refine BitVec.eq_of_toNat_eq ?_
  have hzero : PGADDR ((PDX a).setWidth 32 + 1) 0 0 = ((PDX a).setWidth 32 + 1) <<< 22 := by
    simp [PGADDR]
  rw [BitVec.sub_add_cancel, hzero, BitVec.toNat_shiftLeft, hwide, Nat.shiftLeft_eq]
  unfold pageOf
  rw [toNat_addr (by omega)]
  omega

/-! ### Entries -/

/-- Clearing the present ones of some entries. -/
def Table.clear (t : Table) (P : Index → Prop) [DecidablePred P] : Table where
  frame := t.frame
  pte j := if P j ∧ t.pte j &&& PTE_P ≠ 0 then 0 else t.pte j

namespace Dir

variable {d : Dir} {kend : Word}

/-- The entry of an address, if it is present. -/
def get (d : Dir) (va : Word) : Option Word :=
  if d.pte va &&& PTE_P ≠ 0 then some (d.pte va) else none

/-- A page directory is its page tables and their entries. -/
theorem ext' {d d' : Dir} (hframe : d.frame = d'.frame)
    (htable : ∀ i, (d.pde i).map Table.frame = (d'.pde i).map Table.frame)
    (hpte : ∀ a, d.pte a = d'.pte a) : d = d' := by
  obtain ⟨f, pde⟩ := d
  obtain ⟨f', pde'⟩ := d'
  obtain rfl : f = f' := hframe
  congr 1
  funext i
  have ht := htable i
  have hp : ∀ j, Dir.pte ⟨f, pde⟩ (addr (i.toNat * 1024 + j)) =
      Dir.pte ⟨f, pde'⟩ (addr (i.toNat * 1024 + j)) := fun j => hpte _
  simp only at ht
  cases h : pde i with
  | none =>
    rw [h] at ht
    cases h' : pde' i with
    | none => rfl
    | some t' => simp [h'] at ht
  | some t =>
    rw [h] at ht
    cases h' : pde' i with
    | none => simp [h'] at ht
    | some t' =>
      rw [h'] at ht
      obtain ⟨g, pte⟩ := t
      obtain ⟨g', pte'⟩ := t'
      obtain rfl : g = g' := Option.some.inj ht
      congr 2
      funext j
      have hi := i.isLt
      have hj := j.isLt
      have hlt : i.toNat * 1024 + j.toNat < 2 ^ 20 := by omega
      have hdx : PDX (addr (i.toNat * 1024 + j.toNat)) = i := by
        refine BitVec.eq_of_toNat_eq ?_
        rw [toNat_PDX, toNat_addr hlt]
        omega
      have htx : PTX (addr (i.toNat * 1024 + j.toNat)) = j := by
        refine BitVec.eq_of_toNat_eq ?_
        rw [toNat_PTX, toNat_addr hlt]
        omega
      have := hp j.toNat
      simpa only [Dir.pte, hdx, htx, h, h'] using this

/-- Clearing the present entries of some pages. -/
def clear (d : Dir) (P : ℕ → Prop) [DecidablePred P] : Dir where
  frame := d.frame
  pde i := (d.pde i).map fun t => t.clear fun j => P (i.toNat * 1024 + j.toNat)

variable {P Q : ℕ → Prop} [DecidablePred P] [DecidablePred Q]

theorem pte_clear (d : Dir) (a : Word) :
    (d.clear P).pte a = if P (pageOf a) ∧ d.pte a &&& PTE_P ≠ 0 then 0 else d.pte a := by
  have hpage : (PDX a).toNat * 1024 + (PTX a).toNat = pageOf a := by
    rw [toNat_PDX, toNat_PTX]
    unfold pageOf
    omega
  cases ht : d.pde (PDX a) with
  | none => simp [pte, clear, ht]
  | some t => simp only [pte, clear, ht, Option.map_some, Table.clear, hpage]

theorem table_clear (d : Dir) (i : Index) :
    ((d.clear P).pde i).map Table.frame = (d.pde i).map Table.frame := by
  cases ht : d.pde i with
  | none => simp [clear, ht]
  | some t => simp [clear, ht, Table.clear]

theorem table_set (d : Dir) (a e : Word) (i : Index) :
    ((d.set a e).pde i).map Table.frame = (d.pde i).map Table.frame := by
  rcases eq_or_ne i (PDX a) with rfl | hne
  · simp only [set, Function.update_self]
    cases d.pde (PDX a) <;> rfl
  · simp only [set, Function.update_of_ne hne]

theorem pte_set (ht : (d.pde (PDX a)).isSome) (b e : Word) :
    (d.set a e).pte b = if pageOf b = pageOf a then e else d.pte b := by
  obtain ⟨t, ht⟩ := Option.isSome_iff_exists.mp ht
  by_cases hd : PDX b = PDX a
  · by_cases hx : PTX b = PTX a
    · rw [if_pos (index_eq.mp ⟨hd, hx⟩)]
      simp only [pte, set, hd, hx, Function.update_self, ht, Option.map_some]
    · rw [if_neg fun h => hx (index_eq.mpr h).2]
      simp only [pte, set, hd, Function.update_self, ht, Option.map_some, Function.update_of_ne hx]
  · rw [if_neg fun h => hd (index_eq.mpr h).1]
    simp only [pte, set, Function.update_of_ne hd]

theorem pte_missing (ht : d.pde (PDX a) = none) (h : pageOf b / 1024 = pageOf a / 1024) :
    d.pte b = 0 := by
  unfold pte
  rw [PDX_eq.mpr h, ht]

/-- Pages without a present entry need not be cleared. -/
theorem clear_congr (h : ∀ a, d.pte a &&& PTE_P ≠ 0 → (P (pageOf a) ↔ Q (pageOf a))) :
    d.clear P = d.clear Q := by
  refine ext' rfl (fun i => (table_clear d i).trans (table_clear d i).symm) fun a => ?_
  rw [pte_clear, pte_clear]
  by_cases hp : d.pte a &&& PTE_P ≠ 0
  · simp only [h a hp]
  · rw [if_neg fun hx => hp hx.2, if_neg fun hx => hp hx.2]

theorem clear_none (h : ∀ x, ¬ P x) : d.clear P = d := by
  refine ext' rfl (table_clear d) fun a => ?_
  rw [pte_clear, if_neg fun hx => h _ hx.1]

/-- Clearing one page and then the rest. -/
theorem clear_set (ht : (d.pde (PDX a)).isSome)
    (h : ∀ x, Q x ↔ P x ∨ x = pageOf a) (hp : d.pte a &&& PTE_P ≠ 0) :
    (d.set a 0).clear P = d.clear Q := by
  refine ext' rfl (fun i => ?_) fun b => ?_
  · rw [table_clear, table_clear, table_set]
  · rw [pte_clear, pte_clear, pte_set ht]
    by_cases hb : pageOf b = pageOf a
    · have hsame : d.pte b = d.pte a := by
        unfold pte
        rw [(index_eq.mpr hb).1, (index_eq.mpr hb).2]
      rw [if_pos hb, ite_self, hsame, if_pos ⟨(h _).mpr (.inr hb), hp⟩]
    · rw [if_neg hb]
      simp only [h, hb, or_false]

end Dir

/-! ### Page by page -/

variable {kend oldsz newsz : Word} {m : Phys} {d : Dir}

/-- The pages that begin in `[PGROUNDUP(newsz), oldsz)`. -/
def pages (newsz oldsz : Word) : List ℕ :=
  List.range' ((newsz.toNat + 4095) / 4096)
    ((oldsz.toNat + 4095) / 4096 - (newsz.toNat + 4095) / 4096)

theorem mem_pages : x ∈ pages newsz oldsz ↔ newsz.toNat ≤ x * 4096 ∧ x * 4096 < oldsz.toNat := by
  unfold pages
  rw [List.mem_range'_1]
  omega

/-- The frames of the present entries of some pages. -/
def framesAt (d : Dir) (l : List ℕ) : List Frame :=
  l.filterMap fun x => (d.get (addr x)).map fun e => frameOf (PTE_ADDR e)

theorem framesAt_congr {d d' : Dir} {l : List ℕ} (h : ∀ x ∈ l, d.pte (addr x) = d'.pte (addr x)) :
    framesAt d l = framesAt d' l := by
  refine List.filterMap_congr fun x hx => ?_
  unfold Dir.get
  rw [h x hx]

theorem framesAt_none {d : Dir} {l : List ℕ} (h : ∀ x ∈ l, d.pte (addr x) &&& PTE_P = 0) :
    framesAt d l = [] := by
  refine List.filterMap_eq_nil_iff.mpr fun x hx => ?_
  unfold Dir.get
  rw [if_neg (not_not.mpr (h x hx))]
  rfl

/-- Pages without a present entry can be left out. -/
theorem framesAt_skip {d : Dir} {w h : ℕ} (hvw : v ≤ w)
    (hgone : ∀ x, v ≤ x → x < w → x < h → d.pte (addr x) &&& PTE_P = 0) :
    framesAt d (List.range' v (h - v)) = framesAt d (List.range' w (h - w)) := by
  rcases Nat.lt_or_ge h w with hend | hend
  · rw [Nat.sub_eq_zero_of_le hend.le, List.range'_zero]
    refine framesAt_none fun x hx => ?_
    have hx := List.mem_range'_1.mp hx
    exact hgone x (by omega) (by omega) (by omega)
  · have hcut : h - v = (w - v) + (h - w) := by omega
    rw [hcut, ← List.range'_append_1, Nat.add_sub_cancel' hvw]
    unfold framesAt
    rw [List.filterMap_append]
    refine (congrArg (· ++ _) (framesAt_none fun x hx => ?_)).trans (List.nil_append _)
    have hx := List.mem_range'_1.mp hx
    exact hgone x (by omega) (by omega) (by omega)

/-- A page with a present entry, and the pages after it. -/
theorem framesAt_cons {d : Dir} {h : ℕ} (hlt : v < h) (hget : d.get (addr v) = some e) :
    framesAt d (List.range' v (h - v)) =
      frameOf (PTE_ADDR e) :: framesAt d (List.range' (v + 1) (h - (v + 1))) := by
  have hcut : h - v = h - (v + 1) + 1 := by omega
  rw [hcut, List.range'_succ]
  unfold framesAt
  rw [List.filterMap_cons, hget]
  rfl

/-- The user pages are pages of the allocator. -/
def UserOk (kend : Word) (d : Dir) : Prop := ∀ a, a.toNat < 2 ^ 31 → ∀ e, d.get a = some e →
  PTE_ADDR e ≠ 0 ∧ freeable kend (P2V (PTE_ADDR e))

theorem UserOk.set {d : Dir} (h : UserOk kend d) (ht : (d.pde (PDX a)).isSome) :
    UserOk kend (d.set a 0) := by
  intro b hb e he
  unfold Dir.get at he
  rw [Dir.pte_set ht] at he
  split at he
  · simp at he
  · exact h b hb e he

theorem V2P_P2V (a : Word) : V2P (P2V a) = a := BitVec.add_sub_cancel a KERNBASE

/-- A page that is present is freed, and its entry cleared. -/
theorem freePage_present (h : UserOk kend d) (ha : a.toNat < 2 ^ 31) (hget : d.get a = some e) :
    freePage kend m d a = some (Memory.kfree m (frameOf (PTE_ADDR e)), d.set a 0) := by
  obtain ⟨hzero, hfree⟩ := h a ha e hget
  unfold Dir.get at hget
  split at hget
  · rename_i hp
    obtain rfl := Option.some.inj hget
    unfold freePage
    simp only [if_pos hp, if_neg hzero, kfree, if_pos hfree, V2P_P2V, Option.map_some]
  · exact absurd hget (by simp)

theorem freePage_absent (hget : d.get a = none) : freePage kend m d a = some (m, d) := by
  unfold Dir.get at hget
  split at hget
  · exact absurd hget (by simp)
  · rename_i hp
    exact if_neg hp

/-- One round of the loop in a page table. -/
theorem deallocLoop_table {fuel : ℕ} {m' : Phys} {d' : Dir} (hlt : a < oldsz)
    (ht : (d.pde (PDX a)).isSome) (hstep : freePage kend m d a = some (m', d')) :
    deallocLoop kend oldsz (fuel + 1) a m d = deallocLoop kend oldsz fuel (a + PGSIZE) m' d' := by
  obtain ⟨t, ht⟩ := Option.isSome_iff_exists.mp ht
  rw [deallocLoop, if_pos hlt]
  simp only [walkpgdir, ht, hstep]

/-- One round at a missing page table. -/
theorem deallocLoop_missing {fuel : ℕ} (ha : a.toNat < 2 ^ 31) (hlt : a < oldsz)
    (ht : d.pde (PDX a) = none) :
    deallocLoop kend oldsz (fuel + 1) a m d =
      deallocLoop kend oldsz fuel (addr ((pageOf a / 1024 + 1) * 1024)) m d := by
  rw [deallocLoop, if_pos hlt]
  simp only [walkpgdir, ht, Bool.false_eq_true, if_false]
  rw [next_table ha]

/-- The loop from page `v` on frees the pages that are present there and clears their entries. -/
theorem deallocLoop_eq {fuel : ℕ} (hmax : oldsz.toNat ≤ 2 ^ 31) (hv : v ≤ 2 ^ 19)
    (hfuel : 2 ^ 19 < v + fuel) (hd : UserOk kend d) :
    deallocLoop kend oldsz fuel (addr v) m d = .returns
      ((framesAt d (List.range' v ((oldsz.toNat + 4095) / 4096 - v))).foldl Memory.kfree m,
        d.clear fun x => v ≤ x ∧ x * 4096 < oldsz.toNat) := by
  induction fuel generalizing v m d with
  | zero => omega
  | succ fuel ih =>
    have haddr := toNat_addr (x := v) (by omega)
    have hpage := pageOf_addr (x := v) (by omega)
    have hclear : ∀ w, (∀ x, v ≤ x → x < w → d.pte (addr x) &&& PTE_P = 0) → v ≤ w →
        (d.clear fun x => w ≤ x ∧ x * 4096 < oldsz.toNat) =
          d.clear fun x => v ≤ x ∧ x * 4096 < oldsz.toNat := by
      intro w hgone hvw
      refine Dir.clear_congr fun a ha => ?_
      have hsame : d.pte a = d.pte (addr (pageOf a)) := by
        have hidx := index_eq.mpr (pageOf_addr (pageOf_lt a))
        unfold Dir.pte
        rw [hidx.1, hidx.2]
      have hout : ¬ (v ≤ pageOf a ∧ pageOf a < w) := fun h => ha (hsame ▸ hgone _ h.1 h.2)
      constructor
      · rintro ⟨h₁, h₂⟩
        exact ⟨hvw.trans h₁, h₂⟩
      · rintro ⟨h₁, h₂⟩
        exact ⟨not_lt.mp fun h => hout ⟨h₁, h⟩, h₂⟩
    by_cases hlt : (addr v).toNat < oldsz.toNat
    · have hkern : (addr v).toNat < 2 ^ 31 := by omega
      cases ht : d.pde (PDX (addr v)) with
      | none =>
        have hgone : ∀ x, v ≤ x → x < (v / 1024 + 1) * 1024 → d.pte (addr x) &&& PTE_P = 0 := by
          intro x h₁ h₂
          have hzero : d.pte (addr x) = 0 :=
            Dir.pte_missing ht (by rw [hpage, pageOf_addr (by omega)]; omega)
          rw [hzero]
          exact BitVec.zero_and
        have hskip := ih (v := (v / 1024 + 1) * 1024) (m := m) (d := d) (by omega) (by omega) hd
        rw [deallocLoop_missing hkern hlt ht, hpage, hskip, hclear _ hgone (by omega),
          framesAt_skip (w := (v / 1024 + 1) * 1024) (by omega) fun x h₁ h₂ _ => hgone x h₁ h₂]
      | some t =>
        have hsome : (d.pde (PDX (addr v))).isSome := by
          rw [ht]
          rfl
        have hstep := addr_add (x := v) (by omega)
        cases hget : d.get (addr v) with
        | some e =>
          have hrest := ih (v := v + 1) (m := Memory.kfree m (frameOf (PTE_ADDR e)))
            (d := d.set (addr v) 0) (by omega) (by omega) (hd.set hsome)
          have hframes : framesAt (d.set (addr v) 0)
              (List.range' (v + 1) ((oldsz.toNat + 4095) / 4096 - (v + 1))) =
                framesAt d (List.range' (v + 1) ((oldsz.toNat + 4095) / 4096 - (v + 1))) := by
            refine framesAt_congr fun x hx => ?_
            have hx := List.mem_range'_1.mp hx
            rw [Dir.pte_set hsome, hpage, pageOf_addr (by omega), if_neg (by omega)]
          have hpres : d.pte (addr v) &&& PTE_P ≠ 0 := by
            unfold Dir.get at hget
            split at hget
            · assumption
            · exact absurd hget (by simp)
          rw [deallocLoop_table hlt hsome (freePage_present hd hkern hget), hstep, hrest, hframes,
            framesAt_cons (by omega) hget, List.foldl_cons]
          refine congrArg (fun c => Ends.returns (_, c)) (Dir.clear_set hsome (fun x => ?_) hpres)
          rw [hpage]
          omega
        | none =>
          have hrest := ih (v := v + 1) (m := m) (d := d) (by omega) (by omega) hd
          have hgone : ∀ x, v ≤ x → x < v + 1 → d.pte (addr x) &&& PTE_P = 0 := by
            intro x h₁ h₂
            obtain rfl : x = v := by omega
            unfold Dir.get at hget
            split at hget
            · exact absurd hget (by simp)
            · exact not_not.mp ‹_›
          rw [deallocLoop_table hlt hsome (freePage_absent hget), hstep, hrest, hclear _ hgone (by omega),
            framesAt_skip (w := v + 1) (by omega) fun x h₁ h₂ _ => hgone x h₁ h₂]
    · have hempty : (oldsz.toNat + 4095) / 4096 - v = 0 := by omega
      have hstop : ¬ addr v < oldsz := hlt
      rw [deallocLoop, if_neg hstop, hempty, Dir.clear_none (by omega)]
      rfl

/-- A page directory whose user pages are pages of the allocator. -/
structure UserDir (kend : Word) extends Dir where
  user : UserOk kend toDir

/-- What `deallocuvm` does, page by page: it frees the frames of the pages from `newsz` on that are
    present below `oldsz`, one after the other, and clears their entries. -/
theorem deallocuvm_eq (m : Phys) (d : UserDir kend) (hmax : oldsz ≤ KERNBASE) (newsz : Word) :
    deallocuvm kend m d.toDir oldsz newsz = .returns (if newsz < oldsz then newsz else oldsz,
      (framesAt d.toDir (pages newsz oldsz)).foldl Memory.kfree m,
      d.clear fun x => newsz.toNat ≤ x * 4096 ∧ x * 4096 < oldsz.toNat) := by
  have hkern : KERNBASE.toNat = 2 ^ 31 := rfl
  have hold : oldsz.toNat ≤ 2 ^ 31 := hkern ▸ BitVec.le_def.mp hmax
  have hpages : Memory.NPAGES = 2 ^ 20 := rfl
  unfold deallocuvm
  by_cases hlt : newsz < oldsz
  · have hnew : newsz.toNat < oldsz.toNat := hlt
    have hloop := @deallocLoop_eq ((newsz.toNat + 4095) / 4096) kend oldsz m d.toDir
      Memory.NPAGES hold (by omega) (by omega) d.user
    have hclear : (d.clear fun x => (newsz.toNat + 4095) / 4096 ≤ x ∧ x * 4096 < oldsz.toNat) =
        d.clear fun x => newsz.toNat ≤ x * 4096 ∧ x * 4096 < oldsz.toNat := by
      refine Dir.clear_congr fun a _ => ?_
      omega
    rw [if_neg (BitVec.not_le.mpr hlt), if_pos hlt, PGROUNDUP_eq (by omega), hloop, hclear]
    rfl
  · have hge : oldsz.toNat ≤ newsz.toNat := BitVec.not_lt.mp hlt
    have hempty : pages newsz oldsz = [] := by
      refine List.eq_nil_iff_forall_not_mem.mpr fun x hx => ?_
      have := mem_pages.mp hx
      omega
    have hnone : (d.clear fun x => newsz.toNat ≤ x * 4096 ∧ x * 4096 < oldsz.toNat) = d.toDir :=
      Dir.clear_none (by omega)
    rw [if_pos (BitVec.not_lt.mp hlt), if_neg hlt, hempty, hnone]
    rfl

theorem freelist_foldl_kfree (l : List Frame) (m : Phys) :
    (l.foldl Memory.kfree m).freelist = l.reverse ++ m.freelist := by
  induction l generalizing m with
  | nil => rfl
  | cons f l ih =>
    rw [List.foldl_cons, ih, List.reverse_cons, List.append_assoc]
    rfl

theorem page_foldl_kfree (l : List Frame) (m : Phys) {f : Frame} (hf : f ∉ l) :
    (l.foldl Memory.kfree m).page f = m.page f := by
  induction l generalizing m with
  | nil => rfl
  | cons g l ih =>
    rw [List.mem_cons, not_or] at hf
    obtain ⟨hne, hf⟩ := hf
    rw [List.foldl_cons, ih _ hf]
    exact Function.update_of_ne hne ..

/-- The skipping walk of `deallocuvm` frees the page of each entry that is present in the range
    once, clears these entries, and changes no other entry, no page table and no other page. -/
theorem deallocuvm_exact (m : Phys) (d : UserDir kend) (hmax : oldsz ≤ KERNBASE) (newsz : Word) :
    ∃ m' d', deallocuvm kend m d.toDir oldsz newsz =
        .returns (if newsz < oldsz then newsz else oldsz, m', d') ∧
      m'.freelist = (framesAt d.toDir (pages newsz oldsz)).reverse ++ m.freelist ∧
      (∀ f, f ∉ framesAt d.toDir (pages newsz oldsz) → m'.page f = m.page f) ∧
      (∀ a, d'.pte a =
        if pageOf a ∈ pages newsz oldsz ∧ d.pte a &&& PTE_P ≠ 0 then 0 else d.pte a) ∧
      d'.frame = d.frame ∧ ∀ i, (d'.pde i).map Table.frame = (d.pde i).map Table.frame := by
  refine ⟨_, _, deallocuvm_eq m d hmax newsz, freelist_foldl_kfree .., fun f hf =>
    page_foldl_kfree _ m hf, fun a => ?_, rfl, fun i => Dir.table_clear d.toDir i⟩
  rw [Dir.pte_clear]
  simp only [mem_pages]

/-- A directory with one page table, and one page in it. -/
def oneTable : Dir where
  frame := 0x200
  pde i := if i = 1 then some ⟨0x201, fun j => if j = 0 then 0x202007 else 0⟩ else none

theorem oneTable_pte (a : Word) : oneTable.pte a = 0x202007 ∨ oneTable.pte a = 0 := by
  unfold Dir.pte oneTable
  by_cases hi : PDX a = 1
  · by_cases hj : PTX a = 0
    · simp only [if_pos hi, if_pos hj, true_or]
    · simp only [if_pos hi, if_neg hj, or_true]
  · simp only [if_neg hi, or_true]

def onePage : UserDir 0x80110000 where
  toDir := oneTable
  user a _ e he := by
    unfold Dir.get at he
    rcases oneTable_pte a with h | h <;> rw [h] at he
    · obtain rfl : 0x202007 = e := Option.some.inj he
      decide
    · exact absurd he (by simp)

/-- From below its page table on. -/
theorem deallocuvm_exact_onePage : (0x800000 : Word) ≤ KERNBASE ∧
    ∃ m' d', deallocuvm 0x80110000 ⟨[], fun _ _ => 0⟩ onePage.toDir 0x800000 0x1234 =
        .returns (if (0x1234 : Word) < 0x800000 then 0x1234 else 0x800000, m', d') ∧
      m'.freelist = (framesAt onePage.toDir (pages 0x1234 0x800000)).reverse ++ [] := by
  have h : (0x800000 : Word) ≤ KERNBASE := by decide
  obtain ⟨m', d', heq, hfree, -⟩ := deallocuvm_exact ⟨[], fun _ _ => 0⟩ onePage h 0x1234
  exact ⟨h, m', d', heq, hfree⟩

end Xv6.Vm
