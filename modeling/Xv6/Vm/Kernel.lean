import Xv6.Vm.Dealloc

/-! @src vm.c graphic.c memlayout.h kernel.ld main.c | name:The kernel half | layer:proof

    `mappages` walks whole pages, so what it maps is what `kmap` asks for only if the virtual and
    the physical start of a range lie at the same offset in their pages. For the frame buffer both
    come from the firmware: `pvram_addr` as it is, and the virtual start from `vram_size`. The low
    bits of `pvram_addr` end up in the entries, as flags. -/

namespace Xv6.Vm

open Xv6.Schemes.X86 (Word)
open Xv6.Memory (Frame Phys)

variable {a b pa perm last : Word} {v w fuel : ℕ} {kend data : Word} {m m' : Phys} {d d' : Dir}

/-! ### Pages taken for page tables -/

/-- The pages that are free or hold page tables. -/
def Stock (m : Phys) (d : Dir) : Set Frame :=
  {f | f ∈ m.freelist ∨ ∃ i t, d.pde i = some t ∧ t.frame = f}

def indices : List Index := (List.range 1024).map (BitVec.ofNat 10)

theorem mem_indices (i : Index) : i ∈ indices := by
  refine List.mem_map.mpr ⟨i.toNat, List.mem_range.mpr i.isLt, ?_⟩
  rw [BitVec.ofNat_toNat, BitVec.setWidth_eq]

theorem nodup_indices : indices.Nodup := by
  refine List.nodup_range.map_on fun i hi j hj he => ?_
  have hi := List.mem_range.mp hi
  have hj := List.mem_range.mp hj
  have := congrArg BitVec.toNat he
  rw [BitVec.toNat_ofNat, BitVec.toNat_ofNat] at this
  omega

/-- How many page tables are missing. -/
def missing (d : Dir) : ℕ := indices.countP fun i => (d.pde i).isNone

theorem countP_succ {α : Type*} {l : List α} {i : α} {p q : α → Bool} (hl : l.Nodup) (hi : i ∈ l)
    (hp : p i = true) (hq : q i = false) (hne : ∀ j, j ≠ i → q j = p j) :
    l.countP q + 1 = l.countP p := by
  induction l with
  | nil => exact absurd hi List.not_mem_nil
  | cons j l ih =>
    obtain ⟨hj, hl⟩ := List.nodup_cons.mp hl
    rcases List.mem_cons.mp hi with rfl | hi
    · have hrest : l.countP q = l.countP p := by
        refine List.countP_congr fun j hjl => ?_
        rw [hne j fun he => hj (he ▸ hjl)]
      rw [List.countP_cons_of_pos hp, List.countP_cons_of_neg (by simp [hq]), hrest]
    · have hji : j ≠ i := fun he => hj (he ▸ hi)
      have := ih hl hi
      rw [List.countP_cons, List.countP_cons, hne j hji]
      omega

/-- What a function leaves that maps the addresses in `P`. -/
structure Extends (m : Phys) (d : Dir) (P : Word → Prop) (m' : Phys) (d' : Dir) : Prop where
  frame : d'.frame = d.frame
  stock : Stock m' d' = Stock m d
  count : m'.freelist.length + missing d = m.freelist.length + missing d'
  outside : ∀ x, ¬ P x → d'.pte x = d.pte x

theorem Extends.trans {P Q : Word → Prop} {m'' : Phys} {d'' : Dir} (h : Extends m d P m' d')
    (h' : Extends m' d' Q m'' d'') : Extends m d (fun x => P x ∨ Q x) m'' d'' where
  frame := h'.frame.trans h.frame
  stock := h'.stock.trans h.stock
  count := by
    have := h.count
    have := h'.count
    omega
  outside x hx := (h'.outside x fun hq => hx (.inr hq)).trans (h.outside x fun hp => hx (.inl hp))

theorem Extends.mono {P Q : Word → Prop} (h : Extends m d P m' d') (hsub : ∀ x, P x → Q x) :
    Extends m d Q m' d' :=
  ⟨h.frame, h.stock, h.count, fun x hx => h.outside x fun hp => hx (hsub x hp)⟩

theorem Extends.refl {P : Word → Prop} : Extends m d P m d := ⟨rfl, rfl, rfl, fun _ _ => rfl⟩

/-- `walkpgdir` adds an empty page table at most. -/
theorem walk_some (h : walkpgdir m d a true = some (m', d')) :
    (d'.pde (PDX a)).isSome ∧ Extends m d (fun _ => False) m' d' := by
  unfold walkpgdir at h
  cases ht : d.pde (PDX a) with
  | some t =>
    simp only [ht, Option.some.injEq, Prod.mk.injEq] at h
    obtain ⟨rfl, rfl⟩ := h
    exact ⟨by rw [ht]; rfl, .refl⟩
  | none =>
    simp only [ht, if_true] at h
    cases hk : Memory.kalloc m with
    | none => simp [hk] at h
    | some y =>
      obtain ⟨f, m₀⟩ := y
      simp only [hk, Option.some.injEq, Prod.mk.injEq] at h
      obtain ⟨rfl, rfl⟩ := h
      have hfree : m.freelist = f :: m₀.freelist := by
        unfold Memory.kalloc at hk
        split at hk
        · rename_i r next hl
          simp only [Option.some.injEq, Prod.mk.injEq] at hk
          obtain ⟨rfl, rfl⟩ := hk
          exact hl
        · exact absurd hk (by simp)
      refine ⟨by simp, rfl, ?_, ?_, fun x _ => ?_⟩
      · ext g
        constructor
        · rintro (hg | ⟨i, t, hi, rfl⟩)
          · exact .inl (hfree ▸ List.mem_cons_of_mem f hg)
          · rcases eq_or_ne i (PDX a) with rfl | hne
            · simp only [Function.update_self, Option.some.injEq] at hi
              subst hi
              exact .inl (hfree ▸ List.mem_cons_self)
            · simp only [Function.update_of_ne hne] at hi
              exact .inr ⟨i, t, hi, rfl⟩
        · rintro (hg | ⟨i, t, hi, rfl⟩)
          · rw [hfree] at hg
            rcases List.mem_cons.mp hg with rfl | hg
            · exact .inr ⟨PDX a, ⟨g, fun _ => 0⟩, Function.update_self .., rfl⟩
            · exact .inl hg
          · have hne : i ≠ PDX a := by
              rintro rfl
              simp [ht] at hi
            exact .inr ⟨i, t, by simp only [Function.update_of_ne hne, hi], rfl⟩
      · have hcount : missing { d with pde := Function.update d.pde (PDX a) (some ⟨f, fun _ => 0⟩) }
            + 1 = missing d := by
          refine countP_succ nodup_indices (mem_indices (PDX a)) (by simp [ht]) (by simp) ?_
          intro j hj
          simp only [Function.update_of_ne hj]
        have hlen := congrArg List.length hfree
        rw [List.length_cons] at hlen
        simp only [Phys.memset]
        omega
      · unfold Dir.pte
        by_cases hx : PDX x = PDX a
        · simp [hx, ht]
        · simp only [Function.update_of_ne hx]

theorem walk_none (h : walkpgdir m d a true = none) : m.freelist = [] ∧ d.pde (PDX a) = none := by
  unfold walkpgdir at h
  cases ht : d.pde (PDX a) with
  | some t => simp [ht] at h
  | none =>
    simp only [ht, if_true] at h
    cases hk : Memory.kalloc m with
    | some y => simp [hk] at h
    | none =>
      unfold Memory.kalloc at hk
      split at hk
      · exact absurd hk (by simp)
      · rename_i hl
        exact ⟨hl, rfl⟩

theorem missing_pos (h : d.pde (PDX a) = none) : missing d ≠ 0 :=
  (List.countP_pos_iff.mpr ⟨PDX a, mem_indices _, by simp [h]⟩).ne'

theorem set_extends (ht : (d.pde (PDX a)).isSome) (e : Word) :
    Extends m d (fun x => pageOf x = pageOf a) m (d.set a e) where
  frame := rfl
  stock := by
    have hframe := Dir.table_set d a e
    ext g
    constructor
    · rintro (hg | ⟨i, t, hi, rfl⟩)
      · exact .inl hg
      · have := hframe i
        rw [hi, Option.map_some] at this
        obtain ⟨t', hi', ht'⟩ := Option.map_eq_some_iff.mp this.symm
        exact .inr ⟨i, t', hi', ht'⟩
    · rintro (hg | ⟨i, t, hi, rfl⟩)
      · exact .inl hg
      · have := hframe i
        rw [hi, Option.map_some] at this
        obtain ⟨t', hi', ht'⟩ := Option.map_eq_some_iff.mp this
        exact .inr ⟨i, t', hi', ht'⟩
  count := by
    have hsame : missing (d.set a e) = missing d := by
      refine List.countP_congr fun i _ => ?_
      have := congrArg Option.isNone (Dir.table_set d a e i)
      rw [Option.isNone_map, Option.isNone_map] at this
      rw [this]
    rw [hsame]
  outside x hx := by rw [Dir.pte_set ht, if_neg hx]

/-- The entry of the address `x`, in a range that begins in page `v`. -/
def entry (v : ℕ) (pa perm x : Word) : Word :=
  (pa + BitVec.ofNat 32 (4096 * (pageOf x - v))) ||| perm ||| PTE_P

/-- The loop of `mappages` maps the pages from `v` to `w`, unless it runs out of pages. -/
theorem mapLoop_spec (hvw : v ≤ w) (hw : w < 2 ^ 20) (hfuel : w - v < fuel)
    (hnone : ∀ x, v ≤ pageOf x → pageOf x ≤ w → d.pte x &&& PTE_P = 0) :
    ∃ b m' d', mapLoop perm (addr w) fuel (addr v) pa m d = .returns (b, m', d') ∧
      Extends m d (fun x => v ≤ pageOf x ∧ pageOf x ≤ w) m' d' ∧
      (b = false → m'.freelist = [] ∧ missing d' ≠ 0) ∧
      (b = true → ∀ x, v ≤ pageOf x → pageOf x ≤ w → d'.pte x = entry v pa perm x) := by
  induction fuel generalizing v pa m d with
  | zero => omega
  | succ fuel ih =>
    have hpage := pageOf_addr (x := v) (by omega)
    rw [mapLoop]
    cases hwalk : walkpgdir m d (addr v) true with
    | none =>
      obtain ⟨hfree, htable⟩ := walk_none hwalk
      refine ⟨false, m, d, rfl, .refl, fun _ => ⟨hfree, missing_pos htable⟩, ?_⟩
      exact fun hb => absurd hb (by decide)
    | some y =>
      obtain ⟨m₁, d₁⟩ := y
      obtain ⟨hsome, hext⟩ := walk_some hwalk
      have hsame : ∀ x, d₁.pte x = d.pte x := fun x => hext.outside x not_false
      have hfresh : ¬ (d₁.pte (addr v) &&& PTE_P ≠ 0) := by
        rw [hsame]
        exact not_not.mpr (hnone _ (by omega) (by omega))
      have hset := set_extends (m := m₁) hsome (pa ||| perm ||| PTE_P)
      have hboth := hext.trans hset
      have hput : ∀ x, pageOf x = v →
          (d₁.set (addr v) (pa ||| perm ||| PTE_P)).pte x = entry v pa perm x := by
        intro x hx
        rw [Dir.pte_set hsome, hpage, if_pos hx]
        unfold entry
        rw [hx, Nat.sub_self, Nat.mul_zero, BitVec.add_zero]
      simp only [if_neg hfresh]
      by_cases hend : v = w
      · subst hend
        refine ⟨true, m₁, _, if_pos rfl, hboth.mono ?_, fun hb => absurd hb (by decide), ?_⟩
        · rintro x (hx | hx)
          · exact hx.elim
          · omega
        · intro _ x h₁ h₂
          exact hput x (by omega)
      · have hne : addr v ≠ addr w := by
          intro he
          have := congrArg pageOf he
          rw [hpage, pageOf_addr hw] at this
          exact hend this
        have hfresh' : ∀ x, v + 1 ≤ pageOf x → pageOf x ≤ w →
            (d₁.set (addr v) (pa ||| perm ||| PTE_P)).pte x &&& PTE_P = 0 := by
          intro x h₁ h₂
          have hother : ¬ (False ∨ pageOf x = pageOf (addr v)) := by
            rintro (h | h)
            · exact h
            · omega
          rw [hboth.outside x hother]
          exact hnone x (by omega) h₂
        obtain ⟨b, m₂, d₂, hloop, hext₂, hfail, hgood⟩ := @ih (pa + PGSIZE) (v + 1) m₁
          (d₁.set (addr v) (pa ||| perm ||| PTE_P)) (by omega) (by omega) hfresh'
        rw [if_neg hne, addr_add (by omega)]
        refine ⟨b, m₂, d₂, hloop, (hboth.trans hext₂).mono ?_, hfail, ?_⟩
        · rintro x ((hx | hx) | hx)
          · exact hx.elim
          · omega
          · omega
        · intro hb x h₁ h₂
          by_cases hx : pageOf x = v
          · rw [hext₂.outside x (by omega)]
            exact hput x hx
          · rw [hgood hb x (by omega) h₂]
            unfold entry
            have hshift : pa + PGSIZE + BitVec.ofNat 32 (4096 * (pageOf x - (v + 1))) =
                pa + BitVec.ofNat 32 (4096 * (pageOf x - v)) := by
              have hsize : PGSIZE = BitVec.ofNat 32 4096 := rfl
              rw [BitVec.add_assoc, hsize, ← BitVec.ofNat_add]
              congr 2
              omega
            rw [hshift]

/-! ### The ranges of kmap -/

namespace Kmap

/-- The first and the last page of a range. -/
def first (k : Kmap) : ℕ := pageOf k.virt
def final (k : Kmap) : ℕ := pageOf (k.virt + (k.phys_end - k.phys_start) - 1)

end Kmap

/-- Ranges that do not wrap and have no page in common. -/
structure Spans (ks : List Kmap) : Prop where
  ordered : ∀ k ∈ ks, k.first ≤ k.final
  disjoint : ks.Pairwise fun k l => k.final < l.first ∨ l.final < k.first

/-- The loop of `setupkvm` maps the ranges, unless it runs out of pages. -/
theorem mapKernel_spec (ks : List Kmap) (hks : Spans ks)
    (hnone : ∀ k ∈ ks, ∀ x, k.first ≤ pageOf x → pageOf x ≤ k.final → d.pte x &&& PTE_P = 0) :
    ∃ b m' d', mapKernel ks m d = .returns (b, m', d') ∧
      Extends m d (fun x => ∃ k ∈ ks, k.first ≤ pageOf x ∧ pageOf x ≤ k.final) m' d' ∧
      (b = false → m'.freelist = [] ∧ missing d' ≠ 0) ∧
      (b = true → ∀ k ∈ ks, ∀ x, k.first ≤ pageOf x → pageOf x ≤ k.final →
        d'.pte x = entry k.first k.phys_start k.perm x) := by
  induction ks generalizing m d with
  | nil =>
    refine ⟨true, m, d, rfl, .refl, fun hb => absurd hb (by decide), fun _ k hk => ?_⟩
    exact absurd hk List.not_mem_nil
  | cons k ks ih =>
    obtain ⟨hdisj, hrest⟩ := List.pairwise_cons.mp hks.disjoint
    have hlast : k.final < 2 ^ 20 := pageOf_lt _
    have hpages : Memory.NPAGES = 2 ^ 20 := rfl
    obtain ⟨b, m₁, d₁, hmap, hext, hfail, hgood⟩ := @mapLoop_spec k.phys_start k.perm k.first
      k.final Memory.NPAGES m d (hks.ordered k List.mem_cons_self) hlast (by omega)
      (hnone k List.mem_cons_self)
    have hrun : mappages m d k.virt (k.phys_end - k.phys_start) k.phys_start k.perm =
        .returns (b, m₁, d₁) := by
      unfold mappages
      rw [PGROUNDDOWN_eq, PGROUNDDOWN_eq]
      exact hmap
    rw [mapKernel, hrun]
    cases b with
    | false =>
      refine ⟨false, m₁, d₁, rfl, hext.mono ?_, hfail, fun hb => absurd hb (by decide)⟩
      exact fun x hx => ⟨k, List.mem_cons_self, hx⟩
    | true =>
      have hnone' : ∀ l ∈ ks, ∀ x, l.first ≤ pageOf x → pageOf x ≤ l.final →
          d₁.pte x &&& PTE_P = 0 := by
        intro l hl x h₁ h₂
        have hapart := hdisj l hl
        rw [hext.outside x (by omega)]
        exact hnone l (List.mem_cons_of_mem k hl) x h₁ h₂
      obtain ⟨b, m₂, d₂, hloop, hext₂, hfail₂, hgood₂⟩ :=
        ih ⟨fun l hl => hks.ordered l (List.mem_cons_of_mem k hl), hrest⟩ (m := m₁) hnone'
      refine ⟨b, m₂, d₂, hloop, (hext.trans hext₂).mono ?_, hfail₂, ?_⟩
      · rintro x (hx | ⟨l, hl, hx⟩)
        · exact ⟨k, List.mem_cons_self, hx⟩
        · exact ⟨l, List.mem_cons_of_mem k hl, hx⟩
      · intro hb l hl x h₁ h₂
        rcases List.mem_cons.mp hl with rfl | hl
        · rw [hext₂.outside x ?_]
          · exact hgood rfl x h₁ h₂
          · rintro ⟨l', hl', h₃, h₄⟩
            have hapart := hdisj l' hl'
            omega
        · exact hgood₂ hb l hl x h₁ h₂

/-! ### Freeing what was built -/

/-- A page that `kfree` takes. -/
def Allocatable (kend : Word) (f : ℕ) : Prop :=
  f < 2 ^ 20 ∧ freeable kend (P2V (BitVec.ofNat 32 (f * 4096)))

/-- The free pages are pages that have been freed, each once. -/
structure Stocked (kend : Word) (m : Phys) : Prop where
  nodup : m.freelist.Nodup
  pages : ∀ f ∈ m.freelist, Allocatable kend f

theorem kfree_page {f : ℕ} (h : Allocatable kend f) :
    kfree kend (P2V (BitVec.ofNat 32 (f * 4096))) m = some (Memory.kfree m f) := by
  obtain ⟨hlt, hfree⟩ := h
  have hframe : frameOf (BitVec.ofNat 32 (f * 4096)) = f := by
    unfold frameOf
    rw [BitVec.toNat_ofNat, Nat.mod_eq_of_lt (by omega)]
    exact Nat.mul_div_cancel f (by decide)
  rw [kfree, if_pos hfree, V2P_P2V, hframe]

theorem freeTables_spec (is : List Index)
    (h : ∀ i t, d.pde i = some t → Allocatable kend t.frame) :
    ∃ m', freeTables kend d is m = some m' ∧ ∀ f, f ∈ m'.freelist ↔
      f ∈ m.freelist ∨ ∃ i ∈ is, ∃ t, d.pde i = some t ∧ t.frame = f := by
  induction is generalizing m with
  | nil => exact ⟨m, rfl, fun f => by simp⟩
  | cons i is ih =>
    cases ht : d.pde i with
    | none =>
      obtain ⟨m₁, hrun, hfree⟩ := ih (m := m)
      refine ⟨m₁, by simp only [freeTables, ht, hrun], fun f => ?_⟩
      simp [hfree, ht]
    | some t =>
      obtain ⟨m₁, hrun, hfree⟩ := ih (m := Memory.kfree m t.frame)
      refine ⟨m₁, ?_, fun f => ?_⟩
      · simp only [freeTables, ht, kfree_page (h i t ht), Option.bind_some, hrun]
      · rw [hfree]
        have hput : f ∈ (Memory.kfree m t.frame).freelist ↔ f = t.frame ∨ f ∈ m.freelist :=
          List.mem_cons
        simp only [hput, List.exists_mem_cons_iff, ht, Option.some.injEq, exists_eq_left']
        rw [eq_comm, or_comm (a := t.frame = f), or_assoc]

/-- `freevm` of a directory without user pages frees its page tables and itself. -/
theorem freevm_spec (huser : ∀ a : Word, a.toNat < 2 ^ 31 → d.get a = none)
    (htables : ∀ i t, d.pde i = some t → Allocatable kend t.frame)
    (hdir : Allocatable kend d.frame) :
    ∃ m', freevm kend m d = .returns m' ∧ ∀ f, f ∈ m'.freelist ↔ f = d.frame ∨ f ∈ Stock m d := by
  have hok : UserOk kend d := by
    intro a ha e he
    rw [huser a ha] at he
    cases he
  have hnone : framesAt d (pages 0 KERNBASE) = [] := by
    refine framesAt_none fun x hx => ?_
    have hx := mem_pages.mp hx
    have hkern : KERNBASE.toNat = 2 ^ 31 := rfl
    have hget := huser (addr x) (by rw [toNat_addr (by omega)]; omega)
    unfold Dir.get at hget
    split at hget
    · exact absurd hget (by simp)
    · exact not_not.mp ‹_›
  have hclear : (d.clear fun x => (0 : Word).toNat ≤ x * 4096 ∧ x * 4096 < KERNBASE.toNat) = d := by
    refine Dir.ext' rfl (Dir.table_clear d) fun a => ?_
    rw [Dir.pte_clear, if_neg]
    rintro ⟨⟨-, hlt⟩, hp⟩
    have hkern : KERNBASE.toNat = 2 ^ 31 := rfl
    have hget := huser a (by unfold pageOf at hlt; omega)
    unfold Dir.get at hget
    rw [if_pos hp] at hget
    cases hget
  have hrun := deallocuvm_eq m ⟨d, hok⟩ (BitVec.le_refl KERNBASE) 0
  simp only [hnone, hclear, List.foldl_nil] at hrun
  obtain ⟨m₁, hfree, hmem⟩ := freeTables_spec (m := m) indices htables
  have hput : ∀ f, f ∈ (Memory.kfree m₁ d.frame).freelist ↔ f = d.frame ∨ f ∈ m₁.freelist :=
    fun f => List.mem_cons
  refine ⟨Memory.kfree m₁ d.frame, ?_, fun f => ?_⟩
  · unfold freevm
    rw [hrun]
    unfold indices at hfree
    simp only [hfree, Option.bind_some, kfree_page hdir]
  · rw [hput, hmem]
    refine or_congr_right (or_congr_right ?_)
    constructor
    · rintro ⟨i, -, t, ht⟩
      exact ⟨i, t, ht⟩
    · rintro ⟨i, t, ht⟩
      exact ⟨i, mem_indices i, t, ht⟩

/-! ### What the ranges map -/

/-- Where an address leads. -/
def translate (e va : Word) : Word := PTE_ADDR e + (va &&& 0xFFF)

/-- A range is mapped to its physical addresses, writable or not as it says, and not to the user. -/
def Maps (d : Dir) (k : Kmap) : Prop := ∀ n < (k.phys_end - k.phys_start).toNat,
  ∃ e, d.get (k.virt + BitVec.ofNat 32 n) = some e ∧
    translate e (k.virt + BitVec.ofNat 32 n) = k.phys_start + BitVec.ofNat 32 n ∧
    e &&& PTE_W = k.perm ∧ e &&& PTE_U = 0

/-- The low bits of an entry are those of the address that the range begins with. -/
theorem low_bits (pa : Word) (j : ℕ) : (pa + BitVec.ofNat 32 (4096 * j)) &&& 0xFFF = pa &&& 0xFFF := by
  have hmask : (0xFFF : Word).toNat = 2 ^ 12 - 1 := rfl
  refine BitVec.eq_of_toNat_eq ?_
  rw [BitVec.toNat_and, BitVec.toNat_and, hmask, Nat.and_two_pow_sub_one_eq_mod,
    Nat.and_two_pow_sub_one_eq_mod, BitVec.toNat_add, BitVec.toNat_ofNat]
  omega

theorem and_low {c : Word} (hc : c &&& 0xFFF = c) (pa : Word) (j : ℕ) :
    (pa + BitVec.ofNat 32 (4096 * j)) &&& c = pa &&& c := by
  rw [← hc, BitVec.and_comm c, ← BitVec.and_assoc, ← BitVec.and_assoc, low_bits]

theorem and_aligned {c : Word} (hc : c &&& 0xFFF = c) (ha : a.toNat % 4096 = 0) : a &&& c = 0 := by
  have hlow : a &&& 0xFFF = 0 := by
    have hmask : (0xFFF : Word).toNat = 2 ^ 12 - 1 := rfl
    refine BitVec.eq_of_toNat_eq ?_
    rw [BitVec.toNat_and, hmask, Nat.and_two_pow_sub_one_eq_mod]
    exact ha
  rw [← hc, BitVec.and_comm c, ← BitVec.and_assoc, hlow]
  exact BitVec.zero_and

/-- The flags of an entry, for the two values of `perm`. -/
theorem entry_flags (hperm : perm = 0 ∨ perm = PTE_W) (v : ℕ) (pa x : Word) :
    entry v pa perm x &&& PTE_P ≠ 0 ∧
      PTE_ADDR (entry v pa perm x) = PTE_ADDR (pa + BitVec.ofNat 32 (4096 * (pageOf x - v))) ∧
      entry v pa perm x &&& PTE_W = (pa &&& PTE_W) ||| perm ∧
      entry v pa perm x &&& PTE_U = pa &&& PTE_U := by
  have hw := and_low (c := PTE_W) (by decide) pa (pageOf x - v)
  have hu := and_low (c := PTE_U) (by decide) pa (pageOf x - v)
  unfold entry PTE_ADDR
  simp only [BitVec.and_or_distrib_right, hw, hu]
  refine ⟨fun h => ?_, ?_, ?_, ?_⟩
  · have hp : PTE_P &&& PTE_P = 1 := rfl
    rw [hp] at h
    have hbit := congrArg (fun y => y.getLsbD 0) h
    simp at hbit
  · have hp : PTE_P &&& ~~~(0xFFF : Word) = 0#32 := rfl
    have hw : PTE_W &&& ~~~(0xFFF : Word) = 0#32 := rfl
    have hz : 0 &&& ~~~(0xFFF : Word) = 0#32 := rfl
    rcases hperm with rfl | rfl
    · rw [hz, hp, BitVec.or_zero, BitVec.or_zero]
    · rw [hw, hp, BitVec.or_zero, BitVec.or_zero]
  · rcases hperm with rfl | rfl <;>
      simp [show PTE_P &&& PTE_W = 0 from rfl]
  · rcases hperm with rfl | rfl <;>
      simp [show PTE_P &&& PTE_U = 0 from rfl, show PTE_W &&& PTE_U = 0 from rfl]

/-- An entry leads to the right address iff the range begins at the same offset in both spaces. -/
theorem translate_iff {virt pa : Word} {n : ℕ} (hperm : perm = 0 ∨ perm = PTE_W)
    (hn : virt.toNat + n < 2 ^ 32) :
    translate (entry (pageOf virt) pa perm (virt + BitVec.ofNat 32 n)) (virt + BitVec.ofNat 32 n) =
        pa + BitVec.ofNat 32 n ↔ pa.toNat % 4096 = virt.toNat % 4096 := by
  have hmask : (0xFFF : Word).toNat = 2 ^ 12 - 1 := rfl
  have hsum : (virt + BitVec.ofNat 32 n).toNat = virt.toNat + n := by
    rw [BitVec.toNat_add, BitVec.toNat_ofNat]
    omega
  have hdist : pageOf (virt + BitVec.ofNat 32 n) - pageOf virt =
      (virt.toNat % 4096 + n) / 4096 := by
    unfold pageOf
    omega
  have hpa := pa.isLt
  have htarget : (pa + BitVec.ofNat 32 n).toNat = (pa.toNat + n) % 2 ^ 32 := by
    rw [BitVec.toNat_add, BitVec.toNat_ofNat]
    omega
  unfold translate
  rw [(entry_flags hperm _ _ _).2.1, hdist, BitVec.toNat_eq, htarget, BitVec.toNat_add,
    toNat_PTE_ADDR, BitVec.toNat_and, hmask, Nat.and_two_pow_sub_one_eq_mod, hsum,
    BitVec.toNat_add, BitVec.toNat_ofNat]
  omega

theorem maps_iff {k : Kmap} (hperm : k.perm = 0 ∨ k.perm = PTE_W)
    (hpos : k.phys_end ≠ k.phys_start)
    (hfits : k.virt.toNat + (k.phys_end - k.phys_start).toNat ≤ 2 ^ 32)
    (hd : ∀ x, k.first ≤ pageOf x → pageOf x ≤ k.final →
      d.pte x = entry k.first k.phys_start k.perm x) :
    Maps d k ↔ k.phys_start.toNat % 4096 = k.virt.toNat % 4096 ∧
      (k.phys_start &&& PTE_W) ||| k.perm = k.perm ∧ k.phys_start &&& PTE_U = 0 := by
  have hsize : (k.phys_end - k.phys_start).toNat ≠ 0 := by bv_omega
  have hat : ∀ n < (k.phys_end - k.phys_start).toNat, d.get (k.virt + BitVec.ofNat 32 n) =
      some (entry k.first k.phys_start k.perm (k.virt + BitVec.ofNat 32 n)) := by
    intro n hn
    have hx : (k.virt + BitVec.ofNat 32 n).toNat = k.virt.toNat + n := by
      rw [BitVec.toNat_add, BitVec.toNat_ofNat]
      omega
    have hl : (k.virt + (k.phys_end - k.phys_start) - 1).toNat =
        k.virt.toNat + (k.phys_end - k.phys_start).toNat - 1 := by bv_omega
    have hpte := hd (k.virt + BitVec.ofNat 32 n)
      (by unfold Kmap.first pageOf; omega) (by unfold Kmap.final pageOf; omega)
    unfold Dir.get
    rw [hpte, if_pos (entry_flags hperm _ _ _).1]
  constructor
  · intro h
    obtain ⟨e, he, htr, hw, hu⟩ := h 0 (by omega)
    rw [hat 0 (by omega)] at he
    obtain rfl := Option.some.inj he
    refine ⟨(translate_iff hperm (by omega)).mp htr, ?_, ?_⟩
    · exact (entry_flags hperm _ _ _).2.2.1.symm.trans hw
    · rw [← (entry_flags hperm k.first k.phys_start (k.virt + BitVec.ofNat 32 0)).2.2.2]
      exact hu
  · rintro ⟨halign, hw, hu⟩ n hn
    refine ⟨_, hat n hn, (translate_iff hperm (by omega)).mpr halign, ?_, ?_⟩
    · rw [(entry_flags hperm _ _ _).2.2.1, hw]
    · rw [(entry_flags hperm _ _ _).2.2.2, hu]

/-! ### setupkvm -/

/-- Where the linker puts the kernel, and what `main` relies on: the data segment begins a page, the
    text is not empty, and the kernel ends in the first 4 MB. -/
structure Linked (kend data : Word) : Prop where
  aligned : data.toNat % 4096 = 0
  text : KERNLINK < data
  order : data ≤ kend
  small : kend ≤ P2V 0x400000

/-- The sizes of a frame buffer that fits below the devices. -/
def Fits (gpu : Gpu) : Prop := 0 < gpu.vram_size ∧ gpu.vram_size ≤ DEVSPACE - 0xD0000000

/-- A range with the pages from `v` to `w`. -/
structure Span (k : Kmap) (v w : ℕ) : Prop where
  first : k.first = v
  final : k.final = w
  le : v ≤ w
  fits : k.virt.toNat + (k.phys_end - k.phys_start).toNat ≤ 2 ^ 32
  pos : k.phys_end ≠ k.phys_start
  perm : k.perm = 0 ∨ k.perm = PTE_W

theorem span_text (hl : Linked kend data) :
    Span ⟨KERNLINK, V2P KERNLINK, V2P data, 0⟩ 0x80100 (data.toNat / 4096 - 1) := by
  obtain ⟨haligned, htext, horder, hsmall⟩ := hl
  unfold KERNLINK KERNBASE EXTMEM at htext
  unfold P2V KERNBASE at hsmall
  have hlast : KERNLINK + (V2P data - V2P KERNLINK) - 1 = data - 1 := by
    unfold V2P KERNLINK KERNBASE EXTMEM
    bv_omega
  have hfirst : pageOf KERNLINK = 0x80100 := rfl
  refine ⟨hfirst, ?_, by bv_omega, ?_, ?_, .inl rfl⟩
  · unfold Kmap.final pageOf
    simp only [hlast]
    bv_omega
  · unfold V2P KERNLINK KERNBASE EXTMEM
    simp only
    bv_omega
  · unfold V2P KERNLINK KERNBASE EXTMEM
    simp only
    bv_omega

theorem span_data (hl : Linked kend data) :
    Span ⟨data, V2P data, PHYSTOP, PTE_W⟩ (data.toNat / 4096) 0x9FFFF := by
  obtain ⟨haligned, htext, horder, hsmall⟩ := hl
  unfold KERNLINK KERNBASE EXTMEM at htext
  unfold P2V KERNBASE at hsmall
  have hlast : data + (PHYSTOP - V2P data) - 1 = 0x9FFFFFFF := by
    unfold V2P PHYSTOP KERNBASE
    bv_omega
  refine ⟨rfl, ?_, by bv_omega, ?_, ?_, .inr rfl⟩
  · unfold Kmap.final pageOf
    simp only [hlast]
    rfl
  · unfold V2P PHYSTOP KERNBASE
    simp only
    bv_omega
  · unfold V2P PHYSTOP KERNBASE
    simp only
    bv_omega

theorem span_vram {gpu : Gpu} (hg : Fits gpu) :
    Span (vram gpu) ((DEVSPACE - gpu.vram_size).toNat / 4096) 0xFDFFF := by
  obtain ⟨hpos, hle⟩ := hg
  unfold DEVSPACE at hle
  have hlast : DEVSPACE - gpu.vram_size + (gpu.pvram_addr + gpu.vram_size - gpu.pvram_addr) - 1 =
      0xFDFFFFFF := by
    unfold DEVSPACE
    bv_omega
  refine ⟨rfl, ?_, ?_, ?_, ?_, .inr rfl⟩
  · unfold Kmap.final pageOf vram
    simp only [hlast]
    rfl
  · unfold DEVSPACE
    bv_omega
  · unfold vram DEVSPACE
    simp only
    bv_omega
  · unfold vram
    simp only
    bv_omega

theorem span_io : Span ⟨KERNBASE, 0, EXTMEM, PTE_W⟩ 0x80000 0x800FF :=
  ⟨rfl, rfl, by decide, by decide, by decide, .inr rfl⟩

theorem span_pci : Span ⟨PCI_BAR_BASE + PCI_VP_OFFSET, PCI_BAR_BASE, 0x10000000 + PCI_BAR_BASE, PTE_W⟩
    0xC0000 0xCFFFF :=
  ⟨rfl, rfl, by decide, by decide, by decide, .inr rfl⟩

theorem span_dev : Span ⟨DEVSPACE, DEVSPACE, 0, PTE_W⟩ 0xFE000 0xFFFFF :=
  ⟨rfl, rfl, by decide, by decide, by decide, .inr rfl⟩

/-- Every range of `kmap` has its pages. -/
theorem kmap_span {gpu : Gpu} (hl : Linked kend data) (hg : Fits gpu) :
    ∀ k ∈ kmap data gpu, Span k k.first k.final := by
  have hself : ∀ {k v w}, Span k v w → Span k k.first k.final := by
    intro k v w h
    rw [h.first, h.final]
    exact h
  unfold kmap
  simp only [List.forall_mem_cons, List.not_mem_nil, false_implies, implies_true, and_true]
  exact ⟨hself span_io, hself (span_text hl), hself (span_data hl), hself (span_vram hg),
    hself span_pci, hself span_dev⟩

theorem kmap_spans {gpu : Gpu} (hl : Linked kend data) (hg : Fits gpu) : Spans (kmap data gpu) where
  ordered k hk := (kmap_span hl hg k hk).le
  disjoint := by
    have htext := hl.text
    have hsmall := BitVec.le_trans hl.order hl.small
    have hlow : 0xD0000 ≤ (DEVSPACE - gpu.vram_size).toNat / 4096 := by
      obtain ⟨hpos, hle⟩ := hg
      unfold DEVSPACE at hle ⊢
      bv_omega
    unfold KERNLINK KERNBASE EXTMEM at htext
    unfold P2V KERNBASE at hsmall
    have hdata : 0x80100 ≤ data.toNat / 4096 ∧ data.toNat / 4096 ≤ 0x80400 := by bv_omega
    unfold kmap
    simp only [List.pairwise_cons, List.forall_mem_cons, List.not_mem_nil, false_implies,
      implies_true, and_true, List.Pairwise.nil, span_io.first, span_io.final,
      (span_text hl).first, (span_text hl).final, (span_data hl).first, (span_data hl).final,
      (span_vram hg).first, (span_vram hg).final, span_pci.first, span_pci.final, span_dev.first,
      span_dev.final]
    omega

theorem kmap_above {gpu : Gpu} (hl : Linked kend data) (hg : Fits gpu) :
    ∀ k ∈ kmap data gpu, 0x80000 ≤ k.first := by
  have htext := hl.text
  have hlow : 0x80000 ≤ (DEVSPACE - gpu.vram_size).toNat / 4096 := by
    obtain ⟨hpos, hle⟩ := hg
    unfold DEVSPACE at hle ⊢
    bv_omega
  unfold KERNLINK KERNBASE EXTMEM at htext
  have hdata : 0x80000 ≤ data.toNat / 4096 := by bv_omega
  unfold kmap
  simp only [List.forall_mem_cons, List.not_mem_nil, false_implies, implies_true, and_true,
    span_io.first, (span_text hl).first, (span_data hl).first, (span_vram hg).first,
    span_pci.first, span_dev.first]
  omega

/-- The kernel half of an address space is what `kmap` says, and the user half is empty. -/
structure Implements (data : Word) (gpu : Gpu) (d : Dir) : Prop where
  maps : ∀ k ∈ kmap data gpu, Maps d k
  user : ∀ va, va < KERNBASE → d.get va = none

/-- `setupkvm` keeps to `kmap`, whatever pages `kalloc` returns and whenever it fails: it does not
    panic, and leaves the kernel half as `kmap` says or the free pages as they were. -/
def SetupOk (kend data : Word) (gpu : Gpu) : Prop := ∀ m, Stocked kend m →
  (∃ d m', setupkvm kend data gpu m = .returns (some d, m') ∧ Implements data gpu d) ∨
    ∃ m', setupkvm kend data gpu m = .returns (none, m') ∧ ∀ f, f ∈ m'.freelist ↔ f ∈ m.freelist

/-- The frame buffer begins at the same offset in its page in both spaces, and the low bits of its
    physical address, which become flags, do not make it the user's. -/
def FrameBufferOk (gpu : Gpu) : Prop :=
  gpu.pvram_addr.toNat % 4096 = (DEVSPACE - gpu.vram_size).toNat % 4096 ∧
    gpu.pvram_addr &&& PTE_U = 0

/-- The ranges apart from the frame buffer are always right. -/
theorem implements_iff {gpu : Gpu} (hl : Linked kend data) (hg : Fits gpu)
    (huser : ∀ va, va < KERNBASE → d.get va = none)
    (hd : ∀ k ∈ kmap data gpu, ∀ x, k.first ≤ pageOf x → pageOf x ≤ k.final →
      d.pte x = entry k.first k.phys_start k.perm x) :
    Implements data gpu d ↔ FrameBufferOk gpu := by
  have halign := hl.aligned
  have hspan : ∀ k v w, Span k v w → k ∈ kmap data gpu → (Maps d k ↔
      k.phys_start.toNat % 4096 = k.virt.toNat % 4096 ∧
        (k.phys_start &&& PTE_W) ||| k.perm = k.perm ∧ k.phys_start &&& PTE_U = 0) :=
    fun k v w h hk => maps_iff h.perm h.pos h.fits (hd k hk)
  have hoff : (V2P data).toNat % 4096 = data.toNat % 4096 := by
    unfold V2P KERNBASE
    bv_omega
  have hdw : V2P data &&& PTE_W = 0 := and_aligned (by decide) (hoff.trans halign)
  have hdu : V2P data &&& PTE_U = 0 := and_aligned (by decide) (hoff.trans halign)
  have htext₀ : (V2P KERNLINK).toNat % 4096 = KERNLINK.toNat % 4096 ∧
      (V2P KERNLINK &&& PTE_W) ||| 0 = 0 ∧ V2P KERNLINK &&& PTE_U = 0 := by decide
  have hio := (hspan _ _ _ span_io (by simp [kmap])).mpr ⟨rfl, rfl, rfl⟩
  have htext := (hspan _ _ _ (span_text hl) (by simp [kmap])).mpr htext₀
  have hrw := (hspan _ _ _ (span_data hl) (by simp [kmap])).mpr
    ⟨hoff, by rw [hdw]; exact BitVec.zero_or, hdu⟩
  have hpci := (hspan _ _ _ span_pci (by simp [kmap])).mpr ⟨rfl, rfl, rfl⟩
  have hdev := (hspan _ _ _ span_dev (by simp [kmap])).mpr ⟨rfl, rfl, rfl⟩
  have hvram := hspan _ _ _ (span_vram hg) (by simp [kmap])
  have hw : (gpu.pvram_addr &&& PTE_W) ||| PTE_W = PTE_W := by
    refine BitVec.eq_of_getLsbD_eq fun i _ => ?_
    rw [BitVec.getLsbD_or, BitVec.getLsbD_and]
    cases gpu.pvram_addr.getLsbD _ <;> simp
  constructor
  · rintro ⟨hmaps, -⟩
    obtain ⟨hoff, -, hu⟩ := hvram.mp (hmaps _ (by simp [kmap]))
    exact ⟨hoff, hu⟩
  · rintro ⟨hoff, hu⟩
    refine ⟨?_, huser⟩
    unfold kmap
    simp only [List.forall_mem_cons, List.not_mem_nil, false_implies, implies_true, and_true]
    exact ⟨hio, htext, hrw, hvram.mpr ⟨hoff, hw, hu⟩, hpci, hdev⟩

/-- `setupkvm` does not panic; it builds what `kmap` says as far as the frame buffer is all right, or
    gives every page back. It gets through with 1100 pages. -/
theorem setupkvm_spec {gpu : Gpu} (hl : Linked kend data) (hg : Fits gpu) (hm : Stocked kend m) :
    (∃ d m', setupkvm kend data gpu m = .returns (some d, m') ∧
        (Implements data gpu d ↔ FrameBufferOk gpu)) ∨
      m.freelist.length < 1100 ∧ ∃ m', setupkvm kend data gpu m = .returns (none, m') ∧
        ∀ f, f ∈ m'.freelist ↔ f ∈ m.freelist := by
  have hphys : ¬ P2V PHYSTOP > DEVSPACE := by decide
  unfold setupkvm
  cases hk : Memory.kalloc m with
  | none =>
    unfold Memory.kalloc at hk
    split at hk
    · exact absurd hk (by simp)
    · rename_i hnil
      exact .inr ⟨by rw [hnil]; decide, m, rfl, fun f => Iff.rfl⟩
  | some y =>
    obtain ⟨pgdir, m₀⟩ := y
    have hlist : m.freelist = pgdir :: m₀.freelist := by
      unfold Memory.kalloc at hk
      split at hk
      · rename_i r next hl
        simp only [Option.some.injEq, Prod.mk.injEq] at hk
        obtain ⟨rfl, rfl⟩ := hk
        exact hl
      · exact absurd hk (by simp)
    have hzero : ∀ x, (⟨pgdir, fun _ => none⟩ : Dir).pte x = 0 := fun x => rfl
    obtain ⟨b, m₁, d₁, hrun, hext, hfail, hgood⟩ := mapKernel_spec (m := m₀.memset pgdir 0)
      (d := ⟨pgdir, fun _ => none⟩) (kmap data gpu) (kmap_spans hl hg) fun _ _ x _ _ => by
        rw [hzero]
        exact BitVec.zero_and
    have huser : ∀ va : Word, va.toNat < 2 ^ 31 → d₁.get va = none := by
      intro va hva
      have hpte : d₁.pte va = 0 := by
        rw [hext.outside va ?_, hzero]
        rintro ⟨k, hk, h₁, -⟩
        have := kmap_above hl hg k hk
        unfold pageOf at h₁
        omega
      unfold Dir.get
      rw [hpte, if_neg (by simp)]
    simp only [if_neg hphys, hrun]
    cases b with
    | true =>
      refine .inl ⟨d₁, m₁, rfl, implements_iff hl hg (fun va hva => huser va ?_) (hgood rfl)⟩
      have hkern : KERNBASE.toNat = 2 ^ 31 := rfl
      rw [← hkern]
      exact hva
    | false =>
      obtain ⟨hnil, hmissing⟩ := hfail rfl
      have hstock : ∀ f, f ∈ Stock m₁ d₁ ↔ f ∈ m₀.freelist := by
        intro f
        rw [hext.stock]
        constructor
        · rintro (hf | ⟨i, t, ht, -⟩)
          · exact hf
          · cases ht
        · exact .inl
      have hpages : ∀ f, f ∈ Stock m₁ d₁ → Allocatable kend f := by
        intro f hf
        refine hm.pages f ?_
        rw [hlist]
        exact List.mem_cons_of_mem _ ((hstock f).mp hf)
      have hdir : Allocatable kend d₁.frame := by
        rw [hext.frame]
        refine hm.pages pgdir ?_
        rw [hlist]
        exact List.mem_cons_self
      obtain ⟨m₂, hfree, hmem⟩ := freevm_spec (m := m₁) huser
        (fun i t ht => hpages _ (.inr ⟨i, t, ht, rfl⟩)) hdir
      have hcount := hext.count
      have hempty : missing (⟨pgdir, fun _ => none⟩ : Dir) = 1024 := by
        have hall : missing (⟨pgdir, fun _ => none⟩ : Dir) = indices.length :=
          List.countP_eq_length.mpr fun i _ => rfl
        rw [hall]
        unfold indices
        rw [List.length_map, List.length_range]
      refine .inr ⟨?_, m₂, by simp only [hfree], fun f => ?_⟩
      · rw [hnil, hempty] at hcount
        rw [hlist]
        simp only [List.length_cons, List.length_nil, Phys.memset] at hcount ⊢
        omega
      · rw [hmem, hstock, hext.frame, hlist, List.mem_cons]

/-- Free pages from the fourth megabyte on. -/
def bootPages : Phys := ⟨List.range' 0x400 1100, fun _ _ => 0⟩

theorem stocked_bootPages (h : kend ≤ P2V 0x400000) : Stocked kend bootPages where
  nodup := List.nodup_range'
  pages f hf := by
    have hf := List.mem_range'_1.mp hf
    unfold P2V KERNBASE at h
    refine ⟨by omega, ?_⟩
    have hsmall : (BitVec.ofNat 32 (f * 4096) : Word).toNat = f * 4096 := by
      rw [BitVec.toNat_ofNat]
      omega
    unfold freeable
    rw [V2P_P2V]
    unfold P2V KERNBASE PHYSTOP
    simp only [decide_eq_true_eq]
    rintro (hx | hx | hx) <;> bv_omega

/-- With enough pages `setupkvm` gets through, and shows whether the frame buffer is all right. -/
theorem frameBufferOk_of_setupOk {gpu : Gpu} (hl : Linked kend data) (hg : Fits gpu)
    (h : SetupOk kend data gpu) : FrameBufferOk gpu := by
  have hm := stocked_bootPages hl.small
  have hlen : bootPages.freelist.length = 1100 := List.length_range'
  rcases setupkvm_spec hl hg hm with ⟨d, m', hrun, hiff⟩ | ⟨hlt, -⟩
  · rcases h bootPages hm with ⟨d', m'', hrun', himp⟩ | ⟨m'', hrun', -⟩
    · rw [hrun] at hrun'
      simp only [Ends.returns.injEq, Prod.mk.injEq, Option.some.injEq] at hrun'
      obtain ⟨rfl, -⟩ := hrun'
      exact hiff.mp himp
    · rw [hrun] at hrun'
      simp at hrun'
  · omega

/-- `setupkvm` does what `kmap` says exactly for the frame buffers whose physical and virtual start
    have the same offset in their pages, and whose low bits do not open it to the user. -/
theorem setupkvm_ok_iff {gpu : Gpu} (hl : Linked kend data) (hg : Fits gpu) :
    SetupOk kend data gpu ↔ FrameBufferOk gpu := by
  constructor
  · exact frameBufferOk_of_setupOk hl hg
  · intro h m hm
    rcases setupkvm_spec hl hg hm with ⟨d, m', hrun, hiff⟩ | ⟨-, hfail⟩
    · exact .inl ⟨d, m', hrun, hiff.mpr h⟩
    · exact .inr hfail

/-- A kernel of 1 MB, and a screen of 800 by 600 pixels of four bytes each. -/
theorem linked_small : Linked 0x80200000 0x80110000 := ⟨by decide, by decide, by decide, by decide⟩

def screen : Gpu := ⟨0xC0000000, 1920000⟩

theorem fits_screen : Fits screen := ⟨by decide, by decide⟩

theorem setupkvm_ok_iff_screen : Linked 0x80200000 0x80110000 ∧ Fits screen ∧
    (SetupOk 0x80200000 0x80110000 screen ↔ FrameBufferOk screen) :=
  ⟨linked_small, fits_screen, setupkvm_ok_iff linked_small fits_screen⟩

/-- The buffer of that screen begins with a page of the memory, and 1024 bytes into a page of the
    kernel half: everything is seen 1024 bytes off. -/
theorem screen_shifted : ¬ SetupOk 0x80200000 0x80110000 screen := by
  intro h
  obtain ⟨hoff, -⟩ := frameBufferOk_of_setupOk linked_small fits_screen h
  exact absurd hoff (by decide)

end Xv6.Vm
