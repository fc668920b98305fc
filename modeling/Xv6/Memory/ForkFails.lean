import Xv6.Memory.Count
import Xv6.Memory.Tasks

/-! @src proc.c vm.c | name:A fork that fails | layer:proof

    `fork` gives back what it has taken, but for one page: where `copyuvm` has copied a page and
    `mappages` gets no page table for it, the copy is lost. That happens exactly when the free
    pages end right after the first page of a page table. -/

namespace Xv6.Memory
open Xv6.Schemes
open Xv6.Schemes.X86 (Word)
open Xv6.Process (NPROC Slot ProcState Trapframe)

/-! ### copyuvm -/

/-- From the page `v` on, the free pages end after the copy of a page that needs a page table. -/
def LastForCopy (sz : Word) (v free : ℕ) : Prop :=
  ∃ j, v ≤ 1024 * j ∧ 1024 * j * PGSIZE < sz.toNat ∧ free + v + (v + 1023) / 1024 = 1 + 1025 * j

section

variable {m m₁ : Phys} {d d₁ P : Pgdir} {O : Set Frame} {sz : Word}

/-- What a loop that copies leaves, `lost` being whether it has lost the page it has just copied. -/
def Copied (m : Phys) (d : Pgdir) (m₁ : Phys) (d₁ : Pgdir) (lost : Prop) : Prop :=
  (¬ lost → stock m₁ d₁ = stock m d) ∧
    (lost → ∃ mem, mem ∉ stock m₁ d₁ ∧ insert mem (stock m₁ d₁) = stock m d)

theorem Copied.congr {lost lost' : Prop} (h : Copied m d m₁ d₁ lost) (hiff : lost ↔ lost') :
    Copied m d m₁ d₁ lost' := ⟨fun hn => h.1 (mt hiff.mp hn), fun hl => h.2 (hiff.mpr hl)⟩

theorem Copied.of_eq {m₀ : Phys} {d₀ : Pgdir} {lost : Prop} (heq : stock m₀ d₀ = stock m d)
    (h : Copied m₀ d₀ m₁ d₁ lost) : Copied m d m₁ d₁ lost := by
  rwa [Copied, ← heq]

/-- The loop of `copyuvm`, with the page tables of the pages below `v` there. -/
theorem copyLoop_lost (hmax : sz ≤ KERNBASE) {fuel v : ℕ} {b : Bool} (h : Held m d O)
    (hfuel : UPAGES ≤ v + fuel) (hnone : ∀ x ∈ pagesFrom v sz, d.get x = none)
    (htables : ∀ i, i < 512 → (i ∈ d.tables ↔ i * 1024 < v))
    (hsize : d.Sized) (hl : copyLoop P sz fuel v m d = some (b, m₁, d₁)) :
    Held m₁ d₁ O ∧ d₁.Sized ∧ Copied m d m₁ d₁ (LastForCopy sz v m.freelist.length) ∧
      (b = true → ¬ LastForCopy sz v m.freelist.length) := by
  have hdone : ¬ v * PGSIZE < sz.toNat → ¬ LastForCopy sz v m.freelist.length := by
    rintro hv ⟨j, hj, hlim, -⟩
    exact hv ((Nat.mul_le_mul_right PGSIZE hj).trans_lt hlim)
  induction fuel generalizing v m d with
  | zero =>
    obtain ⟨rfl, rfl, rfl⟩ : true = b ∧ m = m₁ ∧ d = d₁ := by simpa [copyLoop] using hl
    have hout : ¬ v * PGSIZE < sz.toNat := fun hv => by
      have := lt_UPAGES hmax hv
      omega
    exact ⟨h, hsize, ⟨fun _ => rfl, fun hlost => absurd hlost (hdone hout)⟩, fun _ => hdone hout⟩
  | succ fuel ih =>
    by_cases hv : v * PGSIZE < sz.toNat
    · rw [copyLoop, if_pos hv] at hl
      have hu := lt_UPAGES hmax hv
      have hv' : v < 0x80000 := hu
      have hpdx : PDX v = v / 1024 := rfl
      have htable := htables (PDX v) (by omega)
      cases hw : walkpgdir m P v false with
      | none => simp [hw] at hl
      | some _ =>
      cases hP : P.get v with
      | none => simp [hw, hP] at hl
      | some e =>
      cases hk : kalloc m with
      | none =>
        -- no page for the copy
        obtain ⟨rfl, rfl, rfl⟩ : false = b ∧ m = m₁ ∧ d = d₁ := by simpa [hw, hP, hk] using hl
        have hnot : ¬ LastForCopy sz v m.freelist.length := by
          rintro ⟨j, hj, -, hn⟩
          rw [kalloc_none hk, List.length_nil] at hn
          omega
        exact ⟨h, hsize, ⟨fun _ => rfl, fun hlost => absurd hlost hnot⟩, fun _ => hnot⟩
      | some y =>
        obtain ⟨mem, m₀⟩ := y
        obtain ⟨h₀, hmem, -⟩ := kalloc_scratch (V := ∅) (m₀.memmove mem e.frame) h hk rfl
          fun g hg => by simp [Phys.memmove, hg]
        have hlen := length_kalloc hk
        have htake : insert mem (stock (m₀.memmove mem e.frame) d) = stock m d := by
          rw [stock, stock, frees_kalloc hk, Set.insert_union]
          rfl
        have hfin : d.tables.Finite := (Set.finite_lt_nat NPDENTRIES).subset hsize
        rcases mappages_user (w := e.w) (u := e.u) h₀ hmem hu (hnone v ⟨le_rfl, hv⟩) with
          hmap | ⟨m₂, d₂, hmap, h₂, hev₂, -, -⟩
        · -- no page table for the copy
          simp only [hw, hP, hk, hmap] at hl
          obtain ⟨rfl, rfl, rfl⟩ : false = b ∧ m₀.memmove mem e.frame = m₁ ∧ d = d₁ := by
            simpa using hl
          obtain ⟨hempty, hmissing⟩ := (takes_mappages hfin hmap).missing rfl
          rw [tablesOf_succ, tablesOf_zero, insert_empty_eq, Set.singleton_subset_iff, htable]
            at hmissing
          have hempty' : m₀.freelist = [] := hempty
          have hlost : LastForCopy sz v m.freelist.length := by
            have hfirst : 1024 * (v / 1024) = v := by omega
            refine ⟨v / 1024, hfirst.ge, by rwa [hfirst], ?_⟩
            rw [hlen, hempty', List.length_nil]
            omega
          refine ⟨h₀.mono (Set.subset_insert mem O), hsize, ⟨fun hn => absurd hlost hn, fun _ =>
            ⟨mem, ?_, htake⟩⟩, fun hb => absurd hb (by decide)⟩
          rintro (hfree | ⟨i, hi⟩)
          · exact h₀.owns.elsewhere mem (Set.mem_insert mem O) hfree
          · exact h₀.owns.apart i mem hi (Set.mem_insert mem O)
        · simp only [hw, hP, hk, hmap] at hl
          have htakes := takes_mappages hfin hmap
          have hall := htakes.all rfl
          have hcount := htakes.count
          rw [tablesOf_succ, tablesOf_zero, insert_empty_eq, Set.union_singleton] at hall
          have hsize₂ : d₂.Sized := hsize.insert (hu.trans_le (by decide)) hall
          have hstock : stock m₂ d₂ = stock m d := by
            rcases stock_mappages hu hmap with ⟨-, hs⟩ | ⟨hb, -⟩
            · exact hs.trans htake
            · exact absurd hb (by decide)
          have hnone₂ : ∀ x ∈ pagesFrom (v + 1) sz, d₂.get x = none := by
            intro x hx
            have hne : x ∉ ({v} : Set ℕ) := by
              rintro rfl
              exact absurd hx.1 (Nat.not_succ_le_self x)
            rw [hev₂.same x hne]
            exact hnone x (pagesFrom_mono (Nat.le_succ v) hx)
          have htables₂ : ∀ i, i < 512 → (i ∈ d₂.tables ↔ i * 1024 < v + 1) := by
            intro i hi
            rw [hall, Set.mem_insert_iff, htables i hi, hpdx]
            omega
          obtain ⟨h₃, hsize₃, hcopied, htrue⟩ :=
            ih h₂ (by omega) hnone₂ htables₂ hsize₂ hl fun hout => by
              rintro ⟨j, hj, hlim, -⟩
              exact hout ((Nat.mul_le_mul_right PGSIZE hj).trans_lt hlim)
          have hcount' : m₂.freelist.length + d₂.tables.ncard =
              m₀.freelist.length + d.tables.ncard := hcount
          rw [hall] at hcount'
          have hiff : LastForCopy sz (v + 1) m₂.freelist.length ↔
              LastForCopy sz v m.freelist.length := by
            by_cases hin : PDX v ∈ d.tables
            · rw [Set.insert_eq_of_mem hin] at hcount'
              have hpos := htable.mp hin
              exact exists_congr fun j => by omega
            · rw [Set.ncard_insert_of_notMem hin hfin] at hcount'
              have hfirst := mt htable.mpr hin
              exact exists_congr fun j => by omega
          exact ⟨h₃, hsize₃, (hcopied.of_eq hstock).congr hiff, fun hb => mt hiff.mpr (htrue hb)⟩
    · obtain ⟨rfl, rfl, rfl⟩ : true = b ∧ m = m₁ ∧ d = d₁ := by
        rw [copyLoop, if_neg hv] at hl
        simpa using hl
      exact ⟨h, hsize, ⟨fun _ => rfl, fun hlost => absurd hlost (hdone hv)⟩, fun _ => hdone hv⟩

/-- The free pages end, in `copyuvm`, after the copy of a page that needs a page table. -/
def LastCopied (kmap : List Kmap) (sz : Word) (free : ℕ) : Prop :=
  ∃ j, 1024 * j * PGSIZE < sz.toNat ∧ free = 2 + (kernelTables kmap).card + 1025 * j

/-- `copyuvm` makes an address space, or frees what it has taken, but for a page in one case. -/
theorem copyuvm_lost {kmap : List Kmap} {r : Option Pgdir} (hk : KmapIn kmap) (h : Clean m O)
    (hmax : sz ≤ KERNBASE) (hc : copyuvm kmap m P sz = some (r, m₁)) :
    Clean m₁ O ∧
      (∀ d₁, r = some d₁ → Held m₁ d₁ O ∧ ¬ LastCopied kmap sz m.freelist.length) ∧
      (r = none → (¬ LastCopied kmap sz m.freelist.length → m₁.frees = m.frees) ∧
        (LastCopied kmap sz m.freelist.length → ∃ mem ∈ m.frees, mem ∉ m₁.frees)) := by
  obtain ⟨x, m₂, hs, hb⟩ := setupkvm_spec hk.toKmapOk h
  obtain ⟨x', m₂', hs', hcount, hfail⟩ := setupkvm_count hk h
  obtain ⟨rfl, rfl⟩ := Prod.mk.inj (Option.some.inj (hs.symm.trans hs'))
  obtain ⟨hstock, hnostock⟩ := stock_setupkvm hk h hs
  unfold copyuvm at hc
  cases x with
  | none =>
    obtain ⟨rfl, rfl⟩ : none = r ∧ m₂ = m₁ := by simpa [hs] using hc
    refine ⟨hb.1, fun _ he => absurd he (by simp), fun _ => ⟨fun _ => hnostock rfl, ?_⟩⟩
    rintro ⟨j, -, hn⟩
    have := hfail rfl
    omega
  | some d =>
    obtain ⟨hheld, -, hnone⟩ := hb
    obtain ⟨htables, hn⟩ := hcount d rfl
    obtain ⟨hstock, hsize⟩ := hstock d rfl
    simp only [hs] at hc
    have htables₀ : ∀ i, i < 512 → (i ∈ d.tables ↔ i * 1024 < 0) := fun i hi => by
      rw [htables]
      refine iff_of_false (fun hin => ?_) (Nat.not_lt_zero _)
      obtain ⟨-, k, hk', -, hle, -⟩ := Finset.mem_filter.mp hin
      have habove : 0x80000 ≤ k.v := hk.above k hk'
      have hpdx : PDX k.v = k.v / 1024 := rfl
      omega
    cases hl : copyLoop P sz NPAGES 0 m₂ d with
    | none => simp [hl] at hc
    | some y =>
      obtain ⟨b, m₃, d₃⟩ := y
      obtain ⟨h₃, hsize₃, ⟨hkept, hlost⟩, hthrough⟩ := copyLoop_lost (v := 0) hmax hheld
        (Nat.le_add_left_of_le (by decide : UPAGES ≤ NPAGES))
        (fun x hx => hnone x (lt_UPAGES hmax hx.2)) htables₀ hsize hl
      have hiff : LastForCopy sz 0 m₂.freelist.length ↔
          LastCopied kmap sz m.freelist.length := by
        constructor
        · rintro ⟨j, -, hj, hj'⟩
          exact ⟨j, hj, by omega⟩
        · rintro ⟨j, hj, hj'⟩
          exact ⟨j, Nat.zero_le _, hj, by omega⟩
      simp only [hl] at hc
      cases b with
      | true =>
        obtain ⟨rfl, rfl⟩ := Prod.mk.inj (Option.some.inj hc)
        refine ⟨h₃.clean, fun d₁ he => ?_, fun he => absurd he (by simp)⟩
        obtain rfl := Option.some.inj he
        exact ⟨h₃, fun hlast => hthrough rfl (hiff.mpr hlast)⟩
      | false =>
        obtain ⟨rfl, rfl⟩ := Prod.mk.inj (Option.some.inj hc)
        have hfree : (freevm m₃ d₃).frees = stock m₃ d₃ := frees_freevm h₃ hsize₃
        refine ⟨(freevm_spec h₃).1, fun _ he => absurd he (by simp), fun _ => ⟨fun hl' => ?_,
          fun hl' => ?_⟩⟩
        · rw [hfree, hkept fun hlast => hl' (hiff.mp hlast), hstock]
        · obtain ⟨mem, hout, hins⟩ := hlost (hiff.mpr hl')
          refine ⟨mem, ?_, hfree.symm ▸ hout⟩
          rw [← hstock, ← hins]
          exact Set.mem_insert _ _

end

/-! ### fork -/

/-- The call has left no trace in memory. -/
structure NoTrace (s t : Kernel) (p : Slot) : Prop where
  free : t.mem.frees = s.mem.frees
  used : ∀ q, (t.task q).state ≠ .UNUSED ↔ (s.task q).state ≠ .UNUSED
  files : ∀ f, (t.file f).ref = (s.file f).ref
  inodes : t.iref = s.iref
  parent : t.task p = s.task p

/-- The free pages end, in `fork`, after the copy of a page that needs a page table: with the kernel
    stack, the page directory, the page tables of the kernel, and 1024 pages with their page table
    each time, before it. -/
def LosesPage (w : World) (s : Kernel) (p : Slot) : Prop :=
  (∃ q, (s.task q).state = .UNUSED) ∧
    ∃ j, 1024 * j * PGSIZE < (s.task p).image.sz.toNat ∧
      s.mem.freelist.length = 3 + (kernelTables w.kmap).card + 1025 * j

section

variable {w : World} {s t : Kernel} {p np : Slot} {f : Frame} {m : Phys}

/-- What `allocproc` does: it finds no slot, or no kernel stack, or both. -/
theorem allocproc_cases (s : Kernel) :
    (∀ q, (s.task q).state ≠ .UNUSED) ∧ s.allocproc = (none, s) ∨
    ∃ np, (s.task np).state = .UNUSED ∧
      (s.mem.freelist = [] ∧ s.allocproc = (none, { s with
        nextpid := s.nextpid + 1
        task := Function.update s.task np { s.task np with pid := s.nextpid, state := .UNUSED } }) ∨
      ∃ f m, kalloc s.mem = some (f, m) ∧ s.allocproc = (some np, { s with
        mem := m
        nextpid := s.nextpid + 1
        task := Function.update s.task np
          { s.task np with pid := s.nextpid, state := .EMBRYO, kstack := f } })) := by
  unfold Kernel.allocproc
  cases hfind : (List.finRange NPROC).find? fun p => (s.task p).state = .UNUSED with
  | none =>
    refine Or.inl ⟨fun q hq => ?_, rfl⟩
    have := List.find?_eq_none.mp hfind q (List.mem_finRange q)
    simp [hq] at this
  | some np =>
    have hunused : (s.task np).state = .UNUSED := by simpa using List.find?_some hfind
    refine Or.inr ⟨np, hunused, ?_⟩
    cases hk : kalloc s.mem with
    | none => exact Or.inl ⟨kalloc_none hk, by simp [Kernel.setTask, hk]⟩
    | some y =>
      obtain ⟨f, m⟩ := y
      exact Or.inr ⟨f, m, rfl, by simp [Kernel.setTask, hk]⟩

/-- A slot that `fork` has taken and given back. -/
theorem NoTrace.of_slot {r : Task} {n : ℕ} (hp : p ≠ np) (hnp : (s.task np).state = .UNUSED)
    (hr : r.state = .UNUSED) (hfree : m.frees = s.mem.frees) :
    NoTrace s { s with mem := m, nextpid := n, task := Function.update s.task np r } p where
  free := hfree
  used := fun q => by
    rcases eq_or_ne q np with rfl | hne
    · simp [hnp, hr]
    · simp [hne]
  files := fun _ => rfl
  inodes := rfl
  parent := by simp [hp]

/-- A call of `fork` that fails leaves no trace, or loses one page. -/
theorem fork_noTrace_iff (hk : KmapIn w.kmap) (hnodup : s.mem.freelist.Nodup)
    (hsz : (s.task p).image.sz ≤ KERNBASE) (hused : (s.task p).state ≠ .UNUSED)
    (hf : s.fork w p = some (-1, t)) : NoTrace s t p ↔ ¬ LosesPage w s p := by
  rcases allocproc_cases s with ⟨hnone, ha⟩ | ⟨np, hnp, ⟨hempty, ha⟩ | ⟨f, m₀, hka, ha⟩⟩
  · simp only [Kernel.fork, ha] at hf
    obtain ⟨-, rfl⟩ := Prod.mk.inj (Option.some.inj hf)
    refine iff_of_true ⟨rfl, fun _ => Iff.rfl, fun _ => rfl, rfl, rfl⟩ ?_
    rintro ⟨⟨q, hq⟩, -⟩
    exact hnone q hq
  · simp only [Kernel.fork, ha] at hf
    obtain ⟨-, rfl⟩ := Prod.mk.inj (Option.some.inj hf)
    have hp : p ≠ np := fun he => hused (he ▸ hnp)
    refine iff_of_true (.of_slot hp hnp rfl rfl) ?_
    rintro ⟨-, j, -, hlen⟩
    rw [hempty, List.length_nil] at hlen
    omega
  · have hp : p ≠ np := fun he => hused (he ▸ hnp)
    obtain ⟨hclean, -, -⟩ := kalloc_clean (O := ∅)
      ⟨hnodup, fun _ hf => absurd hf (Set.notMem_empty _)⟩ hka
    have hfout : f ∉ m₀.frees := hclean.elsewhere f (Set.mem_insert f ∅)
    have hlen := length_kalloc hka
    have hiff : LastCopied w.kmap (s.task p).image.sz m₀.freelist.length ↔ LosesPage w s p := by
      constructor
      · rintro ⟨j, hj, hn⟩
        exact ⟨⟨np, hnp⟩, j, hj, by omega⟩
      · rintro ⟨-, j, hj, hn⟩
        exact ⟨j, hj, by omega⟩
    simp only [Kernel.fork, ha, Function.update_of_ne hp] at hf
    split at hf
    · exact absurd hf (by simp)
    · rename_i m₁ hcopy
      obtain ⟨-, -, hnone⟩ := copyuvm_lost hk hclean hsz hcopy
      obtain ⟨hkept, hlost⟩ := hnone rfl
      simp only [Kernel.setTask, Function.update_self, Function.update_idem] at hf
      obtain ⟨-, rfl⟩ := Prod.mk.inj (Option.some.inj hf)
      rw [← hiff]
      constructor
      · intro htrace hl
        obtain ⟨mem, hin, hout⟩ := hlost hl
        have hback : mem ∈ insert f m₁.frees := by
          rw [← frees_kfree, htrace.free, frees_kalloc hka]
          exact Set.mem_insert_of_mem _ hin
        rcases hback with rfl | hmem
        · exact hfout hin
        · exact hout hmem
      · intro hl
        refine .of_slot hp hnp rfl ?_
        rw [frees_kfree, hkept hl, frees_kalloc hka]
    · -- the call returns a pid
      obtain ⟨s₁, -, hf⟩ := Option.bind_eq_some_iff.mp hf
      obtain ⟨ip, -, hf⟩ := Option.map_eq_some_iff.mp hf
      have hpid := (Prod.mk.inj hf).1
      omega

end

end Xv6.Memory
