import Xv6.Memory.Count
import Xv6.Memory.Tasks
import Mathlib.Tactic.IntervalCases

/-! @src exec.c vm.c | name:The arguments of exec | layer:proof

    `copyout` writes user pages of the new address space as long as it finds the page tables of the
    addresses it is asked to write. It does for an argument that fits below the stack pointer. One
    that does not wraps around into the kernel half, where a page table may be missing. -/

namespace Xv6.Memory
open Xv6.Schemes
open Xv6.Schemes.X86 (Word)
open Xv6.Process (NPROC Slot ProcState Trapframe)

/-- The word at address 0, which stands for a missing page table entry, looks like one of a user
    page. -/
def StrayWord (s : Kernel) (p : Slot) : Prop :=
  ∃ x, loadWord s.mem (s.cr3 p) 0 = some x ∧ x.getLsbD 0 = true ∧ x.getLsbD 2 = true ∧
    (UPAGES + x.toNat / PGSIZE) % NPAGES ≠ 0

/-- Where `exec` puts an argument below the stack pointer. -/
def below (sp : Word) (arg : List Byte) : Word := (sp - BitVec.ofNat 32 (arg.length + 1)) &&& ~~~3

/-- The first argument that does not fit below the stack pointer wraps around to an address whose
    page table is there, unless one before it has run into the guard page below the stack. -/
def Tabled (kmap : List Kmap) (top : Word) : Word → List (List Byte) → Prop
  | _, [] => True
  | sp, arg :: argv =>
    if arg.length + 1 ≤ sp.toNat then
      top.toNat ≤ (below sp arg).toNat + PGSIZE → Tabled kmap top (below sp arg) argv
    else PDX ((below sp arg).toNat / PGSIZE) ∈ kernelTables kmap

/-- The size of the image that the loop of `exec` over the program headers makes, if it gets
    through. -/
def imageEnd : List (Option Proghdr) → Word → Option Word
  | [], sz => some sz
  | none :: _, _ => none
  | some ph :: rest, sz =>
    if ¬ ph.load then imageEnd rest sz
    else if ph.memsz < ph.filesz ∨ ph.vaddr + ph.memsz < ph.vaddr ∨
        ph.vaddr + ph.memsz ≥ KERNBASE ∨ ph.vaddr.toNat % PGSIZE ≠ 0 ∨
        ∃ k ∈ List.range NPAGES, k * PGSIZE < ph.filesz.toNat ∧ ph.readable k = false then none
    else
      let sz := if ph.vaddr + ph.memsz < sz then sz else ph.vaddr + ph.memsz
      if sz = 0 then none else imageEnd rest sz

/-- The top of the stack. -/
def stackTop (sz : Word) : Word :=
  BitVec.ofNat 32 (pageUp sz * PGSIZE) + 2 * BitVec.ofNat 32 PGSIZE

/-- `exec` does not take the word at address 0 for a page table entry. -/
def Tidy (w : World) (s : Kernel) (p : Slot) (path : List Byte) (argv : List (List Byte)) : Prop :=
  ∀ ip elf sz, w.namei (s.task p).cwd path = some ip → elfhdr (w.inode ip) = some elf →
    imageEnd (proghdrs (w.inode ip) elf) 0 = some sz → stackTop sz < KERNBASE → StrayWord s p →
    Tabled w.kmap (stackTop sz) (stackTop sz) (argv.take MAXARG)

section

variable {w : World} {s t : Kernel} {p : Slot} {m m₁ : Phys} {d d₁ : Pgdir} {O : Set Frame}
  {sz sp : Word}

/-! ### copyout -/

theorem mem_tables {v : ℕ} {e : Pte} (h : d.get v = some e) : PDX v ∈ d.tables := by
  cases hp : d.pde (PDX v) with
  | some t => simp [Pgdir.tables, hp]
  | none => simp [Pgdir.get, hp] at h

/-- `uva2ka` of an address whose page table is there. -/
theorem uva2ka_tabled {v : ℕ} (ht : PDX v ∈ d.tables) :
    s.uva2ka p d v = some ((d.get v).elim .null fun e => if e.u then .user e else .null) := by
  obtain ⟨t, ht⟩ := Option.isSome_iff_exists.mp (ht : (d.pde (PDX v)).isSome)
  simp only [Kernel.uva2ka, walkpgdir, ht]
  cases d.get v <;> rfl

/-- The addresses that `copyout` has written are the user's. -/
def UserAt (d : Pgdir) (va : Word) (len : ℕ) : Prop :=
  ∀ a, va.toNat ≤ a → a < va.toNat + len → ∃ e, d.get (a / PGSIZE) = some e ∧ e.u = true

theorem copyLoopOut_nil (fuel : ℕ) (va : Word) :
    Kernel.copyLoopOut p fuel s d va [] = some (true, s, d) := by
  cases fuel <;> simp [Kernel.copyLoopOut]

/-- Copying below the size of the address space. -/
theorem copyLoopOut_below {fuel : ℕ} {va : Word} {buf : List Byte} {b : Bool} (h : Held s.mem d O)
    (hd : Dense ⟨d, sz⟩) (hfit : va.toNat + buf.length ≤ sz.toNat) (hfuel : buf.length ≤ fuel)
    (hc : Kernel.copyLoopOut p fuel s d va buf = some (b, t, d₁)) :
    d₁ = d ∧ ∃ m₁, t = { s with mem := m₁ } ∧ Wrote O s.mem m₁ ∧
      (b = true → UserAt d va buf.length) := by
  have hempty : ∀ va, UserAt d va ([] : List Byte).length := fun va a h₁ h₂ =>
    absurd h₂ (not_lt.mpr h₁)
  induction fuel generalizing s va buf with
  | zero =>
    obtain rfl := List.eq_nil_of_length_eq_zero (Nat.le_zero.mp hfuel)
    obtain ⟨rfl, rfl, rfl⟩ : true = b ∧ s = t ∧ d = d₁ := by
      simpa [Kernel.copyLoopOut] using hc
    exact ⟨rfl, s.mem, rfl, .refl, fun _ => hempty va⟩
  | succ fuel ih =>
    by_cases hb : buf = []
    · subst hb
      rw [copyLoopOut_nil] at hc
      obtain ⟨rfl, rfl, rfl⟩ : true = b ∧ s = t ∧ d = d₁ := by simpa using hc
      exact ⟨rfl, s.mem, rfl, .refl, fun _ => hempty va⟩
    · rw [Kernel.copyLoopOut, if_neg hb] at hc
      dsimp only at hc
      set v := va.toNat / PGSIZE
      set n := min (PGSIZE - va.toNat % PGSIZE) buf.length
      have hv : v = va.toNat / 4096 := rfl
      have hn : n = min (4096 - va.toNat % 4096) buf.length := rfl
      have hpos : 0 < buf.length := List.length_pos_of_ne_nil hb
      have hsmall : sz.toNat < 0x80000000 := hd.small
      have hlim : v * 4096 < sz.toNat := by omega
      have hu := lt_UPAGES (BitVec.le_of_lt hd.small) hlim
      obtain ⟨e, he⟩ := Option.isSome_iff_exists.mp ((hd.full _ hu).mpr hlim)
      have he' : d.get v = some e := he
      simp only [uva2ka_tabled (mem_tables he'), he', Option.elim_some] at hc
      by_cases heu : e.u
      · rw [if_pos heu] at hc
        have hw := Wrote.page (va.toNat % PGSIZE) (buf.take n) h hu he'
        -- the part on this page
        have hpage : ∀ a, va.toNat ≤ a → a < va.toNat + n → ∃ e, d.get (a / PGSIZE) = some e ∧
            e.u = true := fun a h₁ h₂ => by
          have hav : a / 4096 = v := by omega
          exact ⟨e, (congrArg d.get hav).trans he', heu⟩
        by_cases hlast : n = buf.length
        · simp only [hlast, List.drop_length, copyLoopOut_nil] at hc
          obtain ⟨rfl, rfl, rfl⟩ : true = b ∧ _ = t ∧ d = d₁ := by simpa using hc
          rw [hlast, List.take_length] at hw
          exact ⟨rfl, _, rfl, hw, fun _ => hlast ▸ hpage⟩
        · have hnext : (BitVec.ofNat 32 ((v + 1) * 4096)).toNat = va.toNat + n := by
            rw [BitVec.toNat_ofNat]
            omega
          have hlen : (buf.drop n).length = buf.length - n := List.length_drop
          obtain ⟨rfl, m₁, rfl, hw₁, huser⟩ := ih (hw.held h) (by
            rw [hlen]
            change (BitVec.ofNat 32 ((v + 1) * 4096)).toNat + _ ≤ _
            omega) (by omega) hc
          refine ⟨rfl, m₁, rfl, hw.trans hw₁, fun hb a h₁ h₂ => ?_⟩
          by_cases ha : a < va.toNat + n
          · exact hpage a h₁ ha
          · exact huser hb a (hnext.trans_le (not_lt.mp ha)) (hnext.symm ▸ by omega)
      · rw [if_neg heu] at hc
        obtain ⟨rfl, rfl, rfl⟩ : false = b ∧ s = t ∧ d = d₁ := by simpa using hc
        exact ⟨rfl, s.mem, rfl, .refl, fun hb => absurd hb (by decide)⟩

/-- Copying to an address of the kernel half fails at once, if its page table is there, or the word
    at address 0 is no entry of a user page. -/
theorem copyLoopOut_wrapped {fuel : ℕ} {va : Word} {buf : List Byte} {b : Bool} (hb : buf ≠ [])
    (hk : d.KernelOnly) (hva : UPAGES ≤ va.toNat / PGSIZE)
    (htidy : StrayWord s p → PDX (va.toNat / PGSIZE) ∈ d.tables)
    (hc : Kernel.copyLoopOut p (fuel + 1) s d va buf = some (b, t, d₁)) :
    b = false ∧ t = s ∧ d₁ = d := by
  rw [Kernel.copyLoopOut, if_neg hb] at hc
  have hnull : s.uva2ka p d (va.toNat / PGSIZE) = none ∨
      s.uva2ka p d (va.toNat / PGSIZE) = some .null := by
    by_cases ht : PDX (va.toNat / PGSIZE) ∈ d.tables
    · rw [uva2ka_tabled ht]
      cases he : d.get (va.toNat / PGSIZE) with
      | none => exact Or.inr rfl
      | some e =>
        have := hk _ hva e he
        exact Or.inr (by simp [this])
    · have hnone : d.pde (PDX (va.toNat / PGSIZE)) = none :=
        Option.not_isSome_iff_eq_none.mp ht
      simp only [Kernel.uva2ka, walkpgdir, hnone, Bool.false_eq_true, if_false]
      cases hw : loadWord s.mem (s.cr3 p) 0 with
      | none => exact Or.inl rfl
      | some x =>
        right
        rw [Option.bind_some]
        split
        · rfl
        · rename_i hx
          obtain ⟨h₀, h₂⟩ := not_or.mp hx
          by_cases hka : (UPAGES + x.toNat / PGSIZE) % NPAGES = 0
          · exact if_pos hka
          · exact absurd (htidy ⟨x, hw, by simpa using h₀, by simpa using h₂, hka⟩) ht
  rcases hnull with hnull | hnull
  · simp only [hnull] at hc
    exact absurd hc (by simp)
  · simp only [hnull] at hc
    obtain ⟨rfl, rfl, rfl⟩ : false = b ∧ s = t ∧ d = d₁ := by simpa using hc
    exact ⟨rfl, rfl, rfl⟩

/-! ### The arguments -/

theorem and_not_three (x : Word) : (x &&& ~~~(3 : Word)).toNat = x.toNat / 4 * 4 := by
  have hshift : x &&& ~~~(3 : Word) = (x >>> 2) <<< 2 := by
    refine BitVec.eq_of_getLsbD_eq fun i hi => ?_
    interval_cases i <;> simp
  have hlt := x.isLt
  rw [hshift, BitVec.toNat_shiftLeft, BitVec.toNat_ushiftRight, Nat.shiftRight_eq_div_pow,
    Nat.shiftLeft_eq]
  omega

/-- An argument that fits. -/
theorem below_fits {arg : List Byte} (h : arg.length + 1 ≤ sp.toNat) :
    (below sp arg).toNat = (sp.toNat - (arg.length + 1)) / 4 * 4 := by
  have hsp := sp.isLt
  rw [below, and_not_three, BitVec.toNat_sub, BitVec.toNat_ofNat]
  congr 2
  omega

/-- An argument that does not fit wraps around to the kernel half. -/
theorem below_wraps {arg : List Byte} (hsp : sp.toNat < 0x80000000)
    (hlen : arg.length < 0x80000000) (h : ¬ arg.length + 1 ≤ sp.toNat) :
    UPAGES ≤ (below sp arg).toNat / PGSIZE := by
  have hva : (below sp arg).toNat = (0x100000000 + sp.toNat - (arg.length + 1)) / 4 * 4 := by
    rw [below, and_not_three, BitVec.toNat_sub, BitVec.toNat_ofNat]
    congr 2
    omega
  change 0x80000 ≤ (below sp arg).toNat / 4096
  omega

/-- The new address space of `exec` when the arguments are copied: the page below the stack is out
    of bounds. -/
structure StackReady (kmap : List Kmap) (d : Pgdir) (sz : Word) : Prop where
  dense : Dense ⟨d, sz⟩
  aligned : sz.toNat % 4096 = 0
  large : 8192 ≤ sz.toNat
  guard : ∀ e, d.get (sz.toNat / 4096 - 2) = some e → e.u = false
  tables : ∀ i ∈ kernelTables kmap, i ∈ d.tables

/-- What has been written is above the guard page if it ends there. -/
theorem StackReady.above {kmap : List Kmap} (h : StackReady kmap d sz) {va : Word} {len : ℕ}
    (huser : UserAt d va len) (hpos : 0 < len) (hend : sz.toNat < va.toNat + len + 8192) :
    sz.toNat ≤ va.toNat + 4096 := by
  by_contra hlow
  have haligned := h.aligned
  have hlarge := h.large
  obtain ⟨e, he, hu⟩ := huser (max va.toNat (sz.toNat - 8192)) (le_max_left _ _) (by omega)
  have hguard : max va.toNat (sz.toNat - 8192) / 4096 = sz.toNat / 4096 - 2 := by omega
  have he' : d.get (max va.toNat (sz.toNat - 8192) / 4096) = some e := he
  rw [hguard] at he'
  exact absurd hu (by simp [h.guard e he'])

/-- The word at address 0 is on the first page. -/
theorem loadWord_congr (hpage : ∀ e, d.get 0 = some e → m₁.page e.frame = m.page e.frame) :
    loadWord m₁ d 0 = loadWord m d 0 := by
  have hload : ∀ a : Word, a.toNat < 4096 → load m₁ d a = load m d a := fun a ha => by
    have hzero : a.toNat / PGSIZE = 0 := Nat.div_eq_of_lt ha
    unfold load
    rw [hzero]
    cases he : d.get 0 with
    | none => rfl
    | some e => simp [hpage e he]
  simp only [loadWord, hload 0 (by decide), hload (0 + 1) (by decide), hload (0 + 2) (by decide),
    hload (0 + 3) (by decide)]

theorem StrayWord.congr {s' : Kernel} (hcr3 : s'.cr3 p = s.cr3 p)
    (hpage : ∀ e, (s.cr3 p).get 0 = some e → s'.mem.page e.frame = s.mem.page e.frame)
    (h : StrayWord s' p) : StrayWord s p := by
  obtain ⟨x, hx, hbits⟩ := h
  rw [hcr3, loadWord_congr hpage] at hx
  exact ⟨x, hx, hbits⟩

/-- One round of the loop over the arguments. -/
theorem pushArgs_cons {arg : List Byte} {argv : List (List Byte)} {us : List Word}
    (hargc : us.length < MAXARG) :
    Kernel.pushArgs p (arg :: argv) sp us s d =
      match Kernel.copyout p s d (below sp arg) (arg ++ [0]) with
      | none => none
      | some (false, s, d) => some (none, s, d)
      | some (true, s, d) => Kernel.pushArgs p argv (below sp arg) (us ++ [below sp arg]) s d := by
  rw [Kernel.pushArgs, if_neg (Nat.not_le.mpr hargc)]
  rfl

/-- The loop over the arguments, while nothing is taken for a page table entry that is none. -/
theorem pushArgs_tidy {kmap : List Kmap} {argv : List (List Byte)} {us : List Word}
    {r : Option (Word × List Word)} (h : Held s.mem d O) (hready : StackReady kmap d sz)
    (hmine : ∀ e, (s.cr3 p).get 0 = some e → e.frame ∈ O)
    (hlen : ∀ arg ∈ argv, arg.length < 0x80000000) (hsp : sp.toNat ≤ sz.toNat)
    (hlow : sz.toNat ≤ sp.toNat + 4096) (halign : sp.toNat % 4 = 0) (hus : us.length ≤ MAXARG)
    (htidy : StrayWord s p → Tabled kmap sz sp (argv.take (MAXARG - us.length)))
    (hc : Kernel.pushArgs p argv sp us s d = some (r, t, d₁)) :
    d₁ = d ∧ ∃ m₁, t = { s with mem := m₁ } ∧ Wrote O s.mem m₁ ∧
      ∀ sp' us', r = some (sp', us') → sp'.toNat ≤ sz.toNat ∧ sz.toNat ≤ sp'.toNat + 4096 ∧
        us'.length ≤ MAXARG := by
  have hsmall : sz.toNat < 0x80000000 := hready.dense.small
  induction argv generalizing s sp us with
  | nil =>
    obtain ⟨rfl, rfl, rfl⟩ : some (sp, us) = r ∧ s = t ∧ d = d₁ := by
      simpa [Kernel.pushArgs] using hc
    refine ⟨rfl, s.mem, rfl, .refl, fun sp' us' he => ?_⟩
    obtain ⟨rfl, rfl⟩ := Prod.mk.inj (Option.some.inj he)
    exact ⟨hsp, hlow, hus⟩
  | cons arg argv ih =>
    have hstop : ∀ {t' : Kernel} {m₁ : Phys}, t' = { s with mem := m₁ } → Wrote O s.mem m₁ →
        some (none, t', d) = some (r, t, d₁) →
        d₁ = d ∧ ∃ m₁, t = { s with mem := m₁ } ∧ Wrote O s.mem m₁ ∧
          ∀ sp' us', r = some (sp', us') → sp'.toNat ≤ sz.toNat ∧
            sz.toNat ≤ sp'.toNat + 4096 ∧ us'.length ≤ MAXARG := fun ht hw he => by
      obtain ⟨rfl, rfl, rfl⟩ : none = r ∧ _ = t ∧ d = d₁ := by simpa using he
      exact ⟨rfl, _, ht, hw, fun _ _ hr => absurd hr (by simp)⟩
    by_cases hargc : us.length ≥ MAXARG
    · rw [Kernel.pushArgs, if_pos hargc] at hc
      exact hstop rfl (.refl : Wrote O s.mem s.mem) hc
    · have hargc' : us.length < 32 := not_le.mp hargc
      have htake : (arg :: argv).take (MAXARG - us.length) =
          arg :: argv.take (MAXARG - (us.length + 1)) := by
        have hsub : MAXARG - us.length = MAXARG - (us.length + 1) + 1 := by
          have hmax : MAXARG = 32 := rfl
          omega
        rw [hsub, List.take_succ_cons]
      rw [htake, Tabled] at htidy
      rw [pushArgs_cons hargc'] at hc
      have hbuf : (arg ++ [0]).length = arg.length + 1 := by simp
      cases hout : Kernel.copyout p s d (below sp arg) (arg ++ [0]) with
      | none =>
        rw [hout] at hc
        exact absurd hc (by simp)
      | some x =>
        obtain ⟨b, s', d'⟩ := x
        rw [hout] at hc
        by_cases hfit : arg.length + 1 ≤ sp.toNat
        · have hva := below_fits hfit
          obtain ⟨rfl, m₁, rfl, hw, huser⟩ := copyLoopOut_below h hready.dense
            (by rw [hbuf]; omega) le_rfl hout
          cases b with
          | false => exact hstop rfl hw hc
          | true =>
            have habove := hready.above (huser rfl) (by omega) (by omega)
            obtain ⟨rfl, m₂, rfl, hw₂, hr⟩ := ih (s := { s with mem := m₁ }) (hw.held h) hmine
              (fun x hx => hlen x (List.mem_cons_of_mem arg hx)) (by omega) habove (by omega)
              (by rw [List.length_append]; exact hargc')
              (fun hstray => by
                rw [if_pos hfit] at htidy
                rw [List.length_append]
                have hcr3 : ({ s with mem := m₁ } : Kernel).cr3 p = s.cr3 p := rfl
                refine htidy (.congr hcr3 (fun e he => hw.foreign e.frame (hmine e he)) hstray) ?_
                exact habove) hc
            exact ⟨rfl, m₂, rfl, hw.trans hw₂, hr⟩
        · have hne : arg ++ [0] ≠ [] := by simp
          have hout' := hout
          rw [Kernel.copyout, hbuf] at hout'
          obtain ⟨rfl, rfl, rfl⟩ := copyLoopOut_wrapped hne h.kernel
            (below_wraps (by omega) (hlen arg List.mem_cons_self) hfit)
            (fun hstray => by
              rw [if_neg hfit] at htidy
              exact hready.tables _ (htidy hstray)) hout'
          exact hstop rfl (.refl : Wrote O s'.mem s'.mem) hc

end

end Xv6.Memory
