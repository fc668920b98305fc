import Xv6.Memory.StackReady
import Mathlib.Data.List.GetD

/-! @src exec.c vm.c | name:The arguments on the stack | layer:proof

    Each string goes below the one before it, rounded to words. The first one that does not fit on
    the stack page is stopped if it begins in the guard page, or so far down that the address wraps
    around to the kernel half. One that begins below the guard page is written up to there. -/

namespace Xv6.Memory
open Xv6.Schemes
open Xv6.Schemes.X86 (Word)
open Xv6.Process (NPROC Slot ProcState Trapframe)

/-- What a string takes on the stack. -/
def size (arg : List Byte) : ℕ := (arg.length + 4) / 4 * 4

/-- The strings from an offset of the page downwards. -/
def Strings (page : Page) : ℕ → List (List Byte) → Prop
  | _, [] => True
  | o, arg :: argv =>
    (∀ k, k ≤ arg.length → page (o - size arg + k) = (arg ++ [0]).getD k 0) ∧
      Strings page (o - size arg) argv

/-- Their addresses. -/
def pointers : ℕ → List (List Byte) → List Word
  | _, [] => []
  | sp, arg :: argv => BitVec.ofNat 32 (sp - size arg) :: pointers (sp - size arg) argv

/-- The word at address 0 does not look like the entry of a user page. -/
def NullSafe (s : Kernel) (p : Slot) : Prop :=
  ∃ x, loadWord s.mem (s.cr3 p) 0 = some x ∧
    ¬ (x.getLsbD 0 = true ∧ x.getLsbD 2 = true ∧ (UPAGES + x.toNat / PGSIZE) % NPAGES ≠ 0)

/-- The first string that does not fit begins in the guard page, or wraps around to the kernel half,
    where its page table is there or the word at address 0 is harmless. -/
def Stopped (kmap : List Kmap) (safe : Prop) (top : Word) : Word → List (List Byte) → Prop
  | _, [] => True
  | sp, arg :: argv =>
    if arg.length + 1 ≤ sp.toNat then
      if top.toNat ≤ (below sp arg).toNat + PGSIZE then Stopped kmap safe top (below sp arg) argv
      else top.toNat ≤ (below sp arg).toNat + 2 * PGSIZE
    else PDX ((below sp arg).toNat / PGSIZE) ∈ kernelTables kmap ∨ safe

/-- A write to the stack page. -/
def OnStack (sz : Word) (c : Word × Ka) : Prop :=
  (∃ e, c.2 = .user e) ∧ sz.toNat ≤ c.1.toNat + PGSIZE ∧ c.1.toNat < sz.toNat

/-- The stack page, and the guard page below it. -/
structure StackPage (d : Pgdir) (sz : Word) (e : Pte) : Prop where
  small : sz.toNat < 0x80000000
  large : 8192 ≤ sz.toNat
  aligned : sz.toNat % 4096 = 0
  page : d.get (sz.toNat / 4096 - 1) = some e
  user : e.u = true
  guard : ∃ e, d.get (sz.toNat / 4096 - 2) = some e ∧ e.u = false
  rest : ∀ v, v * 4096 < sz.toNat → v ≠ sz.toNat / 4096 - 2 → ∃ e, d.get v = some e ∧ e.u = true

section

variable {w : World} {s : Kernel} {p : Slot} {m m' : Phys} {d : Pgdir} {sz sp va : Word} {e : Pte}
  {v : ℕ} {arg buf : List Byte} {argv : List (List Byte)} {us : List Word} {kmap : List Kmap}

/-! ### copyout -/

/-- A copy within one page. -/
theorem copyout_page (he : d.get (va.toNat / PGSIZE) = some e) (hu : e.u = true) (hb : buf ≠ [])
    (hfit : va.toNat % PGSIZE + buf.length ≤ PGSIZE) :
    Kernel.copyout p s d va buf =
        some (true, { s with mem := s.mem.write e.frame (va.toNat % PGSIZE) buf }, d) ∧
      Kernel.copyWrites p buf.length s d va buf = [(va, .user e)] := by
  obtain ⟨n, hn⟩ : ∃ n, buf.length = n + 1 :=
    Nat.exists_eq_add_one_of_ne_zero (List.length_pos_of_ne_nil hb).ne'
  have hka : s.uva2ka p d (va.toNat / PGSIZE) = some (.user e) := by
    rw [uva2ka_tabled (mem_tables he), he]
    simp [hu]
  have hpart : min (PGSIZE - va.toNat % PGSIZE) buf.length = buf.length :=
    Nat.min_eq_right (by omega)
  have hrest : buf.drop buf.length = [] := List.drop_length
  have hall : buf.take buf.length = buf := List.take_length
  have hstop : ∀ s' va', Kernel.copyWrites p n s' d va' [] = [] := by
    intro s' va'
    cases n <;> simp [Kernel.copyWrites]
  constructor
  · rw [Kernel.copyout, hn, Kernel.copyLoopOut, if_neg hb]
    simp only [hka, hpart, hrest, hall, copyLoopOut_nil]
  · rw [hn, Kernel.copyWrites, if_neg hb]
    simp only [hka, hpart, hrest, hstop]

theorem copyout_null (h : s.uva2ka p d (va.toNat / PGSIZE) = some .null) (hb : buf ≠ []) :
    Kernel.copyout p s d va buf = some (false, s, d) ∧
      Kernel.copyWrites p buf.length s d va buf = [] := by
  obtain ⟨n, hn⟩ : ∃ n, buf.length = n + 1 :=
    Nat.exists_eq_add_one_of_ne_zero (List.length_pos_of_ne_nil hb).ne'
  constructor
  · rw [Kernel.copyout, hn, Kernel.copyLoopOut, if_neg hb]
    simp only [h]
  · rw [hn, Kernel.copyWrites, if_neg hb]
    simp only [h]

theorem copyout_fault (h : s.uva2ka p d (va.toNat / PGSIZE) = none) (hb : buf ≠ []) :
    Kernel.copyout p s d va buf = none := by
  obtain ⟨n, hn⟩ : ∃ n, buf.length = n + 1 :=
    Nat.exists_eq_add_one_of_ne_zero (List.length_pos_of_ne_nil hb).ne'
  rw [Kernel.copyout, hn, Kernel.copyLoopOut, if_neg hb]
  simp only [h]

/-- The first write. -/
theorem copyWrites_first {ka : Ka} (h : s.uva2ka p d (va.toNat / PGSIZE) = some ka)
    (hka : ka ≠ .null) (hb : buf ≠ []) :
    (va, ka) ∈ Kernel.copyWrites p buf.length s d va buf := by
  obtain ⟨n, hn⟩ : ∃ n, buf.length = n + 1 :=
    Nat.exists_eq_add_one_of_ne_zero (List.length_pos_of_ne_nil hb).ne'
  rw [hn, Kernel.copyWrites, if_neg hb]
  cases ka with
  | null => exact absurd rfl hka
  | user e =>
    simp only [h]
    exact List.mem_cons_self
  | stray e =>
    simp only [h]
    exact List.mem_cons_self

/-- Without a page table. -/
theorem uva2ka_missing (ht : PDX v ∉ d.tables) :
    (NullSafe s p → s.uva2ka p d v = some .null) ∧
      (¬ NullSafe s p → s.uva2ka p d v = none ∨ ∃ e, s.uva2ka p d v = some (.stray e)) := by
  have hnone : d.pde (PDX v) = none := Option.not_isSome_iff_eq_none.mp ht
  unfold Kernel.uva2ka
  simp only [walkpgdir, hnone, Bool.false_eq_true, if_false]
  cases hw : loadWord s.mem (s.cr3 p) 0 with
  | none =>
    constructor
    · rintro ⟨x, hx, -⟩
      rw [hw] at hx
      cases hx
    · exact fun _ => .inl rfl
  | some x =>
    rw [Option.bind_some]
    constructor
    · rintro ⟨y, hy, hsafe⟩
      obtain rfl : x = y := Option.some.inj (hw.symm.trans hy)
      split
      · rfl
      · rename_i hbits
        obtain ⟨h₀, h₂⟩ := not_or.mp hbits
        refine if_pos (by_contra fun hka => hsafe ⟨?_, ?_, hka⟩)
        · simpa using h₀
        · simpa using h₂
    · intro hno
      have hbits : x.getLsbD 0 = true ∧ x.getLsbD 2 = true ∧
          (UPAGES + x.toNat / PGSIZE) % NPAGES ≠ 0 := by
        by_contra hsafe
        exact hno ⟨x, hw, hsafe⟩
      obtain ⟨h₀, h₂, hka⟩ := hbits
      rw [if_neg (by simp [h₀, h₂]), if_neg hka]
      cases ((s.cr3 p).get ((UPAGES + x.toNat / PGSIZE) % NPAGES)).filter fun e => e.w with
      | none => exact .inl rfl
      | some e => exact .inr ⟨e, rfl⟩

theorem NullSafe.congr {s' : Kernel} (hcr3 : s'.cr3 p = s.cr3 p)
    (hpage : ∀ e, (s.cr3 p).get 0 = some e → s'.mem.page e.frame = s.mem.page e.frame) :
    NullSafe s' p ↔ NullSafe s p := by
  unfold NullSafe
  rw [hcr3, loadWord_congr hpage]

/-! ### One string -/

theorem size_spec (arg : List Byte) : arg.length + 1 ≤ size arg ∧ size arg % 4 = 0 := by
  unfold size
  omega

/-- Where a string that fits goes. -/
theorem below_size (h4 : sp.toNat % 4 = 0) (hfit : arg.length + 1 ≤ sp.toNat) :
    (below sp arg).toNat + size arg = sp.toNat := by
  rw [below_fits hfit]
  unfold size
  omega

/-- A string on the stack page. -/
theorem copyout_arg (hs : StackPage d sz e) (h4 : sp.toNat % 4 = 0) (htop : sp.toNat ≤ sz.toNat)
    (hfit : arg.length + 1 ≤ sp.toNat) (hin : sz.toNat ≤ (below sp arg).toNat + 4096) :
    Kernel.copyout p s d (below sp arg) (arg ++ [0]) = some (true,
        { s with mem := s.mem.write e.frame ((below sp arg).toNat + 4096 - sz.toNat) (arg ++ [0]) },
        d) ∧
      ∀ c ∈ Kernel.copyWrites p (arg ++ [0]).length s d (below sp arg) (arg ++ [0]),
        OnStack sz c := by
  have hbelow := below_size h4 hfit
  obtain ⟨hlen, -⟩ := size_spec arg
  have haligned := hs.aligned
  have hlarge := hs.large
  have hpage : (below sp arg).toNat / 4096 = sz.toNat / 4096 - 1 := by omega
  have hoff : (below sp arg).toNat % 4096 = (below sp arg).toNat + 4096 - sz.toNat := by omega
  have hbuf : (arg ++ [0]).length = arg.length + 1 := List.length_append
  have hget : d.get ((below sp arg).toNat / PGSIZE) = some e := by
    unfold PGSIZE
    rw [hpage]
    exact hs.page
  have hb : arg ++ [0] ≠ [] := by simp
  obtain ⟨hrun, hwrites⟩ := copyout_page (p := p) (s := s) hget hs.user hb
    (by unfold PGSIZE; rw [hoff, hbuf]; omega)
  refine ⟨?_, fun c hc => ?_⟩
  · unfold PGSIZE at hrun
    rw [hrun, hoff]
  · rw [hwrites] at hc
    obtain rfl := List.mem_singleton.mp hc
    refine ⟨⟨e, rfl⟩, hin, ?_⟩
    change (below sp arg).toNat < sz.toNat
    omega

/-- What such a write leaves. -/
theorem page_write (m : Phys) (f : Frame) (o x : ℕ) (bytes : List Byte) :
    (m.write f o bytes).page f x =
      if o ≤ x then bytes.getD (x - o) (m.page f x) else m.page f x := by
  unfold Phys.write
  simp only [Function.update_self]

/-! ### The strings that fit -/

/-- The strings have been written, on the page `f` below the offset `o`. -/
structure Pushed (f : Frame) (o : ℕ) (argv : List (List Byte)) (m m' : Phys) : Prop where
  free : m'.freelist = m.freelist
  other : ∀ g, g ≠ f → m'.page g = m.page g
  above : ∀ x, o ≤ x → m'.page f x = m.page f x
  strings : Strings (m'.page f) o argv

theorem sum_size_cons (arg : List Byte) (argv : List (List Byte)) :
    ((arg :: argv).map size).sum = size arg + (argv.map size).sum := by
  rw [List.map_cons, List.sum_cons]

theorem pushWrites_cons (hargc : us.length < MAXARG) :
    Kernel.pushWrites p (arg :: argv) sp us.length s d =
      Kernel.copyWrites p (arg ++ [0]).length s d (below sp arg) (arg ++ [0]) ++
        match Kernel.copyout p s d (below sp arg) (arg ++ [0]) with
        | some (true, s, d) => Kernel.pushWrites p argv (below sp arg) (us.length + 1) s d
        | _ => [] := by
  rw [Kernel.pushWrites, if_neg (Nat.not_le.mpr hargc)]
  rfl

/-- All strings fit. -/
theorem pushArgs_fit (hs : StackPage d sz e) (h4 : sp.toNat % 4 = 0) (htop : sp.toNat ≤ sz.toNat)
    (hfit : sz.toNat + (argv.map size).sum ≤ sp.toNat + 4096)
    (hargc : us.length + argv.length ≤ MAXARG) :
    ∃ m', Kernel.pushArgs p argv sp us s d =
        some (some (BitVec.ofNat 32 (sp.toNat - (argv.map size).sum), us ++ pointers sp.toNat argv),
          { s with mem := m' }, d) ∧
      Pushed e.frame (sp.toNat + 4096 - sz.toNat) argv s.mem m' ∧
      ∀ c ∈ Kernel.pushWrites p argv sp us.length s d, OnStack sz c := by
  induction argv generalizing s sp us with
  | nil =>
    refine ⟨s.mem, ?_, ⟨rfl, fun _ _ => rfl, fun _ _ => rfl, trivial⟩, fun c hc => ?_⟩
    · simp [Kernel.pushArgs, pointers]
    · exact absurd hc List.not_mem_nil
  | cons arg argv ih =>
    rw [sum_size_cons] at hfit ⊢
    rw [List.length_cons] at hargc
    obtain ⟨hlen, hsize4⟩ := size_spec arg
    have hlarge := hs.large
    have harg : arg.length + 1 ≤ sp.toNat := by omega
    have hbelow := below_size h4 harg
    obtain ⟨hcopy, hwrites⟩ := copyout_arg (p := p) (s := s) hs h4 htop harg (by omega)
    generalize hm₁ : s.mem.write e.frame ((below sp arg).toNat + 4096 - sz.toNat) (arg ++ [0]) = m₁
      at hcopy
    have hus : (us ++ [below sp arg]).length = us.length + 1 := List.length_append
    obtain ⟨m', hrun, hpushed, hrest⟩ := @ih { s with mem := m₁ } (below sp arg)
      (us ++ [below sp arg]) (by omega) (by omega) (by omega) (by omega)
    have hptr : BitVec.ofNat 32 (sp.toNat - size arg) = below sp arg := by
      have hsub : sp.toNat - size arg = (below sp arg).toNat := by omega
      rw [hsub, BitVec.ofNat_toNat, BitVec.setWidth_eq]
    have hoff : sp.toNat + 4096 - sz.toNat - size arg = (below sp arg).toNat + 4096 - sz.toNat := by
      omega
    refine ⟨m', ?_, ⟨?_, fun g hg => ?_, fun x hx => ?_, fun k hk => ?_, ?_⟩, fun c hc => ?_⟩
    · rw [pushArgs_cons (by omega), hcopy]
      dsimp only
      rw [hrun, pointers, hptr]
      have hsum : (below sp arg).toNat - (argv.map size).sum =
          sp.toNat - (size arg + (argv.map size).sum) := by omega
      have hsub : sp.toNat - size arg = (below sp arg).toNat := by omega
      rw [hsum, hsub, List.append_assoc]
      rfl
    · rw [hpushed.free]
      exact (congrArg Phys.freelist hm₁).symm
    · have hone : m₁.page g = s.mem.page g := by
        rw [← hm₁]
        exact Function.update_of_ne hg ..
      exact (hpushed.other g hg).trans hone
    · have hone : m₁.page e.frame x = s.mem.page e.frame x := by
        rw [← hm₁, page_write, if_pos (by omega), List.getD_eq_default]
        rw [List.length_append, List.length_singleton]
        omega
      exact (hpushed.above x (by omega)).trans hone
    · have hone : m₁.page e.frame ((below sp arg).toNat + 4096 - sz.toNat + k) =
          (arg ++ [0]).getD k 0 := by
        rw [← hm₁, page_write, if_pos (Nat.le_add_right _ _), Nat.add_sub_cancel_left]
        have hin : k < (arg ++ [0]).length := by
          rw [List.length_append, List.length_singleton]
          omega
        rw [List.getD_eq_getElem _ _ hin, List.getD_eq_getElem _ _ hin]
      rw [hoff]
      exact (hpushed.above _ (Nat.le_add_right _ _)).trans hone
    · rw [hoff]
      exact hpushed.strings
    · rw [pushWrites_cons (by omega), hcopy] at hc
      rcases List.mem_append.mp hc with hc | hc
      · exact hwrites c hc
      · rw [hus] at hrest
        exact hrest c hc

/-! ### A string that does not fit -/

theorem pushArgs_null (argv : List (List Byte)) (hargc : us.length < MAXARG)
    (h : s.uva2ka p d ((below sp arg).toNat / PGSIZE) = some .null) :
    Kernel.pushArgs p (arg :: argv) sp us s d = some (none, s, d) ∧
      Kernel.pushWrites p (arg :: argv) sp us.length s d = [] := by
  have hb : arg ++ [0] ≠ [] := by simp
  obtain ⟨hrun, hwrites⟩ := copyout_null h hb
  constructor
  · rw [pushArgs_cons hargc, hrun]
  · rw [pushWrites_cons hargc, hrun, hwrites]
    rfl

theorem pushArgs_fault (hargc : us.length < MAXARG)
    (h : s.uva2ka p d ((below sp arg).toNat / PGSIZE) = none) :
    Kernel.pushArgs p (arg :: argv) sp us s d = none := by
  have hb : arg ++ [0] ≠ [] := by simp
  rw [pushArgs_cons hargc, copyout_fault h hb]

theorem pushWrites_first {ka : Ka} (hargc : us.length < MAXARG)
    (h : s.uva2ka p d ((below sp arg).toNat / PGSIZE) = some ka) (hka : ka ≠ .null) :
    (below sp arg, ka) ∈ Kernel.pushWrites p (arg :: argv) sp us.length s d := by
  have hb : arg ++ [0] ≠ [] := by simp
  rw [pushWrites_cons hargc]
  exact List.mem_append_left _ (copyWrites_first h hka hb)

/-- An address of the kernel half. -/
theorem uva2ka_kernel (hk : d.KernelOnly) (hv : UPAGES ≤ v) (ht : PDX v ∈ d.tables) :
    s.uva2ka p d v = some .null := by
  rw [uva2ka_tabled ht]
  cases he : d.get v with
  | none => rfl
  | some e => simp [hk v hv e he]

/-- An address in the user half below the guard page, or in it. -/
theorem uva2ka_user (he : d.get v = some e) :
    s.uva2ka p d v = some (if e.u then .user e else .null) := by
  rw [uva2ka_tabled (mem_tables he), he]
  rfl

/-- Not all strings fit: the loop stops at once where the first one begins, or goes wrong there. -/
theorem pushArgs_over {safe : Prop} (hs : StackPage d sz e) (hk : d.KernelOnly)
    (ht : Tables kmap d) (hmine : ∀ e₀, (s.cr3 p).get 0 = some e₀ → e₀.frame ≠ e.frame)
    (h4 : sp.toNat % 4 = 0) (htop : sp.toNat ≤ sz.toNat) (hlow : sz.toNat ≤ sp.toNat + 4096)
    (hover : sp.toNat + 4096 < sz.toNat + (argv.map size).sum)
    (hargc : us.length + argv.length ≤ MAXARG) (hlen : ∀ arg ∈ argv, arg.length < 0x80000000)
    (hsafe : NullSafe s p ↔ safe) :
    (Stopped kmap safe sz sp argv → ∃ m', Kernel.pushArgs p argv sp us s d =
        some (none, { s with mem := m' }, d) ∧
      ∀ c ∈ Kernel.pushWrites p argv sp us.length s d, OnStack sz c) ∧
    (¬ Stopped kmap safe sz sp argv → Kernel.pushArgs p argv sp us s d = none ∨
      ∃ c ∈ Kernel.pushWrites p argv sp us.length s d, ¬ OnStack sz c) := by
  induction argv generalizing s sp us with
  | nil =>
    rw [List.map_nil, List.sum_nil] at hover
    omega
  | cons arg argv ih =>
    rw [sum_size_cons] at hover
    rw [List.length_cons] at hargc
    have hlarge := hs.large
    have haligned := hs.aligned
    have hsmall := hs.small
    have hone : us.length < MAXARG := by omega
    have hnull : s.uva2ka p d ((below sp arg).toNat / PGSIZE) = some .null →
        ∃ m', Kernel.pushArgs p (arg :: argv) sp us s d = some (none, { s with mem := m' }, d) ∧
          ∀ c ∈ Kernel.pushWrites p (arg :: argv) sp us.length s d, OnStack sz c := by
      intro h
      obtain ⟨hrun, hwrites⟩ := pushArgs_null argv hone h
      refine ⟨s.mem, hrun, fun c hc => ?_⟩
      rw [hwrites] at hc
      exact absurd hc List.not_mem_nil
    rw [Stopped]
    by_cases hfit : arg.length + 1 ≤ sp.toNat
    · rw [if_pos hfit]
      have hbelow := below_size h4 hfit
      have hsize4 := (size_spec arg).2
      by_cases hin : sz.toNat ≤ (below sp arg).toNat + 4096
      · -- this one fits
        rw [if_pos hin]
        obtain ⟨hcopy, hwrites⟩ := copyout_arg (p := p) (s := s) hs h4 htop hfit hin
        generalize hm₁ : s.mem.write e.frame ((below sp arg).toNat + 4096 - sz.toNat)
          (arg ++ [0]) = m₁ at hcopy
        have hus : (us ++ [below sp arg]).length = us.length + 1 := List.length_append
        have hcr3 : ({ s with mem := m₁ } : Kernel).cr3 p = s.cr3 p := rfl
        have hsafe₁ : NullSafe { s with mem := m₁ } p ↔ safe := by
          refine (NullSafe.congr hcr3 fun e₀ he₀ => ?_).trans hsafe
          change m₁.page e₀.frame = _
          rw [← hm₁]
          exact Function.update_of_ne (hmine e₀ he₀) ..
        obtain ⟨hstop, hgo⟩ := @ih { s with mem := m₁ } (below sp arg)
          (us ++ [below sp arg]) hmine (by omega) (by omega) hin (by omega) (by omega)
          (fun x hx => hlen x (List.mem_cons_of_mem arg hx)) hsafe₁
        rw [hus] at hstop hgo
        rw [pushArgs_cons hone, pushWrites_cons hone, hcopy]
        constructor
        · intro hst
          obtain ⟨m', hrun, hrest⟩ := hstop hst
          refine ⟨m', hrun, fun c hc => ?_⟩
          rcases List.mem_append.mp hc with hc | hc
          · exact hwrites c hc
          · exact hrest c hc
        · intro hst
          rcases hgo hst with hrun | ⟨c, hc, hoff⟩
          · exact .inl hrun
          · exact .inr ⟨c, List.mem_append_right _ hc, hoff⟩
      · rw [if_neg hin]
        by_cases hguard : sz.toNat ≤ (below sp arg).toNat + 8192
        · -- it begins in the guard page
          obtain ⟨e', he', hu'⟩ := hs.guard
          have hpage : (below sp arg).toNat / PGSIZE = sz.toNat / 4096 - 2 := by
            unfold PGSIZE
            omega
          refine ⟨fun _ => hnull ?_, fun hno => absurd hguard hno⟩
          rw [hpage, uva2ka_user he', hu']
          rfl
        · -- it begins below the guard page
          obtain ⟨e', he', hu'⟩ := hs.rest ((below sp arg).toNat / 4096) (by omega) (by omega)
          refine ⟨fun hst => absurd hst hguard, fun _ => .inr ⟨(below sp arg, .user e'), ?_, ?_⟩⟩
          · refine pushWrites_first hone ?_ (by simp)
            have := uva2ka_user (s := s) (p := p) he'
            rwa [hu', if_pos rfl] at this
          · rintro ⟨-, hon, -⟩
            exact hin hon
    · -- it wraps around
      rw [if_neg hfit]
      have hv : UPAGES ≤ (below sp arg).toNat / PGSIZE :=
        below_wraps (by omega) (hlen arg List.mem_cons_self) hfit
      have hupper : 512 ≤ PDX ((below sp arg).toNat / PGSIZE) :=
        (Nat.le_div_iff_mul_le (by decide : 0 < NPTENTRIES)).mpr hv
      by_cases hin : PDX ((below sp arg).toNat / PGSIZE) ∈ d.tables
      · refine ⟨fun _ => hnull (uva2ka_kernel hk hv hin), fun hno => ?_⟩
        exact absurd (.inl ((ht _ hupper).mp hin)) hno
      · have hout : PDX ((below sp arg).toNat / PGSIZE) ∉ kernelTables kmap :=
          fun hx => hin ((ht _ hupper).mpr hx)
        obtain ⟨hyes, hno⟩ := uva2ka_missing (s := s) (p := p) hin
        refine ⟨fun hst => hnull (hyes (hsafe.mpr (hst.resolve_left hout))), fun hst => ?_⟩
        rcases hno fun hx => hst (.inr (hsafe.mp hx)) with hka | ⟨e', hka⟩
        · exact .inl (pushArgs_fault hone hka)
        · refine .inr ⟨_, pushWrites_first hone hka (by simp), ?_⟩
          rintro ⟨⟨e₁, he₁⟩, -⟩
          cases he₁

end

end Xv6.Memory
