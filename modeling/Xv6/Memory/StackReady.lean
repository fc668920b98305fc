import Xv6.Memory.Stack

/-! @src exec.c vm.c | name:What exec has built before the arguments | layer:proof

    All pages below the top of the stack are the user's but the guard page, and the kernel half has
    the page tables of `kmap` and no others. -/

namespace Xv6.Memory
open Xv6.Schemes
open Xv6.Schemes.X86 (Word)
open Xv6.Process (NPROC Slot ProcState Trapframe)

/-- The pages of the user half that are present are for the user. -/
def Usable (d : Pgdir) : Prop := ∀ v, v < UPAGES → ∀ e, d.get v = some e → e.u = true

/-- The page tables of the kernel half are those for the kernel mappings. -/
def Tables (kmap : List Kmap) (d : Pgdir) : Prop :=
  ∀ i, 512 ≤ i → (i ∈ d.tables ↔ i ∈ kernelTables kmap)

section

variable {w : World} {s : Kernel} {p : Slot} {path : List Byte} {l : Loaded} {m m₁ : Phys}
  {d d₁ : Pgdir} {sz oldsz newsz : Word} {O : Set Frame} {elf : Elfhdr} {ip : ℕ}

/-! ### allocuvm -/

theorem allocuvm_upper (h : allocuvm m d oldsz newsz = some (sz, m₁, d₁)) (h0 : sz ≠ 0) {i : ℕ}
    (hi : 512 ≤ i) (hin : i ∈ d₁.tables) : i ∈ d.tables := by
  unfold allocuvm at h
  split at h
  · obtain ⟨rfl, -⟩ := Prod.mk.inj (Option.some.inj h)
    exact absurd rfl h0
  · rename_i hbig
    split at h
    · simp only [Option.some.injEq, Prod.mk.injEq] at h
      obtain ⟨-, -, rfl⟩ := h
      exact hin
    · split at h
      · cases h
      · rename_i hloop
        simp only [Option.some.injEq, Prod.mk.injEq] at h
        obtain ⟨-, -, rfl⟩ := h
        exact upper_allocLoop (BitVec.le_of_lt (BitVec.not_le.mp hbig)) hi hloop hin
      · obtain ⟨rfl, -⟩ := Prod.mk.inj (Option.some.inj h)
        exact absurd rfl h0
      · obtain ⟨rfl, -⟩ := Prod.mk.inj (Option.some.inj h)
        exact absurd rfl h0

theorem allocuvm_usable (hheld : Held m d O) (hold : oldsz ≤ KERNBASE) (hfull : Full d oldsz)
    (hu : Usable d) (h : allocuvm m d oldsz newsz = some (sz, m₁, d₁)) (h0 : sz ≠ 0) :
    Usable d₁ := by
  obtain ⟨sz', m', d', ha, -, hr⟩ := allocuvm_spec newsz hheld hold hfull
  obtain ⟨rfl, rfl, rfl⟩ : sz = sz' ∧ m₁ = m' ∧ d₁ = d' := by simpa using h.symm.trans ha
  rcases hr with ⟨rfl, -⟩ | ⟨-, -, -, rfl⟩ | ⟨-, -, -, hev, hnew⟩
  · exact absurd rfl h0
  · exact hu
  · intro v hv e he
    by_cases hv' : v ∈ pagesFrom (pageUp oldsz) newsz
    · obtain ⟨f, hf, -⟩ := hnew v hv'
      exact (Option.some.inj (hf.symm.trans he)) ▸ rfl
    · exact hu v hv e ((hev.same v hv').symm.trans he)

/-! ### The program -/

theorem loadImage_usable (phs : List (Option Proghdr)) {sz' : Word} (h : Held m d O)
    (hd : Dense ⟨d, sz⟩) (hu : Usable d) (hl : loadImage phs sz m d = some (some sz', m₁, d₁)) :
    Usable d₁ ∧ ∀ i, 512 ≤ i → i ∈ d₁.tables → i ∈ d.tables := by
  induction phs generalizing sz m d with
  | nil =>
    obtain ⟨-, -, rfl⟩ : sz = sz' ∧ m = m₁ ∧ d = d₁ := by simpa [loadImage] using hl
    exact ⟨hu, fun _ _ hi => hi⟩
  | cons y phs ih =>
    cases y with
    | none => exact absurd hl (by simp [loadImage])
    | some ph =>
      rw [loadImage] at hl
      split at hl
      · exact ih h hd hu hl
      split at hl
      · exact absurd hl (by simp)
      rename_i hsize
      split at hl
      · exact absurd hl (by simp)
      rename_i hwrap
      obtain ⟨sz₁, m₂, d₂, ha, h₂, -, hd₂⟩ := allocuvm_dense (ph.vaddr + ph.memsz) h
        (BitVec.le_of_lt hd.small) hd.full hd.writable (Or.inl hd.small)
      simp only [ha] at hl
      split at hl
      · exact absurd hl (by simp)
      rename_i h0
      split at hl
      · exact absurd hl (by simp)
      rename_i halign
      obtain ⟨hle, hd₂⟩ := hd₂ h0
      have hu₂ := allocuvm_usable h (BitVec.le_of_lt hd.small) hd.full hu ha h0
      obtain ⟨b, m₃, hload, hw⟩ := loadLoop_spec (BitVec.le_of_lt hd₂.small) hd₂.full
        (not_not.mp halign) (segment_fits hsize hwrap hle) NPAGES 0 h₂
      rw [hload] at hl
      cases b with
      | false => exact absurd hl (by simp)
      | true =>
        obtain ⟨hu₁, hupper⟩ := ih (hw.held h₂) hd₂ hu₂ hl
        exact ⟨hu₁, fun i hi hin => allocuvm_upper ha h0 hi (hupper i hi hin)⟩

/-- What `exec` has built: an address space next to the pages `O`, in the kernel `s` but for the
    memory. -/
structure Assembled (w : World) (s : Kernel) (O : Set Frame) (l : Loaded) : Prop where
  held : Held l.kernel.mem l.pgdir O
  kernel : ∃ m, l.kernel = { s with mem := m }
  kept : ∀ f ∈ O, l.kernel.mem.page f = s.mem.page f
  ready : StackReady w.kmap l.pgdir l.sz
  upper : Tables w.kmap l.pgdir
  user : ∀ v, v * 4096 < l.sz.toNat → v ≠ l.sz.toNat / 4096 - 2 →
    ∃ e, l.pgdir.get v = some e ∧ e.u = true
  guard : ∃ e, l.pgdir.get (l.sz.toNat / 4096 - 2) = some e

theorem get_clearpteu {v : ℕ} (h : clearpteu m d v = some d₁) (x : ℕ) :
    d₁.get x = if x = v then (d.get v).map fun e => { e with u := false } else d.get x := by
  unfold clearpteu at h
  cases ht : d.pde (PDX v) with
  | none => simp [walkpgdir, ht] at h
  | some t =>
    simp only [walkpgdir, ht, Option.some.injEq] at h
    subst h
    exact get_set (by rw [ht]; rfl) _ x

theorem tables_clearpteu {v : ℕ} (h : clearpteu m d v = some d₁) : d₁.tables = d.tables := by
  unfold clearpteu at h
  split at h
  · cases h
  · obtain rfl := Option.some.inj h
    exact tables_set _

/-- The pages for the stack. -/
theorem loadStack_assembled (h : Held s.mem d O) (hd : Dense ⟨d, sz⟩) (hu : Usable d)
    (ht : Tables w.kmap d) (hk : ∀ i ∈ kernelTables w.kmap, i ∈ d.tables)
    (hl : s.loadStack elf d sz = some l) : Assembled w s O l ∧ l.sz = stackTop sz := by
  obtain ⟨hle, hfull⟩ := full_round hd
  unfold Kernel.loadStack at hl
  dsimp only at hl
  split at hl
  · cases hl
  rename_i sz₁ m₁ d₁ ha
  split at hl
  · cases hl
  rename_i h0
  obtain ⟨d₂, hclear, h₂, hready, hsz, -, -, hpage⟩ := stackReady h hd hk ha h0
  rw [hclear] at hl
  obtain rfl := Option.some.inj hl
  have hlarge := hready.large
  have halign := hready.aligned
  have hu₁ := allocuvm_usable h hle hfull hu ha h0
  have hguard : (sz₁ - 2 * BitVec.ofNat 32 PGSIZE).toNat / PGSIZE = sz₁.toNat / 4096 - 2 := by
    have htwo : (2 * BitVec.ofNat 32 PGSIZE : Word).toNat = 8192 := by decide
    rw [BitVec.toNat_sub_of_le (BitVec.le_def.mpr (by omega)), htwo]
    change (sz₁.toNat - 8192) / 4096 = _
    omega
  rw [hguard] at hclear
  have hfull₂ : ∀ v, v * 4096 < sz₁.toNat → ∃ e, d₂.get v = some e := by
    intro v hv
    have hlt := lt_UPAGES (BitVec.le_of_lt hready.dense.small) hv
    exact Option.isSome_iff_exists.mp ((hready.dense.full v hlt).mpr hv)
  have hthere := hfull₂ (sz₁.toNat / 4096 - 2) (by omega)
  refine ⟨⟨h₂, ⟨m₁, rfl⟩, hpage, hready, fun i hi => ⟨fun hin => ?_, hready.tables i⟩,
    fun v hv hne => ?_, hthere⟩, hsz⟩
  · rw [tables_clearpteu hclear] at hin
    exact (ht i hi).mp (allocuvm_upper ha h0 hi hin)
  · obtain ⟨e, he⟩ := hfull₂ v hv
    refine ⟨e, he, ?_⟩
    rw [get_clearpteu hclear, if_neg hne] at he
    exact hu₁ v (lt_UPAGES (BitVec.le_of_lt hready.dense.small) hv) e he

/-- `exec` up to the arguments. -/
theorem loaded_assembled (hk : KmapIn w.kmap) (h : Held s.mem (s.cr3 p) O)
    (hl : s.loaded w p path = some l) :
    Assembled w s (O ∪ (s.cr3 p).frames) l ∧ ∃ ip elf sz, w.namei (s.task p).cwd path = some ip ∧
      elfhdr (w.inode ip) = some elf ∧ imageEnd (proghdrs (w.inode ip) elf) 0 = some sz ∧
      l.sz = stackTop sz := by
  have hclean := h.clean_frames
  unfold Kernel.loaded at hl
  split at hl
  · cases hl
  rename_i ip hpath
  obtain ⟨s₁, hlock, hprog⟩ := Option.bind_eq_some_iff.mp hl
  have hclosed := opened_closed hlock
  have hmem : s₁.mem = s.mem := by
    rw [Kernel.ilock] at hlock
    split at hlock
    · exact absurd hlock (by simp)
    · obtain rfl := Option.some.inj hlock
      rfl
  unfold Kernel.loadProgram at hprog
  split at hprog
  · cases hprog
  rename_i elf helf
  split at hprog
  · rename_i d m₁ hs
    rw [hmem] at hs
    obtain ⟨r, m₁', hs', hb⟩ := setupkvm_spec hk.toKmapOk hclean
    obtain ⟨rfl, rfl⟩ := Prod.mk.inj (Option.some.inj (hs.symm.trans hs'))
    obtain ⟨r', m₁', hs', hcount, -⟩ := setupkvm_count hk hclean
    obtain ⟨rfl, rfl⟩ := Prod.mk.inj (Option.some.inj (hs.symm.trans hs'))
    obtain ⟨htables, -⟩ := hcount d rfl
    obtain ⟨h₁, hpage, hempty⟩ := hb
    have hd : Dense ⟨d, 0⟩ := .of_empty hempty
    have hu : Usable d := fun v hv e he => absurd ((hempty v hv).symm.trans he) (by simp)
    split at hprog
    · rename_i sz m₂ d₂ hload
      obtain ⟨r, m₂', d₂', hload', h₂, hpage₂, hdense⟩ :=
        loadImage_spec (proghdrs (w.inode ip) elf) h₁ hd
      obtain ⟨rfl, rfl, rfl⟩ : some sz = r ∧ m₂ = m₂' ∧ d₂ = d₂' := by
        simpa using hload.symm.trans hload'
      obtain ⟨-, hgrows⟩ := stock_loadImage _ h₁ hd hload
      obtain ⟨hu₂, hupper⟩ := loadImage_usable _ h₁ hd hu hload
      have hlower : ∀ i ∈ kernelTables w.kmap, i ∈ d₂.tables := fun i hi =>
        hgrows.tables (htables ▸ hi)
      rw [hclosed] at hprog
      obtain ⟨hass, hsz⟩ := loadStack_assembled (s := { s with mem := m₂ }) h₂ (hdense sz rfl) hu₂
        (fun i hi => ⟨fun hin => by simpa [htables] using hupper i hi hin, hlower i⟩) hlower hprog
      refine ⟨⟨hass.held, hass.kernel, fun f hf => ?_, hass.ready, hass.upper, hass.user,
        hass.guard⟩, ip, elf, sz, hpath, helf, imageEnd_of_loadImage _ hload, hsz⟩
      exact (hass.kept f hf).trans ((hpage₂ f hf).trans (hpage f hf))
    · cases hprog
  · cases hprog

end

end Xv6.Memory
