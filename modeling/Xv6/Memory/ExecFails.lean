import Xv6.Memory.ExecArgs

/-! @src exec.c fs.c | name:An exec that fails | layer:proof

    `exec` builds the new address space from free pages, next to the old one, and gives all of them
    back when it fails. The operation of the log, the lock and the reference of the file are given
    up before the stack is made, or at `bad`. -/

namespace Xv6.Memory
open Xv6.Schemes
open Xv6.Schemes.X86 (Word)
open Xv6.Process (NPROC Slot ProcState Trapframe)

section

variable {w : World} {s s₁ t : Kernel} {p : Slot} {m m₁ : Phys} {d d₁ : Pgdir} {O : Set Frame}
  {F : Set Frame} {sz : Word} {ip : ℕ}

theorem readable_of_loadLoop {ph : Proghdr} {fuel k : ℕ}
    (hl : loadLoop ph d fuel k m = some (true, m₁)) {j : ℕ} (hk : k ≤ j) (hj : j < k + fuel)
    (hlim : j * PGSIZE < ph.filesz.toNat) : ph.readable j = true := by
  induction fuel generalizing k m with
  | zero => omega
  | succ fuel ih =>
    rw [loadLoop, if_pos ((Nat.mul_le_mul_right PGSIZE hk).trans_lt hlim)] at hl
    split at hl
    · exact absurd hl (by simp)
    dsimp only at hl
    split at hl
    · rename_i hread
      rcases hk.eq_or_lt with rfl | hlt
      · exact hread
      · exact ih hl hlt (by omega)
    · exact absurd hl (by simp)

/-- The loop over the program headers makes an image of the size that the headers say. -/
theorem imageEnd_of_loadImage (phs : List (Option Proghdr)) {sz' : Word}
    (hl : loadImage phs sz m d = some (some sz', m₁, d₁)) : imageEnd phs sz = some sz' := by
  induction phs generalizing sz m d with
  | nil =>
    obtain ⟨rfl, -, -⟩ : sz = sz' ∧ m = m₁ ∧ d = d₁ := by simpa [loadImage] using hl
    rfl
  | cons y phs ih =>
    cases y with
    | none => exact absurd hl (by simp [loadImage])
    | some ph =>
      rw [loadImage] at hl
      rw [imageEnd]
      split at hl
      · rename_i hload
        rw [if_pos hload]
        exact ih hl
      rename_i hload
      rw [if_neg hload]
      split at hl
      · exact absurd hl (by simp)
      rename_i hsize
      split at hl
      · exact absurd hl (by simp)
      rename_i hwrap
      cases ha : allocuvm m d sz (ph.vaddr + ph.memsz) with
      | none => simp [ha] at hl
      | some x =>
        obtain ⟨sz₁, m₂, d₂⟩ := x
        simp only [ha] at hl
        split at hl
        · exact absurd hl (by simp)
        rename_i h0
        obtain ⟨hbig, hsz₁⟩ := allocuvm_size ha h0
        split at hl
        · exact absurd hl (by simp)
        rename_i halign
        split at hl
        · exact absurd hl (by simp)
        · exact absurd hl (by simp)
        · rename_i hload
          have hread : ¬ ∃ k ∈ List.range NPAGES,
              k * PGSIZE < ph.filesz.toNat ∧ ph.readable k = false := by
            rintro ⟨k, hk, hlim, hno⟩
            have hlt := List.mem_range.mp hk
            have := readable_of_loadLoop hload (Nat.zero_le k) (by omega) hlim
            exact absurd (hno.symm.trans this) (by simp)
          simp only [hsize, hwrap, hbig, halign, hread, or_self, if_false]
          rw [← hsz₁, if_neg h0]
          exact ih hl

/-! ### The two ends of exec -/

/-- The call has changed nothing but the memory, in which the pages `O` are as they were, and the
    pages `F` are free. -/
def Undone (O : Set Frame) (F : Set Frame) (s t : Kernel) : Prop :=
  ∃ m, t = { s with mem := m } ∧ Clean m O ∧ m.frees = F ∧ ∀ f ∈ O, m.page f = s.mem.page f

/-- The call has given the process another image, and freed the old one. -/
def Committed (O : Set Frame) (p : Slot) (s t : Kernel) : Prop :=
  ∃ m d sz name tf, Held m d O ∧ Dense ⟨d, sz⟩ ∧ (∀ f ∈ O, m.page f = s.mem.page f) ∧
    t = { s.setTask p fun r => { r with name := name, image := ⟨d, sz⟩, tf := tf } with
      mem := freevm m (s.cr3 p) }

/-- The new address space is freed. -/
theorem Undone.of_freevm (h : Held m d O) (hsize : d.Sized) (hstock : stock m d = F)
    (hpage : ∀ f ∈ O, m.page f = s.mem.page f) : Undone O F s { s with mem := freevm m d } := by
  obtain ⟨hclean, hforeign⟩ := freevm_spec h
  exact ⟨_, rfl, hclean, (frees_freevm h hsize).trans hstock,
    fun f hf => (hforeign f hf).trans (hpage f hf)⟩

theorem length_wordBytes (l : List Word) : (l.flatMap wordBytes).length = 4 * l.length := by
  induction l with
  | nil => rfl
  | cons x l ih =>
    rw [List.flatMap_cons, List.length_append, ih, List.length_cons, wordBytes, List.length_map,
      List.length_range]
    omega

/-- The new address space with the pages for the stack. -/
theorem stackReady {kmap : List Kmap} {sz₃ : Word} {m₃ : Phys} {d₃ : Pgdir} (h : Held m d O)
    (hd : Dense ⟨d, sz⟩) (htables : ∀ i ∈ kernelTables kmap, i ∈ d.tables)
    (ha : allocuvm m d (BitVec.ofNat 32 (pageUp sz * PGSIZE)) (stackTop sz) = some (sz₃, m₃, d₃))
    (h0 : sz₃ ≠ 0) :
    ∃ d₄, clearpteu m₃ d₃ ((sz₃ - 2 * BitVec.ofNat 32 PGSIZE).toNat / PGSIZE) = some d₄ ∧
      Held m₃ d₄ O ∧ StackReady kmap d₄ sz₃ ∧ sz₃ = stackTop sz ∧ stock m₃ d₄ = stock m d ∧
      d.Grows d₄ ∧ ∀ f ∈ O, m₃.page f = m.page f := by
  obtain ⟨hle, hfull⟩ := full_round hd
  have hk₁ : (BitVec.ofNat 32 (pageUp sz * PGSIZE)).toNat ≤ 0x80000000 := hle
  have h8192 : (2 * BitVec.ofNat 32 PGSIZE : Word).toNat = 8192 := by decide
  have htop : (stackTop sz).toNat = (BitVec.ofNat 32 (pageUp sz * PGSIZE)).toNat + 8192 := by
    rw [stackTop, BitVec.toNat_add, h8192]
    omega
  obtain ⟨hstock, hgrows⟩ := stock_allocuvm h hle hfull ha
  obtain ⟨-, hsz₃⟩ := allocuvm_size ha h0
  rw [if_neg (BitVec.not_lt.mpr (BitVec.le_def.mpr (by omega)))] at hsz₃
  obtain ⟨sz', m', d', ha', h₃, hpage, hd₃⟩ := allocuvm_dense (stackTop sz) h hle hfull hd.writable
    (Or.inr (BitVec.le_def.mpr (by omega)))
  obtain ⟨rfl, rfl, rfl⟩ : sz' = sz₃ ∧ m' = m₃ ∧ d' = d₃ := by simpa using ha'.symm.trans ha
  obtain ⟨-, hd₃⟩ := hd₃ h0
  have hsmall : sz'.toNat < 0x80000000 := hd₃.small
  have htop' : sz'.toNat = (BitVec.ofNat 32 (pageUp sz * PGSIZE)).toNat + 8192 := hsz₃ ▸ htop
  have hsub : (sz' - 2 * BitVec.ofNat 32 PGSIZE).toNat = sz'.toNat - 8192 := by
    rw [BitVec.toNat_sub_of_le (BitVec.le_def.mpr (by omega)), h8192]
  have hround : (BitVec.ofNat 32 (pageUp sz * PGSIZE)).toNat % 4096 = 0 := by
    have hmod : (BitVec.ofNat 32 (pageUp sz * 4096)).toNat % 4096 = 0 := by
      rw [BitVec.toNat_ofNat]
      omega
    exact hmod
  have hguard : (sz' - 2 * BitVec.ofNat 32 PGSIZE).toNat / PGSIZE = sz'.toNat / 4096 - 2 := by
    rw [hsub]
    change (sz'.toNat - 8192) / 4096 = _
    omega
  have hlim : (sz'.toNat / 4096 - 2) * PGSIZE < sz'.toNat := by
    change (sz'.toNat / 4096 - 2) * 4096 < _
    omega
  have hu := lt_UPAGES (BitVec.le_of_lt hd₃.small) hlim
  obtain ⟨e, he⟩ := Option.isSome_iff_exists.mp ((hd₃.full _ hu).mpr hlim)
  obtain ⟨d₄, hclear, h₄, hd₄⟩ := clearpteu_spec h₃ hd₃ hu he
  obtain ⟨hstock₄, hgrows₄, hget⟩ := stock_clearpteu hu h₃ he hclear
  have hgrows' := hgrows.trans hgrows₄
  refine ⟨d₄, hguard ▸ hclear, h₄, ⟨hd₄, by omega, by omega, fun e' he' => ?_,
    fun i hi => hgrows'.tables (htables i hi)⟩, hsz₃, hstock₄.trans hstock, hgrows', hpage⟩
  exact (Option.some.inj (hget.symm.trans he')) ▸ rfl

/-- `exec` from the allocation of the stack on. -/
theorem execStack_tidy {kmap : List Kmap} {path : List Byte} {argv : List (List Byte)}
    {elf : Elfhdr} {ret : Word} (h : Held s.mem d O) (hd : Dense ⟨d, sz⟩) (hsize : d.Sized)
    (htables : ∀ i ∈ kernelTables kmap, i ∈ d.tables)
    (hmine : ∀ e, (s.cr3 p).get 0 = some e → e.frame ∈ O)
    (hlen : ∀ arg ∈ argv, arg.length < 0x80000000)
    (htidy : stackTop sz < KERNBASE → StrayWord s p →
      Tabled kmap (stackTop sz) (stackTop sz) (argv.take MAXARG))
    (hc : s.execStack p path argv elf d sz = some (ret, t)) :
    ret = -1 ∧ Undone O (stock s.mem d) s t ∨ ret = 0 ∧ Committed O p s t := by
  have hfail : ∀ {m₁ d₁}, Held m₁ d₁ O → d.Grows d₁ → stock m₁ d₁ = stock s.mem d →
      (∀ f ∈ O, m₁.page f = s.mem.page f) →
      some (Kernel.bad { s with mem := m₁ } (some d₁) none) = some (ret, t) →
      ret = -1 ∧ Undone O (stock s.mem d) s t ∨ ret = 0 ∧ Committed O p s t := by
    intro m₁ d₁ h₁ hgrows hstock hpage he
    obtain ⟨rfl, rfl⟩ : (-1 : Word) = ret ∧ { s with mem := freevm m₁ d₁ } = t := by
      simpa [Kernel.bad] using he
    exact Or.inl ⟨rfl, .of_freevm h₁ (hgrows.sized hsize) hstock hpage⟩
  unfold Kernel.execStack at hc
  dsimp only at hc
  rw [← stackTop] at hc
  obtain ⟨hle, hfull⟩ := full_round hd
  cases ha : allocuvm s.mem d (BitVec.ofNat 32 (pageUp sz * PGSIZE)) (stackTop sz) with
  | none =>
    rw [ha] at hc
    exact absurd hc (by simp)
  | some x =>
    obtain ⟨sz₃, m₃, d₃⟩ := x
    simp only [ha] at hc
    split at hc
    · rename_i h0
      obtain ⟨hstock, hgrows⟩ := stock_allocuvm h hle hfull ha
      obtain ⟨sz', m', d', ha', h₃, hr⟩ := allocuvm_spec (stackTop sz) h hle hfull
      obtain ⟨rfl, rfl, rfl⟩ : sz' = sz₃ ∧ m' = m₃ ∧ d' = d₃ := by simpa using ha'.symm.trans ha
      refine hfail h₃ hgrows hstock ?_ hc
      rcases hr with ⟨-, hev⟩ | ⟨-, -, rfl, -⟩ | ⟨-, -, -, hev, -⟩
      · exact hev.foreign
      · exact fun _ _ => rfl
      · exact hev.foreign
    · rename_i h0
      obtain ⟨d₄, hclear, h₄, hready, hsz₃, hstock, hgrows, hpage⟩ :=
        stackReady h hd htables ha h0
      simp only [hclear] at hc
      have htop : stackTop sz < KERNBASE := BitVec.not_le.mp (allocuvm_size ha h0).1
      have hstray : StrayWord { s with mem := m₃ } p → StrayWord s p :=
        .congr rfl fun e he => hpage e.frame (hmine e he)
      have hlarge := hready.large
      have halign := hready.aligned
      split at hc
      · exact absurd hc (by simp)
      · rename_i s₅ d₅ hpush
        obtain ⟨rfl, m₅, rfl, hw, -⟩ := pushArgs_tidy (s := { s with mem := m₃ }) h₄ hready hmine
          hlen le_rfl (by omega) (by omega) (Nat.zero_le _)
          (fun hs => hsz₃ ▸ htidy htop (hstray hs)) hpush
        exact hfail (hw.held h₄) hgrows (hw.stock.trans hstock)
          (fun f hf => (hw.foreign f hf).trans (hpage f hf)) hc
      · rename_i sp args s₅ d₅ hpush
        obtain ⟨rfl, m₅, rfl, hw, hargs⟩ := pushArgs_tidy (s := { s with mem := m₃ }) h₄ hready
          hmine hlen le_rfl (by omega) (by omega) (Nat.zero_le _)
          (fun hs => hsz₃ ▸ htidy htop (hstray hs)) hpush
        obtain ⟨hsp, hlow, hn⟩ := hargs sp args rfl
        have hn' : args.length ≤ 32 := hn
        have hbuf : (([0xffffffff, BitVec.ofNat 32 args.length,
            sp - (BitVec.ofNat 32 args.length + 1) * 4] ++ args ++ [0] : List Word).flatMap
              wordBytes).length = 4 * (args.length + 4) := by
          rw [length_wordBytes]
          simp only [List.length_append, List.length_cons, List.length_nil]
          omega
        have hsub : (sp - (3 + BitVec.ofNat 32 args.length + 1) * 4 : Word).toNat =
            sp.toNat - 4 * (args.length + 4) := by
          have hmul : ((3 + BitVec.ofNat 32 args.length + 1) * 4 : Word).toNat =
              4 * (args.length + 4) := by
            rw [BitVec.toNat_mul, BitVec.toNat_add, BitVec.toNat_add, BitVec.toNat_ofNat]
            simp
            omega
          rw [BitVec.toNat_sub_of_le (BitVec.le_def.mpr (by omega)), hmul]
        split at hc
        · exact absurd hc (by simp)
        · rename_i s₆ d₆ hout
          obtain ⟨rfl, m₆, rfl, hw₂, -⟩ := copyLoopOut_below (s := { s with mem := m₅ })
            (hw.held h₄) hready.dense (by rw [hsub, hbuf]; omega) le_rfl hout
          exact hfail ((hw.trans hw₂).held h₄) hgrows ((hw.trans hw₂).stock.trans hstock)
            (fun f hf => ((hw.trans hw₂).foreign f hf).trans (hpage f hf)) hc
        · rename_i s₆ d₆ hout
          obtain ⟨rfl, m₆, rfl, hw₂, -⟩ := copyLoopOut_below (s := { s with mem := m₅ })
            (hw.held h₄) hready.dense (by rw [hsub, hbuf]; omega) le_rfl hout
          obtain ⟨rfl, rfl⟩ := Prod.mk.inj (Option.some.inj hc)
          exact Or.inr ⟨rfl, m₆, d₆, sz₃, _, _, (hw.trans hw₂).held h₄, hready.dense,
            fun f hf => ((hw.trans hw₂).foreign f hf).trans (hpage f hf), rfl⟩

/-! ### The file -/

/-- The operation, the lock and the reference are given up again. -/
theorem opened_closed (hlock : (s.begin_op.idup ip).ilock ip = some s₁) (m : Phys) :
    ({ s₁ with mem := m }.iunlockput ip).end_op = { s with mem := m } := by
  rw [Kernel.ilock] at hlock
  split at hlock
  · exact absurd hlock (by simp)
  · rename_i hfree
    obtain rfl := Option.some.inj hlock
    have hfree : s.ilocked ip = false := Bool.eq_false_iff.mpr hfree
    simp [Kernel.iunlockput, Kernel.iput, Kernel.end_op, Kernel.idup, Kernel.begin_op, ← hfree]

/-- `exec` gives everything back, or goes all the way. -/
theorem exec_tidy {path : List Byte} {argv : List (List Byte)} {ret : Word}
    (hk : KmapIn w.kmap) (h : Held s.mem (s.cr3 p) O)
    (hlen : ∀ arg ∈ argv, arg.length < 0x80000000) (htidy : Tidy w s p path argv)
    (hc : s.exec w p path argv = some (ret, t)) :
    ret = -1 ∧ Undone (O ∪ (s.cr3 p).frames) s.mem.frees s t ∨
      ret = 0 ∧ Committed (O ∪ (s.cr3 p).frames) p s t := by
  have hclean := h.clean_frames
  unfold Kernel.exec at hc
  dsimp only at hc
  split at hc
  · obtain ⟨rfl, rfl⟩ : (-1 : Word) = ret ∧ s.begin_op.end_op = t := by simpa using hc
    exact Or.inl ⟨rfl, s.mem, rfl, hclean, rfl, fun _ _ => rfl⟩
  · rename_i ip hpath
    obtain ⟨s₁, hlock, hc⟩ := Option.bind_eq_some_iff.mp hc
    have hclosed := opened_closed hlock
    have hmem : s₁.mem = s.mem := by
      rw [Kernel.ilock] at hlock
      split at hlock
      · exact absurd hlock (by simp)
      · obtain rfl := Option.some.inj hlock
        rfl
    have hfail : ∀ {m₁ : Phys}, Clean m₁ (O ∪ (s.cr3 p).frames) → m₁.frees = s.mem.frees →
        (∀ f ∈ O ∪ (s.cr3 p).frames, m₁.page f = s.mem.page f) →
        some (-1, ({ s₁ with mem := m₁ }.iunlockput ip).end_op) = some (ret, t) →
        ret = -1 ∧ Undone (O ∪ (s.cr3 p).frames) s.mem.frees s t ∨
          ret = 0 ∧ Committed (O ∪ (s.cr3 p).frames) p s t := by
      intro m₁ hclean hfrees hpage he
      obtain ⟨rfl, rfl⟩ := Prod.mk.inj (Option.some.inj he)
      exact Or.inl ⟨rfl, m₁, hclosed m₁, hclean, hfrees, hpage⟩
    unfold Kernel.execLoad at hc
    cases helf : elfhdr (w.inode ip) with
    | none =>
      rw [helf] at hc
      exact @hfail s₁.mem (hmem ▸ hclean) (by rw [hmem]) (fun f _ => by rw [hmem]) hc
    | some elf =>
      obtain ⟨r, m₁, hs, hb⟩ := setupkvm_spec hk.toKmapOk hclean
      obtain ⟨hstock, hnostock⟩ := stock_setupkvm hk hclean hs
      obtain ⟨r', m₁', hs', hcount, -⟩ := setupkvm_count hk hclean
      obtain ⟨rfl, rfl⟩ := Prod.mk.inj (Option.some.inj (hs.symm.trans hs'))
      simp only [helf, hmem, hs] at hc
      cases r with
      | none =>
        obtain ⟨hclean₁, hpage⟩ := hb
        exact hfail hclean₁ (hnostock rfl) hpage hc
      | some d =>
        obtain ⟨h₁, hpage, hempty⟩ := hb
        obtain ⟨hstock, hsize⟩ := hstock d rfl
        obtain ⟨htables, -⟩ := hcount d rfl
        have hd : Dense ⟨d, 0⟩ := .of_empty hempty
        obtain ⟨r, m₂, d₂, hl, h₂, hpage₂, hdense⟩ :=
          loadImage_spec (proghdrs (w.inode ip) elf) h₁ hd
        obtain ⟨hstock₂, hgrows⟩ := stock_loadImage _ h₁ hd hl
        have hpage₂' : ∀ f ∈ O ∪ (s.cr3 p).frames, m₂.page f = s.mem.page f := fun f hf =>
          (hpage₂ f hf).trans (hpage f hf)
        simp only [hl] at hc
        cases r with
        | none =>
          obtain ⟨hclean₂, hforeign⟩ := freevm_spec h₂
          refine hfail hclean₂ ?_ (fun f hf => (hforeign f hf).trans (hpage₂' f hf)) hc
          rw [frees_freevm h₂ (hgrows.sized hsize), hstock₂, hstock]
        | some sz =>
          have hend := imageEnd_of_loadImage _ hl
          dsimp only at hc
          rw [hclosed] at hc
          have hstray : StrayWord { s with mem := m₂ } p → StrayWord s p := by
            have hcr3 : ({ s with mem := m₂ } : Kernel).cr3 p = s.cr3 p := rfl
            refine StrayWord.congr hcr3 fun e he => hpage₂' e.frame (Or.inr ⟨.page 0, ?_⟩)
            exact (h.page (by decide) he).1
          have hr := execStack_tidy (s := { s with mem := m₂ }) h₂ (hdense sz rfl)
            (hgrows.sized hsize) (fun i hi => hgrows.tables (htables ▸ hi))
            (fun e he => Or.inr ⟨.page 0, (h.page (by decide) he).1⟩) hlen
            (fun htop hs => htidy ip elf sz hpath helf hend htop (hstray hs)) hc
          rcases hr with ⟨rfl, m₃, ht, hclean₃, hfrees, hpage₃⟩ |
            ⟨rfl, m₃, d₃, sz₃, name, tf, h₃, hd₃, hpage₃, ht⟩
          · refine Or.inl ⟨rfl, m₃, ht, hclean₃, ?_, fun f hf => ?_⟩
            · rw [hfrees, hstock₂, hstock]
            · exact (hpage₃ f hf).trans (hpage₂' f hf)
          · refine Or.inr ⟨rfl, m₃, d₃, sz₃, name, tf, h₃, hd₃, fun f hf => ?_, ht⟩
            exact (hpage₃ f hf).trans (hpage₂' f hf)

end

end Xv6.Memory
