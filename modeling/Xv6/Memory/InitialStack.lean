import Xv6.Memory.StackLayout

/-! @src exec.c vm.c usertests.c | name:exec and the user stack | layer:proof

    `exec` relies on the guard page to stop arguments that do not fit. `copyout` writes a string from
    its lowest address on, so this works for one that begins in the guard page. One that begins below
    it overwrites pages of the program first, and for one that wraps around to a missing page table
    `uva2ka` reads the word at address 0. -/

namespace Xv6.Memory
open Xv6.Schemes
open Xv6.Schemes.X86 (Word)
open Xv6.Process (NPROC Slot ProcState Trapframe)

/-- The guard page, or a page table of the kernel, stops the first string that does not fit. -/
def GuardStops (w : World) (s : Kernel) (p : Slot) (path : List Byte) (argv : List (List Byte)) :
    Prop :=
  ∀ ip elf sz, w.namei (s.task p).cwd path = some ip → elfhdr (w.inode ip) = some elf →
    imageEnd (proghdrs (w.inode ip) elf) 0 = some sz →
      Stopped w.kmap (NullSafe s p) (stackTop sz) (stackTop sz) argv

section

variable {w : World} {s t : Kernel} {p : Slot} {path : List Byte} {l : Loaded} {m m₁ : Phys}
  {d : Pgdir} {sz sp top va : Word} {e : Pte} {argv : List (List Byte)} {O : Set Frame}
  {kmap : List Kmap} {safe : Prop}

/-! ### The stack page -/

theorem Assembled.stackPage (h : Assembled w s O l) : ∃ e, StackPage l.pgdir l.sz e := by
  have hlarge := h.ready.large
  have haligned := h.ready.aligned
  obtain ⟨e, he, hu⟩ := h.user (l.sz.toNat / 4096 - 1) (by omega) (by omega)
  obtain ⟨e', he'⟩ := h.guard
  exact ⟨e, h.ready.dense.small, hlarge, haligned, he, hu, ⟨e', he', h.ready.guard e' he'⟩, h.user⟩

/-- It is none of the caller's pages. -/
theorem Assembled.fresh (h : Assembled w s O l) (hs : StackPage l.pgdir l.sz e) :
    l.pgdir.holds (.page (l.sz.toNat / 4096 - 1)) = some e.frame ∧ e.frame ∉ O := by
  have hsmall := hs.small
  have hv : l.sz.toNat / 4096 - 1 < UPAGES := by
    change l.sz.toNat / 4096 - 1 < 0x80000
    omega
  exact h.held.page hv hs.page

/-- Strings that fit are not stopped. -/
theorem stopped_of_fit (h4 : sp.toNat % 4 = 0) (htop : sp.toNat ≤ top.toNat)
    (hlarge : 8192 ≤ top.toNat) (hfit : top.toNat + (argv.map size).sum ≤ sp.toNat + 4096) :
    Stopped kmap safe top sp argv := by
  induction argv generalizing sp with
  | nil => trivial
  | cons arg argv ih =>
    rw [sum_size_cons] at hfit
    obtain ⟨hlen, hsize4⟩ := size_spec arg
    have harg : arg.length + 1 ≤ sp.toNat := by omega
    have hbelow := below_size h4 harg
    have hin : top.toNat ≤ (below sp arg).toNat + PGSIZE := by
      unfold PGSIZE
      omega
    rw [Stopped, if_pos harg, if_pos hin]
    exact ih (by omega) (by omega) (by omega)

/-! ### Strings and array fit -/

/-- What the array writes. -/
theorem copyout_array (hs : StackPage d sz e) (hargc : argv.length ≤ MAXARG)
    (hsp : sp.toNat + (argv.map size).sum = sz.toNat) (hfit : stackSize argv ≤ PGSIZE)
    (hva : va = ustackAt sp (pointers sz.toNat argv)) {bytes : List Byte}
    (hbytes : bytes = (ustack sp (pointers sz.toNat argv)).flatMap wordBytes) :
    Kernel.copyout p s d va bytes = some
      (true, { s with mem := s.mem.write e.frame (va.toNat + 4096 - sz.toNat) bytes }, d) := by
  have hlarge := hs.large
  have haligned := hs.aligned
  have hn := length_pointers sz.toNat argv
  have hlen := length_ustack sp (pointers sz.toNat argv)
  unfold stackSize PGSIZE at hfit
  have hva' := ustackAt_spec sp (pointers sz.toNat argv) (by omega) (by omega)
  rw [← hva, hn] at hva'
  rw [hn, ← hbytes] at hlen
  have hpage : va.toNat / 4096 = sz.toNat / 4096 - 1 := by omega
  have hoff : va.toNat % 4096 = va.toNat + 4096 - sz.toNat := by omega
  have hget : d.get (va.toNat / PGSIZE) = some e := by
    unfold PGSIZE
    rw [hpage]
    exact hs.page
  have hne : bytes ≠ [] := by
    intro h
    rw [h, List.length_nil] at hlen
    omega
  have hin : va.toNat % PGSIZE + bytes.length ≤ PGSIZE := by
    unfold PGSIZE
    rw [hoff, hlen]
    omega
  have hrun := (copyout_page (p := p) (s := s) hget hs.user hne hin).1
  unfold PGSIZE at hrun
  rw [hrun, hoff]

/-- The layout. -/
theorem push_fits (path : List Byte) (h : Held s.mem (s.cr3 p) O) (hass : Assembled w s (O ∪ (s.cr3 p).frames) l)
    (hargc : argv.length ≤ MAXARG) (hfit : stackSize argv ≤ PGSIZE) :
    ∃ t, l.push p path argv = some (0, t) ∧ ∃ ptr, StackLayout t p argv ptr := by
  obtain ⟨e, hs⟩ := hass.stackPage
  have hlarge := hs.large
  have haligned := hs.aligned
  have hfit' := hfit
  unfold stackSize PGSIZE at hfit'
  have h4 : l.sz.toNat % 4 = 0 := by omega
  have hnil : ([] : List Word).length + argv.length ≤ MAXARG := by
    rw [List.length_nil]
    omega
  obtain ⟨m₁, hrun, hpushed, -⟩ := pushArgs_fit (p := p) (s := l.kernel) hs h4 le_rfl
    (by omega : l.sz.toNat + (argv.map size).sum ≤ l.sz.toNat + 4096) hnil
  have hsub : l.sz.toNat + 4096 - l.sz.toNat = 4096 := Nat.add_sub_cancel_left _ _
  rw [hsub] at hpushed
  generalize hsp : BitVec.ofNat 32 (l.sz.toNat - (argv.map size).sum) = sp at hrun
  have hsp' : sp.toNat + (argv.map size).sum = l.sz.toNat := by
    have hlt := l.sz.isLt
    rw [← hsp, BitVec.toNat_ofNat]
    omega
  have hcopy := copyout_array (p := p) (s := { l.kernel with mem := m₁ }) hs hargc hsp' hfit rfl
    rfl
  -- the old address space goes
  generalize hm₂ : m₁.write e.frame ((ustackAt sp (pointers l.sz.toNat argv)).toNat + 4096 -
    l.sz.toNat) ((ustack sp (pointers l.sz.toNat argv)).flatMap wordBytes) = m₂ at hcopy
  obtain ⟨m₀, hkernel⟩ := hass.kernel
  have hcr3 : l.kernel.cr3 p = s.cr3 p := by rw [hkernel]; rfl
  have hfree : m₂.freelist = l.kernel.mem.freelist := by
    rw [← hm₂]
    exact hpushed.free
  have hheld : Held m₂ l.pgdir (O ∪ (s.cr3 p).frames) :=
    ⟨hfree ▸ hass.held.nodup, hfree ▸ hass.held.owns, hass.held.kernel⟩
  have hfresh := (hass.fresh hs).1
  have hkept := (freevm_spec (h.swap hheld)).2 e.frame (Or.inr ⟨_, hfresh⟩)
  have hpush : ∃ t, l.push p path argv = some (0, t) ∧ t.cr3 p = l.pgdir ∧
      (t.task p).image.sz = l.sz ∧ (t.task p).tf.esp = ustackAt sp (pointers l.sz.toNat argv) ∧
      t.mem = freevm m₂ (s.cr3 p) := by
    unfold Loaded.push
    rw [hrun]
    dsimp only
    rw [List.nil_append, hcopy]
    dsimp only
    refine ⟨_, rfl, ?_, ?_, ?_, ?_⟩
    · simp [Kernel.cr3, Kernel.setTask]
    · simp [Kernel.setTask]
    · simp [Kernel.setTask]
    · rw [← hcr3]
      rfl
  obtain ⟨t, ht, hd, hsz, hesp, hmem⟩ := hpush
  refine ⟨t, ht, layout_of_writes hs hfit hargc hpushed hsp' rfl hd hsz hesp ?_⟩
  rw [hmem, hkept, ← hm₂]

/-! ### They do not fit -/

/-- The array would begin in the guard page. -/
theorem array_over (p : Slot) (path : List Byte) (hass : Assembled w s O l) (hargc : argv.length < MAXARG)
    (hfit : (argv.map size).sum ≤ PGSIZE) (hover : PGSIZE < stackSize argv) :
    (∃ t, l.push p path argv = some (-1, t)) ∧ ∀ c ∈ l.writes p argv, OnStack l.sz c := by
  obtain ⟨e, hs⟩ := hass.stackPage
  have hlarge := hs.large
  have haligned := hs.aligned
  have hlt := l.sz.isLt
  unfold PGSIZE at hfit
  unfold stackSize PGSIZE at hover
  unfold MAXARG at hargc
  have h4 : l.sz.toNat % 4 = 0 := by omega
  have hnil : ([] : List Word).length + argv.length ≤ MAXARG := by
    rw [List.length_nil]
    unfold MAXARG
    omega
  obtain ⟨m₁, hrun, -, hwrites⟩ := pushArgs_fit (p := p) (s := l.kernel) hs h4 le_rfl
    (by omega : l.sz.toNat + (argv.map size).sum ≤ l.sz.toNat + 4096) hnil
  generalize hsp : BitVec.ofNat 32 (l.sz.toNat - (argv.map size).sum) = sp at hrun
  have hsp' : sp.toNat + (argv.map size).sum = l.sz.toNat := by
    rw [← hsp, BitVec.toNat_ofNat]
    omega
  have hn := length_pointers l.sz.toNat argv
  have hva := ustackAt_spec sp (pointers l.sz.toNat argv)
    (by unfold MAXARG; omega) (by omega)
  rw [hn] at hva
  obtain ⟨e', he', hu'⟩ := hs.guard
  have hpage : (ustackAt sp (pointers l.sz.toNat argv)).toNat / PGSIZE = l.sz.toNat / 4096 - 2 := by
    unfold PGSIZE
    omega
  have hnull : ({ l.kernel with mem := m₁ } : Kernel).uva2ka p l.pgdir
      ((ustackAt sp (pointers l.sz.toNat argv)).toNat / PGSIZE) = some .null := by
    rw [hpage, uva2ka_user he', hu']
    rfl
  have hne : (ustack sp (pointers l.sz.toNat argv)).flatMap wordBytes ≠ [] := by
    intro h
    have hlen := length_ustack sp (pointers l.sz.toNat argv)
    rw [h, List.length_nil] at hlen
    omega
  obtain ⟨hcopy, hcopyWrites⟩ := copyout_null hnull hne
  constructor
  · unfold Loaded.push
    rw [hrun]
    dsimp only
    rw [List.nil_append, hcopy]
    exact ⟨_, rfl⟩
  · intro c hc
    unfold Loaded.writes at hc
    rw [hrun] at hc
    dsimp only at hc
    rw [List.nil_append, hcopyWrites, List.append_nil] at hc
    exact hwrites c hc

/-- What `exec` does with the arguments, by where the first one that does not fit begins. -/
theorem stackOk_iff (h : Held s.mem (s.cr3 p) O) (hass : Assembled w s (O ∪ (s.cr3 p).frames) l)
    (hl : s.loaded w p path = some l) (hargc : argv.length < MAXARG)
    (hlen : ∀ arg ∈ argv, arg.length < 0x80000000) :
    StackOk w s p path argv l ↔ Stopped w.kmap (NullSafe s p) l.sz l.sz argv := by
  obtain ⟨e, hs⟩ := hass.stackPage
  have hlarge := hs.large
  have haligned := hs.aligned
  have hexec := exec_loaded argv hl
  obtain ⟨m₀, hkernel⟩ := hass.kernel
  have hcr3 : l.kernel.cr3 p = s.cr3 p := by rw [hkernel]; rfl
  have hmine : ∀ e₀, (s.cr3 p).get 0 = some e₀ → e₀.frame ∈ O ∪ (s.cr3 p).frames :=
    fun e₀ he₀ => Or.inr ⟨_, (h.page (by decide) he₀).1⟩
  have hsafe : NullSafe l.kernel p ↔ NullSafe s p :=
    NullSafe.congr hcr3 fun e₀ he₀ => hass.kept e₀.frame (hmine e₀ he₀)
  by_cases hstrings : (argv.map size).sum ≤ PGSIZE
  · -- the strings fit
    have hstop : Stopped w.kmap (NullSafe s p) l.sz l.sz argv := by
      unfold PGSIZE at hstrings
      exact stopped_of_fit (by omega) le_rfl hlarge (by omega)
    refine iff_of_true ?_ hstop
    by_cases hfit : stackSize argv ≤ PGSIZE
    · refine ⟨fun t ht => ?_, fun hover => absurd hfit (not_le.mpr hover)⟩
      obtain ⟨t', hrun, hlayout⟩ := push_fits path h hass hargc.le hfit
      rw [hexec, hrun] at ht
      obtain rfl := (Prod.mk.inj (Option.some.inj ht)).2
      exact hlayout
    · obtain ⟨⟨t', hrun⟩, hwrites⟩ := array_over p path hass hargc hstrings (not_le.mp hfit)
      refine ⟨fun t ht => ?_, fun _ => ⟨⟨t', hexec.trans hrun⟩, hwrites⟩⟩
      rw [hexec, hrun] at ht
      exact absurd (Prod.mk.inj (Option.some.inj ht)).1 (by decide)
  · -- one of them does not
    have hover : PGSIZE < stackSize argv := by
      unfold stackSize
      omega
    unfold PGSIZE at hstrings
    have hne : ∀ e₀, (l.kernel.cr3 p).get 0 = some e₀ → e₀.frame ≠ e.frame := by
      intro e₀ he₀ heq
      rw [hcr3] at he₀
      exact (hass.fresh hs).2 (heq ▸ hmine e₀ he₀)
    have h4 : l.sz.toNat % 4 = 0 := by omega
    have hnil : ([] : List Word).length + argv.length ≤ MAXARG := by
      rw [List.length_nil]
      omega
    obtain ⟨hyes, hno⟩ := pushArgs_over hs hass.held.kernel hass.upper hne h4 le_rfl
      (by omega) (by omega : l.sz.toNat + 4096 < l.sz.toNat + (argv.map size).sum) hnil hlen hsafe
    constructor
    · rintro ⟨-, hfails⟩
      obtain ⟨⟨t, ht⟩, hwrites⟩ := hfails hover
      by_contra hst
      rcases hno hst with hrun | ⟨c, hc, hoff⟩
      · rw [hexec, Loaded.push, hrun] at ht
        cases ht
      · exact hoff (hwrites c (List.mem_append_left _ hc))
    · intro hst
      obtain ⟨m', hrun, hwrites⟩ := hyes hst
      have hpush : l.push p path argv =
          some (({ l.kernel with mem := m' } : Kernel).bad (some l.pgdir) none) := by
        rw [Loaded.push, hrun]
      refine ⟨fun t ht => ?_, fun _ => ⟨⟨_, hexec.trans hpush⟩, fun c hc => ?_⟩⟩
      · rw [hexec, hpush] at ht
        exact absurd (Prod.mk.inj (Option.some.inj ht)).1 (by decide)
      · rw [Loaded.writes, hrun, List.append_nil] at hc
        exact hwrites c hc

/-- `exec` makes the stack that the program expects, or fails without a write off the stack page, if
    and only if the guard page stops the first string that does not fit. -/
theorem exec_stack_iff (hk : KmapIn w.kmap) (h : Owned s) (hp : (s.task p).Live)
    (hargs : ∀ arg ∈ argv, Fetched s.mem (s.task p).image arg) (hargc : argv.length < MAXARG)
    (hl : s.loaded w p path = some l) :
    StackOk w s p path argv l ↔ GuardStops w s p path argv := by
  have hheld := h.held hp.used
  obtain ⟨hass, ip, elf, sz, hpath, helf, himage, hsz⟩ := loaded_assembled hk hheld hl
  have hlen : ∀ arg ∈ argv, arg.length < 0x80000000 := fun arg harg =>
    (hargs arg harg).length (h.small p hp.used)
  rw [stackOk_iff hheld hass hl hargc hlen, hsz]
  constructor
  · intro hst ip' elf' sz' hpath' helf' himage'
    obtain rfl := Option.some.inj (hpath.symm.trans hpath')
    obtain rfl := Option.some.inj (helf.symm.trans helf')
    obtain rfl := Option.some.inj (himage.symm.trans himage')
    exact hst
  · intro hst
    exact hst ip elf sz hpath helf himage

end

/-! ### A program of one page -/

/-- The kernel's table, a root directory, and a program with one page of zeros. -/
def pageWorld : World where
  kmap := strayWorld.kmap
  namei := strayWorld.namei
  inode := fun _ => ⟨84, fun o =>
    if o = 28 then 52 else if o = 44 ∨ o = 52 then 1 else if o = 73 then 16
    else [0x7f, 0x45, 0x4c, 0x46].getD o 0⟩

theorem pageWorld_in : KmapIn pageWorld.kmap := strayWorld_in

/-- The segment. -/
theorem pageWorld_segment : ∃ ph, proghdrs (pageWorld.inode 2) ⟨0, 52, 1⟩ = [some ph] ∧
    ph.load = true ∧ ph.vaddr = 0 ∧ ph.memsz = 4096 ∧ ph.filesz = 0 :=
  ⟨_, rfl, rfl, rfl, rfl, rfl⟩

theorem pageWorld_image : imageEnd (proghdrs (pageWorld.inode 2) ⟨0, 52, 1⟩) 0 = some 4096 := by
  obtain ⟨ph, hphs, hload, hvaddr, hmemsz, hfilesz⟩ := pageWorld_segment
  have hsum : ph.vaddr + ph.memsz = 4096 := by
    rw [hvaddr, hmemsz]
    rfl
  have hzero : (0 : Word).toNat = 0 := rfl
  rw [hphs, imageEnd, hload, hsum, hmemsz, hvaddr, hfilesz, if_neg (by decide), if_neg]
  · rfl
  · simp only [hzero, Nat.not_lt_zero, false_and, and_false, exists_false, or_false]
    decide

theorem loadLoop_none {ph : Proghdr} {d : Pgdir} {m : Phys} (h : ph.filesz = 0) (fuel k : ℕ) :
    loadLoop ph d fuel k m = some (true, m) := by
  cases fuel with
  | zero => rfl
  | succ fuel =>
    rw [loadLoop, if_neg]
    rw [h]
    exact Nat.not_lt_zero _

section

variable {s : Kernel} {p : Slot}

/-- It can be loaded. -/
theorem pageWorld_loads {O : Set Frame} (h : Held s.mem (s.cr3 p) O)
    (hroom : 1040 ≤ s.mem.freelist.length) (hlock : s.ilocked 2 = false) :
    ∃ l, s.loaded pageWorld p [7] = some l ∧ l.sz = 12288 := by
  obtain ⟨ph, hphs, hload, hvaddr, hmemsz, hfilesz⟩ := pageWorld_segment
  have hk := pageWorld_in
  obtain ⟨d, m₁, hs, hlen₁⟩ := setupkvm_room hk h.clean_frames (by omega)
  obtain ⟨x, m₁', hs', hb⟩ := setupkvm_spec hk.toKmapOk h.clean_frames
  obtain ⟨rfl, rfl⟩ := Prod.mk.inj (Option.some.inj (hs.symm.trans hs'))
  obtain ⟨h₁, -, hempty⟩ := hb
  obtain ⟨r', m₁', hs', hcount, -⟩ := setupkvm_count hk h.clean_frames
  obtain ⟨rfl, rfl⟩ := Prod.mk.inj (Option.some.inj (hs.symm.trans hs'))
  obtain ⟨htables, -⟩ := hcount d rfl
  have hd := Dense.of_empty hempty
  -- the segment
  obtain ⟨sz₂, m₂, d₂, ha, h₂, -, hd₂⟩ := allocuvm_dense 4096 h₁
    (by decide : (0 : Word) ≤ KERNBASE) hd.full hd.writable (Or.inl (by decide))
  have hpage : pageUp 0 = 0 := by decide
  obtain ⟨rfl, hlen₂, -⟩ := allocuvm_room (by decide : (4096 : Word) < KERNBASE) (by decide)
    (by decide : (4096 : Word).toNat ≤ 1 * PGSIZE) (by rw [hpage]; omega) ha
  rw [hpage] at hlen₂
  obtain ⟨-, hd₂⟩ := hd₂ (by decide)
  have hsum : ph.vaddr + ph.memsz = 4096 := by
    rw [hvaddr, hmemsz]
    rfl
  have himage : loadImage [some ph] 0 m₁ d = some (some 4096, m₂, d₂) := by
    rw [loadImage, hload, hsum, hmemsz, hvaddr, hfilesz]
    simp only [ha]
    rw [loadLoop_none hfilesz]
    rfl
  -- the stack
  obtain ⟨sz₃, m₃, d₃, ha₃, h₃, -⟩ := allocuvm_spec (4096 + 2 * BitVec.ofNat 32 PGSIZE) h₂
    (by decide : (4096 : Word) ≤ KERNBASE) hd₂.full
  have hpage₂ : pageUp 4096 = 1 := by decide
  obtain ⟨rfl, -⟩ := allocuvm_room (by decide : 4096 + 2 * BitVec.ofNat 32 PGSIZE < KERNBASE)
    (by decide) (by decide : (4096 + 2 * BitVec.ofNat 32 PGSIZE : Word).toNat ≤ 3 * PGSIZE)
    (by rw [hpage₂]; omega) ha₃
  have hround : BitVec.ofNat 32 (pageUp 4096 * PGSIZE) = 4096 := by decide
  have ha' : allocuvm m₂ d₂ (BitVec.ofNat 32 (pageUp 4096 * PGSIZE)) (stackTop 4096) =
      some (4096 + 2 * BitVec.ofNat 32 PGSIZE, m₃, d₃) := by
    rw [stackTop, hround]
    exact ha₃
  obtain ⟨-, hgrows⟩ := stock_loadImage _ h₁ hd himage
  obtain ⟨d₄, hclear, -⟩ := stackReady h₂ hd₂ (fun i hi => hgrows.tables (htables ▸ hi)) ha'
    (by decide)
  -- the call
  obtain ⟨s₁, hopen, hmem⟩ : ∃ s₁, (s.begin_op.idup 2).ilock 2 = some s₁ ∧ s₁.mem = s.mem := by
    have hfree : (s.begin_op.idup 2).ilocked 2 = false := hlock
    exact ⟨_, if_neg (Bool.eq_false_iff.mp hfree), rfl⟩
  have hclosed := opened_closed hopen
  refine ⟨⟨{ s with mem := m₃ }, ⟨0, 52, 1⟩, d₄, 12288⟩, ?_, rfl⟩
  have hpath : pageWorld.namei (s.task p).cwd [7] = some 2 := rfl
  have helf : elfhdr (pageWorld.inode 2) = some ⟨0, 52, 1⟩ := rfl
  have hstack : ({ s with mem := m₂ } : Kernel).loadStack ⟨0, 52, 1⟩ d₂ 4096 =
      some ⟨{ s with mem := m₃ }, ⟨0, 52, 1⟩, d₄, 12288⟩ := by
    have h0 : (4096 + 2 * BitVec.ofNat 32 PGSIZE : Word) ≠ 0 := by decide
    unfold Kernel.loadStack
    rw [stackTop] at ha'
    simp only [ha', h0, if_false, hclear]
    rfl
  unfold Kernel.loaded
  simp only [hpath, hopen, Option.bind_some, Kernel.loadProgram, helf, hmem, hs, hphs, himage]
  rw [hclosed]
  exact hstack

/-- A process with five pages of 7s, up to a zero at the end. -/
structure Filled (s : Kernel) (p : Slot) : Prop where
  owned : Owned s
  spacious : Spacious pageWorld strayMemory s p 5
  load : ∀ a : Word, a.toNat < 5 * PGSIZE →
    load s.mem (s.cr3 p) a = some (if a.toNat = 0x4fff then 0 else 7)

theorem Filled.live (h : Filled s p) : (s.task p).Live := Or.inr (Or.inl h.spacious.live)

theorem Filled.loads (h : Filled s p) :
    ∃ l, s.loaded pageWorld p [7] = some l ∧ l.sz = 12288 := by
  refine pageWorld_loads (h.owned.held h.live.used) ?_ (h.spacious.locks 2)
  have hroom := h.spacious.room
  rw [strayMemory, length_freerange] at hroom
  omega

/-- A string of 7s. -/
theorem Filled.fetched {a : Word} {n : ℕ} (h : Filled s p) (hend : a.toNat + n = 0x4fff) :
    Fetched s.mem (s.task p).image (List.replicate n 7) := by
  have hsz : (s.task p).image.sz.toNat = 5 * 4096 := h.spacious.size
  refine ⟨a, ?_, fun h0 => absurd (List.eq_of_mem_replicate h0) (by decide), fun k hk => ?_⟩
  · rw [List.length_replicate, hsz, hend]
    decide
  · rw [List.length_replicate] at hk
    have hak : (a + BitVec.ofNat 32 k).toNat = a.toNat + k := by
      rw [BitVec.toNat_add, BitVec.toNat_ofNat]
      omega
    have hload := h.load (a + BitVec.ofNat 32 k) (by
      rw [hak]
      change a.toNat + k < 5 * 4096
      omega)
    refine hload.trans (congrArg some ?_)
    rw [hak]
    rcases hk.lt_or_eq with hlt | rfl
    · rw [if_neg (by omega), List.getD_append _ _ _ _ (by rw [List.length_replicate]; exact hlt)]
      exact (List.getD_replicate _ hlt).symm
    · rw [if_pos hend, List.getD_append_right _ _ _ _ (by rw [List.length_replicate])]
      simp

/-- The steps to it from boot. -/
theorem filled_ready : ∃ s₀ s p k, Kernel.userinit pageWorld strayMemory [] = some s₀ ∧
    Run (Kernel.Step pageWorld) s₀ k s ∧ Filled s p := by
  have hk := pageWorld_in
  have hlen : strayMemory.freelist.length = 0x1fc00 := length_freerange _ _
  have hnd : strayMemory.freelist.Nodup := nodup_freerange _ _
  obtain ⟨s₀, p, hboot, hb⟩ := userinit_room [] hk hnd (by rw [hlen]; decide) (by rfl)
  have h₀ := owned_userinit hk hnd hboot
  obtain ⟨s₁, hgrow, hs₁⟩ := growproc_room hk hb h₀ (by decide) (by decide : 5 < UPAGES) (by decide)
    (by decide : BitVec.ofNat 32 PGSIZE + 0x4000 = BitVec.ofNat 32 (5 * PGSIZE))
    (by rw [hlen]; decide)
  have h₁ := owned_step hk h₀ (fun _ _ _ he => by simp at he) hgrow
  obtain ⟨page, s₂, hstore, hs₂, hload⟩ := user_stores hs₁ h₁ (by decide)
    (fun a => if a = 0x4fff then 0 else 7)
  have h₂ := owned_step hk h₁ (fun _ _ _ he => by simp at he) hstore
  exact ⟨s₀, s₂, p, _, hboot, .cons hgrow (.cons hstore (.nil s₂)), h₂, hs₂, hload⟩

end

/-- A short argument. -/
theorem exec_stack_iff_short : ∃ s p l, s.loaded pageWorld p [7] = some l ∧
    StackOk pageWorld s p [7] [[7]] l := by
  obtain ⟨s₀, s, p, k, -, -, h⟩ := filled_ready
  obtain ⟨l, hl, hsz⟩ := h.loads
  have hargs : ∀ arg ∈ [[(7 : Byte)]], Fetched s.mem (s.task p).image arg := by
    intro arg harg
    obtain rfl := List.mem_singleton.mp harg
    exact h.fetched (a := 0x4ffe) (n := 1) (by decide)
  refine ⟨s, p, l, hl, (exec_stack_iff pageWorld_in h.owned h.live hargs (by decide) hl).mpr ?_⟩
  intro ip elf sz hpath helf himage
  obtain rfl : 2 = ip := Option.some.inj hpath
  obtain rfl : ⟨0, 52, 1⟩ = elf := Option.some.inj helf
  obtain rfl : 4096 = sz := Option.some.inj (pageWorld_image.symm.trans himage)
  exact stopped_of_fit (by decide) le_rfl (by decide) (by decide)

/-- A string that begins two pages below the stack page goes over the program. -/
theorem exec_stack_overrun : ¬ ∀ w m₀ code s₀ k s p path argv l, KmapIn w.kmap →
    m₀.freelist.Nodup → Kernel.userinit w m₀ code = some s₀ → Run (Kernel.Step w) s₀ k s →
    (s.task p).Live → (∀ arg ∈ argv, Fetched s.mem (s.task p).image arg) → argv.length < MAXARG →
    s.loaded w p path = some l → StackOk w s p path argv l := by
  intro hall
  obtain ⟨s₀, s, p, k, hboot, hrun, h⟩ := filled_ready
  obtain ⟨l, hl, hsz⟩ := h.loads
  have hargs : ∀ arg ∈ [List.replicate 10000 (7 : Byte)], Fetched s.mem (s.task p).image arg := by
    intro arg harg
    obtain rfl := List.mem_singleton.mp harg
    exact h.fetched (a := 10479) (by decide)
  have hok := hall pageWorld strayMemory [] s₀ k s p [7] [List.replicate 10000 7] l pageWorld_in
    (nodup_freerange _ _) hboot hrun h.live hargs (by decide) hl
  have hheld := h.owned.held h.live.used
  obtain ⟨hass, -⟩ := loaded_assembled pageWorld_in hheld hl
  have hlen : ∀ arg ∈ [List.replicate 10000 (7 : Byte)], arg.length < 0x80000000 :=
    fun arg harg => (hargs arg harg).length (h.owned.small p h.live.used)
  have hargc : [List.replicate 10000 (7 : Byte)].length < MAXARG := by
    rw [List.length_singleton]
    decide
  rw [stackOk_iff hheld hass hl hargc hlen, hsz, Stopped] at hok
  have hbelow : (below (12288 : Word) (List.replicate 10000 7)).toNat = 2284 := by
    unfold below
    rw [List.length_replicate]
    decide
  rw [List.length_replicate, if_pos (by decide), hbelow, if_neg (by decide)] at hok
  exact absurd hok (by decide)

end Xv6.Memory
