import Xv6.Memory.Room

/-! @src vm.c exec.c | name:An argument without a page table | layer:proof

    `uva2ka` does not test whether `walkpgdir` has found a page table, as `loaduvm`, `deallocuvm`,
    `copyuvm` and `clearpteu` do. For an argument of `exec` that wraps around to a missing page
    table it reads the word at address 0, which belongs to the caller, and `copyout` writes the page
    that this word names: a page table of the caller, say. `exec` then fails at the next page. -/

namespace Xv6.Memory
open Xv6.Schemes
open Xv6.Schemes.X86 (Word)
open Xv6.Process (NPROC Slot ProcState Trapframe)

section

variable {w : World} {s t : Kernel} {p : Slot} {m : Phys} {d : Pgdir} {O : Set Frame} {f : Frame}
  {v o : ℕ} {e : Pte} {bytes : List Byte}

/-! ### Writing a page table -/

/-- An address space that does not have the page as a page table. -/
theorem poke_of_ne (h : ∀ i, d.holds (.table i) ≠ some f) : d.poke f o bytes = d := by
  have hpde : (fun i => (d.pde i).map fun t => t.poke f o bytes) = d.pde := by
    funext i
    cases hi : d.pde i with
    | none => rfl
    | some t =>
      have hne : t.frame ≠ f := fun he => h i (by simp [Pgdir.holds, hi, he])
      simp [PageTable.poke, hne]
  rw [Pgdir.poke, hpde]

/-- An entry that has been written. -/
theorem get_poke (ht : d.holds (.table (PDX v)) = some f) (hlo : o ≤ 4 * PTX v)
    (hhi : 4 * PTX v + 4 ≤ o + bytes.length) :
    (d.poke f o bytes).get v = decodePte (wordAt bytes (4 * PTX v - o)) := by
  obtain ⟨t, ht, hf⟩ := Option.map_eq_some_iff.mp (ht : (d.pde (PDX v)).map PageTable.frame = some f)
  simp [Pgdir.get, Pgdir.poke, ht, PageTable.poke, hf, hlo, hhi]

/-! ### uva2ka and copyout -/

/-- The word at address 0 names the page `f`. -/
structure Names (s : Kernel) (p : Slot) (f : Frame) (e : Pte) : Prop where
  word : ∃ x, loadWord s.mem (s.cr3 p) 0 = some x ∧ x.getLsbD 0 = true ∧ x.getLsbD 2 = true ∧
    x.toNat / PGSIZE = f
  ka : (UPAGES + f) % NPAGES ≠ 0
  mapped : (s.cr3 p).get ((UPAGES + f) % NPAGES) = some e
  writable : e.w = true

/-- Without a page table `uva2ka` returns the page that the word at address 0 names. -/
theorem uva2ka_stray (h : Names s p f e) (ht : PDX v ∉ d.tables) :
    s.uva2ka p d v = some (.stray e) := by
  obtain ⟨x, hx, h₀, h₂, rfl⟩ := h.word
  have hnone : d.pde (PDX v) = none := Option.not_isSome_iff_eq_none.mp ht
  simp only [Kernel.uva2ka, walkpgdir, hnone, Bool.false_eq_true, if_false, hx, Option.bind_some,
    h₀, h₂, Bool.true_eq_false, or_self, h.ka, h.mapped, Option.filter_some, h.writable, if_true,
    Option.map_some]

/-- The copy ends at the next page if that is the kernel's. -/
theorem copyLoopOut_stray {fuel : ℕ} {va : Word} {buf : List Byte} (h : Names s p f e)
    (ht : PDX (va.toNat / PGSIZE) ∉ d.tables) (hbuf : PGSIZE - va.toNat % PGSIZE < buf.length)
    (hlim : va.toNat / PGSIZE + 1 < NPAGES)
    (hd : ∀ bytes, d.poke e.frame (va.toNat % PGSIZE) bytes = d)
    (hnext : PDX (va.toNat / PGSIZE + 1) ∈ d.tables)
    (hkernel : ∀ e', d.get (va.toNat / PGSIZE + 1) = some e' → e'.u = false) :
    Kernel.copyLoopOut p (fuel + 2) s d va buf =
      some (false, s.poke e.frame (va.toNat % PGSIZE) (buf.take (PGSIZE - va.toNat % PGSIZE)), d) := by
  have hne : buf ≠ [] := List.ne_nil_of_length_pos (by omega)
  have hmin : min (PGSIZE - va.toNat % PGSIZE) buf.length = PGSIZE - va.toNat % PGSIZE :=
    min_eq_left hbuf.le
  have hrest : buf.drop (PGSIZE - va.toNat % PGSIZE) ≠ [] :=
    List.ne_nil_of_length_pos (by rw [List.length_drop]; omega)
  have hva : (BitVec.ofNat 32 ((va.toNat / PGSIZE + 1) * PGSIZE)).toNat / PGSIZE =
      va.toNat / PGSIZE + 1 := by
    have hN : va.toNat / 4096 + 1 < 0x100000 := hlim
    change (BitVec.ofNat 32 ((va.toNat / 4096 + 1) * 4096)).toNat / 4096 = va.toNat / 4096 + 1
    rw [BitVec.toNat_ofNat]
    omega
  have hnull : ∀ s' : Kernel, s'.uva2ka p d (va.toNat / PGSIZE + 1) = some .null := fun s' => by
    rw [uva2ka_tabled hnext]
    cases he : d.get (va.toNat / PGSIZE + 1) with
    | none => rfl
    | some e' => simp [hkernel e' he]
  rw [Kernel.copyLoopOut, if_neg hne]
  simp only [uva2ka_stray h ht, hmin, hd]
  rw [Kernel.copyLoopOut, if_neg hrest]
  simp only [hva, hnull]

/-! ### exec -/

/-- `exec` of a file that is there. -/
theorem exec_found {path : List Byte} {argv : List (List Byte)} {ip : ℕ}
    (h : w.namei (s.task p).cwd path = some ip) :
    s.exec w p path argv =
      ((s.begin_op.idup ip).ilock ip).bind fun s => s.execLoad w p path argv ip := by
  have h' : w.namei (s.begin_op.task p).cwd path = some ip := h
  unfold Kernel.exec
  dsimp only
  rw [h']

/-- `exec` of a program without segments, with an argument that wraps around to the end of a missing
    page table: it returns -1 when it has written the page. -/
theorem exec_stray {path arg : List Byte} {elf : Elfhdr} {ip : ℕ} (hk : KmapIn w.kmap)
    (h : Held s.mem (s.cr3 p) O) (hroom : 1029 ≤ s.mem.freelist.length)
    (hpath : w.namei (s.task p).cwd path = some ip) (hlock : s.ilocked ip = false)
    (helf : elfhdr (w.inode ip) = some elf) (hphnum : elf.phnum = 0)
    (hnames : Names s p f ⟨f, true, false⟩) (hf : f ∈ (s.cr3 p).frames)
    (hv : UPAGES ≤ v) (hlim : v + 1 < NPAGES) (hva : (below (stackTop 0) arg).toNat = v * PGSIZE + o)
    (ho : o < PGSIZE) (hlen : PGSIZE - o < arg.length + 1)
    (hout : PDX v ∉ kernelTables w.kmap) (hnext : PDX (v + 1) ∈ kernelTables w.kmap) :
    ∃ t, s.exec w p path [arg] = some (-1, t) ∧
      t.task = fun q => (s.task q).poke f o ((arg ++ [0]).take (PGSIZE - o)) := by
  have hclean := h.clean_frames
  obtain ⟨d, m₁, hs, hlen₁⟩ := setupkvm_room hk hclean (by omega)
  obtain ⟨x, m₁', hs', hb⟩ := setupkvm_spec hk.toKmapOk hclean
  obtain ⟨rfl, rfl⟩ := Prod.mk.inj (Option.some.inj (hs.symm.trans hs'))
  obtain ⟨h₁, hpage₁, hempty⟩ := hb
  obtain ⟨r', m₁', hs', hcount, -⟩ := setupkvm_count hk hclean
  obtain ⟨rfl, rfl⟩ := Prod.mk.inj (Option.some.inj (hs.symm.trans hs'))
  obtain ⟨htables, -⟩ := hcount d rfl
  -- the pages of the stack
  have hround : BitVec.ofNat 32 (pageUp 0 * PGSIZE) = 0 := by decide
  have hd := Dense.of_empty hempty
  obtain ⟨sz₃, m₃, d₃, ha, -⟩ := allocuvm_spec (stackTop 0) h₁ (by decide : (0 : Word) ≤ KERNBASE)
    hd.full
  obtain ⟨rfl, -, hupper⟩ := allocuvm_room (by decide : stackTop 0 < KERNBASE)
    (by decide) (by decide : (stackTop 0).toNat ≤ 2 * PGSIZE) (by rw [show pageUp 0 = 0 by decide]; omega) ha
  have ha' : allocuvm m₁ d (BitVec.ofNat 32 (pageUp 0 * PGSIZE)) (stackTop 0) =
      some (stackTop 0, m₃, d₃) := by rw [hround, ha]
  obtain ⟨d₄, hclear, h₄, hready, -, -, -, hpage₃⟩ := @stackReady _ _ _ _ w.kmap _ _ _ h₁ hd
    (fun i hi => htables ▸ hi) ha' (by decide)
  have htables₄ : d₄.tables = d₃.tables := by
    unfold clearpteu at hclear
    split at hclear
    · exact absurd hclear (by simp)
    · obtain rfl := Option.some.inj hclear
      exact tables_set _
  have hv' : 0x80000 ≤ v := hv
  have hout₄ : PDX v ∉ d₄.tables := fun hin => by
    have hpdx : PDX v = v / 1024 := rfl
    have hin' := hupper _ (by omega) (htables₄ ▸ hin)
    rw [htables] at hin'
    exact hout hin'
  -- the copy of the argument
  have hpage : ∀ g ∈ O ∪ (s.cr3 p).frames, m₃.page g = s.mem.page g := fun g hg =>
    (hpage₃ g hg).trans (hpage₁ g hg)
  have hload : loadWord m₃ (s.cr3 p) 0 = loadWord s.mem (s.cr3 p) 0 :=
    loadWord_congr fun e he => hpage e.frame (Or.inr ⟨.page 0, (h.page (by decide) he).1⟩)
  have hnames₃ : Names { s with mem := m₃ } p f ⟨f, true, false⟩ := by
    obtain ⟨x, hx, hbits⟩ := hnames.word
    exact ⟨⟨x, hload.trans hx, hbits⟩, hnames.ka, hnames.mapped, rfl⟩
  have hdiv : (below (stackTop 0) arg).toNat / PGSIZE = v := by
    rw [hva, Nat.mul_comm, Nat.mul_add_div (by decide), Nat.div_eq_of_lt ho, Nat.add_zero]
  have hmod : (below (stackTop 0) arg).toNat % PGSIZE = o := by
    rw [hva, Nat.mul_comm, Nat.mul_add_mod, Nat.mod_eq_of_lt ho]
  have hbuf : (arg ++ [0]).length = arg.length + 1 := by simp
  have hpoke : ∀ bytes, d₄.poke f o bytes = d₄ := fun bytes =>
    poke_of_ne fun i hi => h₄.owns.apart _ _ hi (Or.inr hf)
  have hcopy : Kernel.copyout p { s with mem := m₃ } d₄ (below (stackTop 0) arg) (arg ++ [0]) =
      some (false, ({ s with mem := m₃ } : Kernel).poke f o ((arg ++ [0]).take (PGSIZE - o)), d₄) := by
    obtain ⟨k, hk'⟩ : ∃ k, (arg ++ [0]).length = k + 2 := ⟨arg.length - 1, by omega⟩
    have := @copyLoopOut_stray _ _ _ _ _ k (below (stackTop 0) arg) (arg ++ [0]) hnames₃
      (by rwa [hdiv]) (by rw [hmod, hbuf]; exact hlen) (by rwa [hdiv])
      (by rw [hmod]; exact hpoke) (by rw [hdiv]; exact hready.tables _ hnext)
      (by rw [hdiv]; exact h₄.kernel _ (by omega))
    rw [Kernel.copyout, hk', this, hmod]
  -- the call
  have hopen : ∃ s₁, (s.begin_op.idup ip).ilock ip = some s₁ ∧ s₁.mem = s.mem := by
    have hfree : (s.begin_op.idup ip).ilocked ip = false := hlock
    exact ⟨_, if_neg (Bool.eq_false_iff.mp hfree), rfl⟩
  obtain ⟨s₁, hopen, hmem⟩ := hopen
  have hphs : proghdrs (w.inode ip) elf = [] := by simp [proghdrs, hphnum]
  have htop : BitVec.ofNat 32 (pageUp 0 * PGSIZE) + 2 * BitVec.ofNat 32 PGSIZE = stackTop 0 := rfl
  have h0 : stackTop 0 ≠ 0 := by decide
  have hpush : Kernel.pushArgs p [arg] (stackTop 0) [] { s with mem := m₃ } d₄ =
      some (none, ({ s with mem := m₃ } : Kernel).poke f o ((arg ++ [0]).take (PGSIZE - o)), d₄) := by
    rw [pushArgs_cons (by decide), hcopy]
  have hexec : s.exec w p path [arg] =
      some ((({ s with mem := m₃ } : Kernel).poke f o ((arg ++ [0]).take (PGSIZE - o))).bad
        (some d₄) none) := by
    rw [exec_found hpath]
    simp only [hopen, Option.bind_some, Kernel.execLoad, helf, hmem, hs, hphs, loadImage]
    rw [opened_closed hopen]
    unfold Kernel.execStack
    simp only [htop, ha', hclear, h0, if_false, hpush]
  exact ⟨_, hexec, rfl⟩

end

/-! ### A caller that makes it happen -/

/-- The table of the kernel mappings is in order. -/
theorem kmap_in {data vram pvram : ℕ} (hlo : 0x80100 ≤ data) (hhi : data ≤ 0xa0000)
    (hvram : vram ≤ 0x2e000) : KmapIn (kmap data vram pvram) where
  above := by
    have hU : UPAGES = 0x80000 := rfl
    intro k hk
    simp only [kmap, List.mem_cons, List.not_mem_nil, or_false] at hk
    rcases hk with rfl | rfl | rfl | rfl | rfl | rfl <;> dsimp only <;> omega
  disjoint := by
    simp only [kmap, List.pairwise_cons, List.mem_cons, List.not_mem_nil, or_false,
      forall_eq_or_imp, forall_eq, IsEmpty.forall_iff, implies_true, List.Pairwise.nil, and_true]
    omega
  fits := by
    have hN : NPAGES = 0x100000 := rfl
    intro k hk
    simp only [kmap, List.mem_cons, List.not_mem_nil, or_false] at hk
    rcases hk with rfl | rfl | rfl | rfl | rfl | rfl <;> dsimp only <;> omega

/-- The bytes of a word make the word. -/
theorem word_of_bytes (x : Word) :
    (x >>> 24).setWidth 8 ++ (x >>> 16).setWidth 8 ++ (x >>> 8).setWidth 8 ++
      (x.setWidth 8 : Byte) = x := by
  refine BitVec.eq_of_getLsbD_eq fun i hi => ?_
  rw [BitVec.getLsbD_append, BitVec.getLsbD_append, BitVec.getLsbD_append]
  simp only [BitVec.getLsbD_setWidth, BitVec.getLsbD_ushiftRight]
  interval_cases i <;> rfl

/-- The kernel's table, a root directory, and a program without segments. -/
def strayWorld : World where
  kmap := kmap 0x80108 0x800 0x80000
  namei := fun _ path => if path = [0x2f] then some 1 else if path = [7] then some 2 else none
  inode := fun _ => ⟨52, fun o => [0x7f, 0x45, 0x4c, 0x46].getD o 0⟩

/-- What `freerange` leaves of the `n` pages from `a` on. -/
def freerange (a n : ℕ) : Phys := ⟨(List.range' a n).reverse, fun _ _ => 0⟩

theorem nodup_freerange (a n : ℕ) : (freerange a n).freelist.Nodup :=
  List.nodup_reverse.mpr List.nodup_range'

theorem length_freerange (a n : ℕ) : (freerange a n).freelist.length = n := by
  simp [freerange]

theorem mem_freerange {a n f : ℕ} : f ∈ (freerange a n).frees ↔ a ≤ f ∧ f < a + n := by
  simp [freerange, Phys.frees, List.mem_range'_1]

/-- The free pages up to `PHYSTOP`. -/
def strayMemory : Phys := freerange 0x400 0x1fc00

/-- 32 megabytes and the video memory, and the stack. -/
def strayArg : List Byte := List.replicate 0x2802007 7

theorem strayWorld_in : KmapIn strayWorld.kmap := kmap_in (by decide) (by decide) (by decide)

/-- The memory of the caller: the word, and a string up to 0x2803006. -/
def strayByte (x : Word) (a : ℕ) : Byte :=
  if a < 4 then (x >>> (8 * a)).setWidth 8 else if a = 0x2803007 then 0 else 7

/-- A process that has stored the word and the string. -/
structure Stored (s : Kernel) (p : Slot) (x : Word) : Prop where
  owned : Owned s
  spacious : Spacious strayWorld strayMemory s p 0x2805
  load : ∀ a : Word, a.toNat < 0x2805 * PGSIZE →
    load s.mem (s.cr3 p) a = some (strayByte x a.toNat)

section

variable {s : Kernel} {p : Slot} {f : ℕ}

/-- Its page table is free memory, which the kernel has mapped. -/
theorem stray_table (hs : Spacious strayWorld strayMemory s p 0x2805) :
    ∃ f, (s.cr3 p).holds (.table 1) = some f ∧ f < 0x20000 ∧
      (s.cr3 p).get (UPAGES + f) = some ⟨f, true, false⟩ := by
  obtain ⟨g, hg⟩ := hs.user 1024 (by decide)
  obtain ⟨t, ht⟩ := Option.isSome_iff_exists.mp (mem_tables hg : ((s.cr3 p).pde (PDX 1024)).isSome)
  have hholds : (s.cr3 p).holds (.table 1) = some t.frame := by
    have hpdx : PDX 1024 = 1 := by decide
    rw [hpdx] at ht
    simp [Pgdir.holds, ht]
  have hin : t.frame ∈ strayMemory.frees := hs.stock (Or.inr ⟨_, hholds⟩)
  obtain ⟨f, hf⟩ : ∃ f : ℕ, f = t.frame := ⟨_, rfl⟩
  rw [← hf] at hholds hin
  obtain ⟨hlo, hhi⟩ := mem_freerange.mp hin
  refine ⟨f, hholds, by omega, ?_⟩
  have hk := hs.kernel ⟨0x80108, 0xa0000 - 0x80108, 0x80108 - 0x80000, true⟩
    (by simp [strayWorld, kmap]) (f - 0x108) (by dsimp only; omega)
  have hU : UPAGES = 0x80000 := rfl
  have hv : 0x80108 + (f - 0x108) = UPAGES + f := by omega
  have hpa : 0x80108 - 0x80000 + (f - 0x108) = f := by omega
  dsimp only at hk
  rw [hv, hpa] at hk
  exact hk

/-- The word names the page table. -/
theorem names_table (hs : Stored s p (BitVec.ofNat 32 (f * PGSIZE + 7))) (hf : f < 0x20000)
    (hget : (s.cr3 p).get (UPAGES + f) = some ⟨f, true, false⟩) :
    Names s p f ⟨f, true, false⟩ := by
  have hx : (BitVec.ofNat 32 (f * 4096 + 7)).toNat = f * 4096 + 7 := by
    rw [BitVec.toNat_ofNat]
    omega
  have hU : UPAGES = 0x80000 := rfl
  have hN : NPAGES = 0x100000 := rfl
  have hmod : (UPAGES + f) % NPAGES = UPAGES + f := Nat.mod_eq_of_lt (by omega)
  have hload : ∀ a : Word, a.toNat < 4096 →
      load s.mem (s.cr3 p) a = some (strayByte (BitVec.ofNat 32 (f * PGSIZE + 7)) a.toNat) :=
    fun a ha => hs.load a (by change a.toNat < 0x2805 * 4096; omega)
  refine ⟨⟨BitVec.ofNat 32 (f * PGSIZE + 7), ?_, ?_, ?_, ?_⟩, ?_, hmod.symm ▸ hget, rfl⟩
  · rw [loadWord, hload 0 (by decide), hload (0 + 1) (by decide), hload (0 + 2) (by decide),
      hload (0 + 3) (by decide)]
    exact congrArg some (word_of_bytes _)
  · rw [BitVec.getLsbD_ofNat, Nat.testBit_zero]
    change (true && decide ((f * 4096 + 7) % 2 = 1)) = true
    simp only [Bool.true_and, decide_eq_true_eq]
    omega
  · rw [BitVec.getLsbD_ofNat, Nat.testBit_eq_decide_div_mod_eq]
    change (true && decide ((f * 4096 + 7) / 4 % 2 = 1)) = true
    simp only [Bool.true_and, decide_eq_true_eq]
    omega
  · change (BitVec.ofNat 32 (f * 4096 + 7)).toNat / 4096 = f
    omega
  · omega

/-- The steps to it from boot. -/
structure Ready (s₀ s₁ s₂ : Kernel) (p : Slot) (n : Word) (page : Frame → Page) (f : ℕ) : Prop where
  boot : Kernel.userinit strayWorld strayMemory [] = some s₀
  grow : s₀.Step strayWorld (.growproc p n) s₁
  store : s₁.Step strayWorld (.user p page) s₂
  stored : Stored s₂ p (BitVec.ofNat 32 (f * PGSIZE + 7))
  names : Names s₂ p f ⟨f, true, false⟩
  table : (s₂.cr3 p).holds (.table 1) = some f

theorem stray_ready : ∃ s₀ s₁ s₂ p page f, Ready s₀ s₁ s₂ p 0x2804000 page f := by
  have hlen : strayMemory.freelist.length = 0x1fc00 := length_freerange _ _
  have hnd : strayMemory.freelist.Nodup := nodup_freerange _ _
  obtain ⟨s₀, p, hboot, hb⟩ := userinit_room [] strayWorld_in hnd (by rw [hlen]; decide) (by rfl)
  have h₀ := owned_userinit strayWorld_in hnd hboot
  obtain ⟨s₁, hgrow, hs₁⟩ := growproc_room strayWorld_in hb h₀ (by decide)
    (by decide : 0x2805 < UPAGES) (by decide)
    (by decide : BitVec.ofNat 32 PGSIZE + 0x2804000 = BitVec.ofNat 32 (0x2805 * PGSIZE)) (by rw [hlen]; decide)
  have h₁ := owned_step strayWorld_in h₀ (fun _ _ _ he => by simp at he) hgrow
  obtain ⟨f, hholds, hf, hget⟩ := stray_table hs₁
  obtain ⟨page, s₂, hstore, hs₂, hload⟩ := user_stores hs₁ h₁ (by decide)
    (strayByte (BitVec.ofNat 32 (f * PGSIZE + 7)))
  have h₂ := owned_step strayWorld_in h₁ (fun _ _ _ he => by simp at he) hstore
  have hcr3 : s₂.cr3 p = s₁.cr3 p := by
    obtain rfl := Option.some.inj hstore.next
    rfl
  have hset : Stored s₂ p (BitVec.ofNat 32 (f * PGSIZE + 7)) := ⟨h₂, hs₂, hload⟩
  exact ⟨s₀, s₁, s₂, p, page, f, hboot, hgrow, hstore, hset,
    names_table hset hf (hcr3 ▸ hget), hcr3 ▸ hholds⟩

/-- A string of 7s up to the zero. -/
theorem stray_fetched {x a : Word} {n : ℕ} (hs : Stored s p x) (h4 : 4 ≤ a.toNat)
    (hend : a.toNat + n = 0x2803007) : Fetched s.mem (s.task p).image (List.replicate n 7) := by
  have hsz : (s.task p).image.sz.toNat = 0x2805 * 4096 := hs.spacious.size
  refine ⟨a, ?_, fun h0 => absurd (List.eq_of_mem_replicate h0) (by decide), fun k hk => ?_⟩
  · rw [List.length_replicate, hsz, hend]
    decide
  · rw [List.length_replicate] at hk
    have hak : (a + BitVec.ofNat 32 k).toNat = a.toNat + k := by
      rw [BitVec.toNat_add, BitVec.toNat_ofNat]
      omega
    have hload := hs.load (a + BitVec.ofNat 32 k) (by
      rw [hak]
      change a.toNat + k < 0x2805 * 4096
      omega)
    refine hload.trans (congrArg some ?_)
    rw [hak, strayByte, if_neg (by omega)]
    rcases hk.lt_or_eq with hlt | rfl
    · rw [if_neg (by omega), List.getD_eq_getElem?_getD,
        List.getElem?_append_left (by simpa using hlt), List.getElem?_replicate, if_pos hlt]
      rfl
    · rw [if_pos hend, List.getD_eq_getElem?_getD, List.getElem?_append_right (by simp)]
      simp

/-- The argument wraps around to the end of the page table below the video memory. -/
theorem stray_below : (below (stackTop 0) strayArg).toNat = 0xfd7ff * PGSIZE + 0xff8 := by
  have hlen : strayArg.length = 0x2802007 := List.length_replicate
  rw [below, hlen]
  decide

theorem stray_tables : PDX 0xfd7ff ∉ kernelTables strayWorld.kmap ∧
    PDX (0xfd7ff + 1) ∈ kernelTables strayWorld.kmap := by
  rw [kernelTables, Finset.mem_filter, Finset.mem_filter, Finset.mem_range, Finset.mem_range]
  decide

/-- The call maps two user pages to one physical page, and returns -1. -/
theorem stray_exec {s₀ s₁ : Kernel} {n : Word} {page : Frame → Page}
    (h : Ready s₀ s₁ s p n page f) :
    ∃ t, s.exec strayWorld p [7] [strayArg] = some (-1, t) ∧
      s.Step strayWorld (.exec p [7] [strayArg]) t ∧ (t.task p).state = .RUNNABLE ∧
      (t.cr3 p).get 2046 = some ⟨0x7070, true, true⟩ ∧
      (t.cr3 p).get 2047 = some ⟨0x7070, true, true⟩ := by
  have hs := h.stored.spacious
  have hlive : (s.task p).Live := Or.inr (Or.inl hs.live)
  have hroom : 1029 ≤ s.mem.freelist.length := by
    have := hs.room
    rw [strayMemory, length_freerange] at this
    omega
  have hlen : strayArg.length = 0x2802007 := List.length_replicate
  obtain ⟨t, hexec, htask⟩ := @exec_stray _ _ _ _ _ 0xfd7ff 0xff8 [7] strayArg ⟨0, 0, 0⟩ 2 strayWorld_in (h.stored.owned.held hlive.used) hroom rfl
    (hs.locks 2) (by rfl) rfl h.names ⟨_, h.table⟩ (by decide) (by decide) stray_below (by decide)
    (by rw [hlen]; decide) stray_tables.1 stray_tables.2
  have hbytes : (strayArg ++ [0]).take (PGSIZE - 0xff8) = List.replicate 8 7 := by
    rw [List.take_append_of_le_length (by rw [hlen]; decide), strayArg, List.take_replicate]
    rfl
  have hcr3 : t.cr3 p = (s.cr3 p).poke f 0xff8 (List.replicate 8 7) := by
    rw [Kernel.cr3, htask, ← hbytes]
    rfl
  refine ⟨t, hexec, ⟨fun q hq => ?_, fun q path argv he => ?_, fun q page he => by simp at he, ?_⟩,
    ?_, ?_, ?_⟩
  · obtain rfl := Option.some.inj hq
    exact hlive
  · obtain ⟨rfl, rfl, rfl⟩ : p = q ∧ [7] = path ∧ [strayArg] = argv := by simpa using he
    intro str hstr
    rcases List.mem_cons.mp hstr with rfl | hstr
    · exact stray_fetched (a := 0x2803006) (n := 1) h.stored (by decide) (by decide)
    · obtain rfl := List.mem_singleton.mp hstr
      exact stray_fetched (a := 0x1000) h.stored (by decide) (by decide)
  · rw [Kernel.call, hexec]
    rfl
  · rw [htask]
    exact hs.live
  · rw [hcr3, get_poke h.table (by decide) (by decide)]
    decide
  · rw [hcr3, get_poke h.table (by decide) (by decide)]
    decide

end

end Xv6.Memory
