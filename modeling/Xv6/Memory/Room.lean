import Xv6.Memory.Isolation

/-! @src vm.c proc.c | name:Enough pages | layer:proof

    With enough free pages no call that takes them fails: two for each user page, one for the page
    directory and at most 1024 for the page tables of the kernel. The kernel mappings are then the
    ones of `kmap`, and a mapping that is there is not changed by adding others. -/

namespace Xv6.Memory
open Xv6.Schemes
open Xv6.Schemes.X86 (Word)
open Xv6.Process (NPROC Slot ProcState Trapframe)

section

variable {m m₁ : Phys} {d d₁ : Pgdir} {O : Set Frame} {f : Frame} {v n x : ℕ} {w u b : Bool}
  {e : Pte}

/-! ### Mappings that are there -/

theorem get_walkpgdir (h : walkpgdir m d v true = some (m₁, d₁)) : d₁.get x = d.get x := by
  unfold walkpgdir at h
  cases hp : d.pde (PDX v) with
  | some t =>
    rw [hp] at h
    obtain ⟨-, rfl⟩ := Prod.mk.inj (Option.some.inj h)
    rfl
  | none =>
    cases hk : kalloc m with
    | none => simp [hp, hk] at h
    | some y =>
      obtain ⟨f, m₀⟩ := y
      simp only [hp, hk, if_true] at h
      obtain ⟨-, rfl⟩ := Prod.mk.inj (Option.some.inj h)
      exact get_addTable hp x

/-- `mappages` does not change a mapping: it panics. -/
theorem mappages_keeps (h : mappages w u n v f m d = some (b, m₁, d₁)) (he : d.get x = some e) :
    d₁.get x = some e := by
  induction n generalizing v f m d with
  | zero =>
    obtain ⟨-, -, rfl⟩ : true = b ∧ m = m₁ ∧ d = d₁ := by simpa [mappages] using h
    exact he
  | succ n ih =>
    rw [mappages] at h
    cases hw : walkpgdir m d v true with
    | none =>
      obtain ⟨-, -, rfl⟩ : false = b ∧ m = m₁ ∧ d = d₁ := by simpa [hw] using h
      exact he
    | some y =>
      obtain ⟨m₀, d₀⟩ := y
      simp only [hw] at h
      cases hg : d₀.get v with
      | some _ => simp [hg] at h
      | none =>
        simp only [hg] at h
        refine ih h ?_
        have hx : d₀.get x = some e := (get_walkpgdir hw).trans he
        have hne : x ≠ v := by
          rintro rfl
          exact absurd (hg.symm.trans hx) (by simp)
        rw [get_set (walkpgdir_pde hw), if_neg hne, hx]

/-- The pages that `mappages` has mapped. -/
theorem mappages_get (h : mappages w u n v f m d = some (true, m₁, d₁)) {i : ℕ} (hi : i < n) :
    d₁.get (v + i) = some ⟨f + i, w, u⟩ := by
  induction n generalizing v f m d i with
  | zero => omega
  | succ n ih =>
    rw [mappages] at h
    cases hw : walkpgdir m d v true with
    | none => simp [hw] at h
    | some y =>
      obtain ⟨m₀, d₀⟩ := y
      simp only [hw] at h
      cases hg : d₀.get v with
      | some _ => simp [hg] at h
      | none =>
        simp only [hg] at h
        cases i with
        | zero => exact mappages_keeps h (by rw [get_set (walkpgdir_pde hw)]; simp)
        | succ i =>
          have := ih h (i := i) (by omega)
          rwa [Nat.add_right_comm v, Nat.add_assoc v, Nat.add_right_comm f, Nat.add_assoc f] at this

theorem mapKernel_keeps {ks : List Kmap} (h : mapKernel ks m d = some (b, m₁, d₁))
    (he : d.get x = some e) : d₁.get x = some e := by
  induction ks generalizing m d with
  | nil =>
    obtain ⟨-, -, rfl⟩ : true = b ∧ m = m₁ ∧ d = d₁ := by simpa [mapKernel] using h
    exact he
  | cons k ks ih =>
    rw [mapKernel] at h
    split at h
    · rename_i hm
      exact ih h (mappages_keeps hm he)
    · exact mappages_keeps h he

theorem mapKernel_get {ks : List Kmap} (h : mapKernel ks m d = some (true, m₁, d₁)) {k : Kmap}
    (hk : k ∈ ks) {i : ℕ} (hi : i < k.n) : d₁.get (k.v + i) = some ⟨k.pa + i, k.w, false⟩ := by
  induction ks generalizing m d with
  | nil => exact absurd hk List.not_mem_nil
  | cons k' ks ih =>
    rw [mapKernel] at h
    split at h
    · rename_i hm
      rcases List.mem_cons.mp hk with rfl | hk
      · exact mapKernel_keeps h (mappages_get hm hi)
      · exact ih h hk
    · rename_i hno
      exact absurd h (by simpa using hno m₁ d₁)

/-- The mappings of `kmap` are in every page directory. -/
theorem setupkvm_get {kmap : List Kmap} (h : setupkvm kmap m = some (some d, m₁)) {k : Kmap}
    (hk : k ∈ kmap) {i : ℕ} (hi : i < k.n) : d.get (k.v + i) = some ⟨k.pa + i, k.w, false⟩ := by
  unfold setupkvm at h
  cases hka : kalloc m with
  | none => simp [hka] at h
  | some y =>
    obtain ⟨f, m₀⟩ := y
    simp only [hka] at h
    split at h
    · exact absurd h (by simp)
    · rename_i hmap
      obtain ⟨rfl, rfl⟩ : _ = d ∧ _ = m₁ := by simpa using h
      exact mapKernel_get hmap hk hi
    · exact absurd h (by simp)

/-! ### Enough pages -/

theorem setupkvm_room {kmap : List Kmap} (hk : KmapIn kmap) (h : Clean m O)
    (hroom : 1025 ≤ m.freelist.length) :
    ∃ d m₁, setupkvm kmap m = some (some d, m₁) ∧
      m.freelist.length ≤ m₁.freelist.length + 1025 := by
  obtain ⟨r, m₁, hs, hsome, hnone⟩ := setupkvm_count hk h
  have hcard : (kernelTables kmap).card ≤ NPDENTRIES :=
    (Finset.card_filter_le _ _).trans (Finset.card_range _).le
  have hN : NPDENTRIES = 1024 := rfl
  cases r with
  | none =>
    have := hnone rfl
    omega
  | some d =>
    obtain ⟨-, hlen⟩ := hsome d rfl
    exact ⟨d, m₁, hs, by omega⟩

theorem walkpgdir_room (h : walkpgdir m d v true = some (m₁, d₁)) :
    m.freelist.length ≤ m₁.freelist.length + 1 := by
  unfold walkpgdir at h
  cases hp : d.pde (PDX v) with
  | some t =>
    rw [hp] at h
    obtain ⟨rfl, -⟩ := Prod.mk.inj (Option.some.inj h)
    omega
  | none =>
    cases hk : kalloc m with
    | none => simp [hp, hk] at h
    | some y =>
      obtain ⟨f, m₀⟩ := y
      simp only [hp, hk, if_true] at h
      obtain ⟨rfl, -⟩ := Prod.mk.inj (Option.some.inj h)
      have := length_kalloc hk
      change _ ≤ m₀.freelist.length + 1
      omega

/-- A page and its page table. -/
theorem mappages_room (h : mappages w u 1 v f m d = some (b, m₁, d₁))
    (hroom : 1 ≤ m.freelist.length) :
    b = true ∧ m.freelist.length ≤ m₁.freelist.length + 1 := by
  rw [mappages] at h
  cases hw : walkpgdir m d v true with
  | none =>
    have := (walkpgdir_none hw).1
    rw [this] at hroom
    exact absurd hroom (by simp)
  | some y =>
    obtain ⟨m₀, d₀⟩ := y
    simp only [hw] at h
    cases hg : d₀.get v with
    | some _ => simp [hg] at h
    | none =>
      obtain ⟨rfl, rfl, -⟩ : true = b ∧ m₀ = m₁ ∧ _ = d₁ := by simpa [hg, mappages] using h
      exact ⟨rfl, walkpgdir_room hw⟩

/-- The loop of `allocuvm` up to the page `hi`. -/
theorem allocLoop_room {newsz : Word} {hi fuel : ℕ} {r : AllocEnd}
    (hsz : newsz.toNat ≤ hi * PGSIZE) (hroom : 2 * (hi - v) ≤ m.freelist.length)
    (h : allocLoop newsz fuel v m d = some (r, m₁, d₁)) :
    r = .through ∧ m.freelist.length ≤ m₁.freelist.length + 2 * (hi - v) := by
  induction fuel generalizing v m d with
  | zero =>
    obtain ⟨rfl, rfl, -⟩ : AllocEnd.through = r ∧ m = m₁ ∧ d = d₁ := by
      simpa [allocLoop] using h
    exact ⟨rfl, by omega⟩
  | succ fuel ih =>
    rw [allocLoop] at h
    split at h
    · rename_i hv
      have hlt : v < hi := Nat.lt_of_mul_lt_mul_right (hv.trans_le hsz)
      cases hk : kalloc m with
      | none =>
        rw [kalloc_none hk] at hroom
        have : 2 * (hi - v) ≤ 0 := hroom
        omega
      | some y =>
        obtain ⟨mem, m₀⟩ := y
        have hlen := length_kalloc hk
        have hroom₀ : 1 ≤ (m₀.memset mem 0).freelist.length := by
          change 1 ≤ m₀.freelist.length
          omega
        simp only [hk] at h
        cases hmap : mappages true true 1 v mem (m₀.memset mem 0) d with
        | none =>
          rw [hmap] at h
          exact absurd h (by simp)
        | some z =>
          obtain ⟨b, m₂, d₂⟩ := z
          obtain ⟨rfl, hlen₂⟩ := mappages_room hmap hroom₀
          change m₀.freelist.length ≤ _ at hlen₂
          simp only [hmap] at h
          obtain ⟨hr, hlen₃⟩ := ih (by omega) h
          exact ⟨hr, by omega⟩
    · obtain ⟨rfl, rfl, -⟩ : AllocEnd.through = r ∧ m = m₁ ∧ d = d₁ := by simpa using h
      exact ⟨rfl, by omega⟩

/-- User pages need no page table of the kernel half. -/
theorem upper_allocLoop {newsz : Word} (hmax : newsz ≤ KERNBASE) {fuel i : ℕ} {r : AllocEnd}
    (hi : 512 ≤ i) (h : allocLoop newsz fuel v m d = some (r, m₁, d₁)) (hin : i ∈ d₁.tables) :
    i ∈ d.tables := by
  induction fuel generalizing v m d with
  | zero =>
    obtain ⟨-, -, rfl⟩ : AllocEnd.through = r ∧ m = m₁ ∧ d = d₁ := by simpa [allocLoop] using h
    exact hin
  | succ fuel ih =>
    rw [allocLoop] at h
    split at h
    · rename_i hv
      have hu : v < 524288 := lt_UPAGES hmax hv
      cases hk : kalloc m with
      | none =>
        obtain ⟨-, -, rfl⟩ : AllocEnd.noPage = r ∧ m = m₁ ∧ d = d₁ := by simpa [hk] using h
        exact hin
      | some y =>
        obtain ⟨mem, m₀⟩ := y
        simp only [hk] at h
        cases hmap : mappages true true 1 v mem (m₀.memset mem 0) d with
        | none =>
          rw [hmap] at h
          exact absurd h (by simp)
        | some z =>
          obtain ⟨b, m₂, d₂⟩ := z
          have hback : i ∈ d₂.tables → i ∈ d.tables := fun hin₂ => by
            rcases (tables_mappages hmap).1 hin₂ with hd | ⟨x, hx, hx', hpdx⟩
            · exact hd
            · have : x / 1024 = i := hpdx
              omega
          simp only [hmap] at h
          cases b with
          | true => exact hback (ih h)
          | false =>
            obtain ⟨-, -, rfl⟩ : AllocEnd.noTable mem = r ∧ m₂ = m₁ ∧ d₂ = d₁ := by simpa using h
            exact hback hin
    · obtain ⟨-, -, rfl⟩ : AllocEnd.through = r ∧ m = m₁ ∧ d = d₁ := by simpa using h
      exact hin

/-- `allocuvm` up to the page `hi` does not fail. -/
theorem allocuvm_room {oldsz newsz sz : Word} {hi : ℕ} (hsmall : newsz < KERNBASE)
    (hup : oldsz ≤ newsz) (hsz : newsz.toNat ≤ hi * PGSIZE)
    (hroom : 2 * (hi - pageUp oldsz) ≤ m.freelist.length)
    (h : allocuvm m d oldsz newsz = some (sz, m₁, d₁)) :
    sz = newsz ∧ m.freelist.length ≤ m₁.freelist.length + 2 * (hi - pageUp oldsz) ∧
      ∀ i, 512 ≤ i → i ∈ d₁.tables → i ∈ d.tables := by
  rw [allocuvm, if_neg (BitVec.not_le.mpr hsmall), if_neg (BitVec.not_lt.mpr hup)] at h
  cases hl : allocLoop newsz NPAGES (pageUp oldsz) m d with
  | none => simp [hl] at h
  | some y =>
    obtain ⟨r, m₂, d₂⟩ := y
    obtain ⟨rfl, hlen⟩ := allocLoop_room hsz hroom hl
    obtain ⟨rfl, rfl, rfl⟩ : newsz = sz ∧ m₂ = m₁ ∧ d₂ = d₁ := by simpa [hl] using h
    exact ⟨rfl, hlen, fun i hi => upper_allocLoop (BitVec.le_of_lt hsmall) hi hl⟩

end

/-! ### The first process -/

/-- The kernel with its first process, in the memory `m`. -/
structure Booted (w : World) (m : Phys) (s : Kernel) (p : Slot) : Prop where
  live : (s.task p).state = .RUNNABLE
  idle : ∀ q, q ≠ p → (s.task q).state = .UNUSED
  size : (s.task p).image.sz = BitVec.ofNat 32 PGSIZE
  dense : Dense (s.task p).image
  user : ∃ f, (s.cr3 p).get 0 = some ⟨f, true, true⟩
  kernel : ∀ k ∈ w.kmap, ∀ i < k.n, (s.cr3 p).get (k.v + i) = some ⟨k.pa + i, k.w, false⟩
  stock : stock s.mem (s.cr3 p) ⊆ m.frees
  room : m.freelist.length ≤ s.mem.freelist.length + 1028
  locks : ∀ ip, s.ilocked ip = false

/-- `userinit` makes the first process if there are 1028 pages. -/
theorem userinit_room {w : World} {m : Phys} (code : List Byte) (hk : KmapIn w.kmap)
    (hm : m.freelist.Nodup) (hroom : 1028 ≤ m.freelist.length)
    (hroot : (w.namei none [0x2f]).isSome) :
    ∃ s p, Kernel.userinit w m code = some s ∧ Booted w m s p := by
  have hroom₀ : 1028 ≤ (Kernel.empty m).mem.freelist.length := hroom
  rcases allocproc_cases (.empty m) with ⟨hnone, -⟩ | ⟨p, hp, ⟨hno, -⟩ | ⟨f, m₀, hka, ha⟩⟩
  · exact absurd rfl (hnone 0)
  · rw [hno] at hroom₀
    exact absurd hroom₀ (by simp)
  · have hlen := length_kalloc hka
    obtain ⟨hclean, -, -⟩ := kalloc_clean (owned_empty hm).clean hka
    obtain ⟨d, m₁, hs, hlen₁⟩ := setupkvm_room hk hclean (by omega)
    obtain ⟨x, m₁', hs', hb⟩ := setupkvm_spec hk.toKmapOk hclean
    obtain ⟨rfl, rfl⟩ := Prod.mk.inj (Option.some.inj (hs.symm.trans hs'))
    obtain ⟨hheld, -, hempty⟩ := hb
    obtain ⟨hstock, -⟩ := (stock_setupkvm hk hclean hs).1 d rfl
    cases hmem : kalloc m₁ with
    | none =>
      rw [kalloc_none hmem] at hlen₁
      have : m₀.freelist.length ≤ 1025 := hlen₁
      omega
    | some y =>
      obtain ⟨mem, m₂⟩ := y
      have hlen₂ := length_kalloc hmem
      obtain ⟨h₂, hf, -⟩ := kalloc_scratch (V := ∅) (m₂.memset mem 0) hheld hmem rfl
        fun g hg => memset_page hg
      rcases mappages_user (w := true) (u := true) h₂ hf (by decide : 0 < UPAGES)
        (hempty 0 (by decide)) with hmap | ⟨m₃, d₃, hmap, -, hev, hget, -⟩
      · have hroom₂ : 1 ≤ (m₂.memset mem 0).freelist.length := by
          change 1 ≤ m₂.freelist.length
          omega
        exact absurd (mappages_room hmap hroom₂).1 (by decide)
      · obtain ⟨root, hroot⟩ := Option.isSome_iff_exists.mp hroot
        obtain ⟨-, hlen₃⟩ := mappages_room hmap (by
          change 1 ≤ m₂.freelist.length
          omega)
        change m₂.freelist.length ≤ _ at hlen₃
        rcases stock_mappages (by decide) hmap with ⟨-, hstock₃⟩ | ⟨hb, -⟩
        swap
        · exact absurd hb (by decide)
        refine ⟨_, p, by simp only [Kernel.userinit, ha, hs, hmem, hmap, hroot, Option.map_some]; rfl,
          ?_⟩
        refine ⟨?_, fun q hq => ?_, ?_, ?_, ⟨mem, ?_⟩, fun k hk' i hi => ?_, ?_, ?_, fun _ => rfl⟩
        · simp [Kernel.setTask]
        · simp [Kernel.setTask, Kernel.idup, hq, Kernel.empty, Kernel.unused]
        · simp [Kernel.setTask]
        · simpa [Kernel.setTask] using Dense.of_first hget rfl
            fun v hv hne => (hev.same v hne).trans (hempty v hv)
        · simpa [Kernel.setTask, Kernel.cr3] using hget
        · simpa [Kernel.setTask, Kernel.cr3] using mappages_keeps hmap (setupkvm_get hs hk' hi)
        · simp only [Kernel.setTask, Kernel.cr3, Function.update_self]
          change stock m₃ d₃ ⊆ (Kernel.empty m).mem.frees
          rw [hstock₃, frees_kalloc hka, ← hstock]
          have hback : insert mem (stock (m₂.memset mem 0) d) = stock m₁ d := by
            rw [stock, stock, frees_kalloc hmem, Set.insert_union]
            rfl
          rw [hback]
          exact Set.subset_insert _ _
        · change (Kernel.empty m).mem.freelist.length ≤ m₃.freelist.length + 1028
          omega

/-- A kernel with a process of `hi` pages, in the memory `m`. -/
structure Spacious (w : World) (m : Phys) (s : Kernel) (p : Slot) (hi : ℕ) : Prop where
  live : (s.task p).state = .RUNNABLE
  size : (s.task p).image.sz.toNat = hi * PGSIZE
  user : ∀ v < hi, ∃ f, (s.cr3 p).get v = some ⟨f, true, true⟩
  kernel : ∀ k ∈ w.kmap, ∀ i < k.n, (s.cr3 p).get (k.v + i) = some ⟨k.pa + i, k.w, false⟩
  stock : stock s.mem (s.cr3 p) ⊆ m.frees
  room : m.freelist.length ≤ s.mem.freelist.length + 1028 + 2 * hi
  locks : ∀ ip, s.ilocked ip = false

/-- The first process gets as many pages as there are. -/
theorem growproc_room {w : World} {m : Phys} {s : Kernel} {p : Slot} {hi : ℕ} {n : Word}
    (hk : KmapIn w.kmap) (hb : Booted w m s p) (h : Owned s) (hpos : 0 < n.toInt)
    (hhi : hi < UPAGES) (h1 : 0 < hi) (hn : BitVec.ofNat 32 PGSIZE + n = BitVec.ofNat 32 (hi * PGSIZE))
    (hroom : 1028 + 2 * hi ≤ m.freelist.length) :
    ∃ t, s.Step w (.growproc p n) t ∧ Spacious w m t p hi := by
  have hlive : (s.task p).Live := Or.inr (Or.inl hb.live)
  have hheld := h.held hlive.used
  have hroom₀ := hb.room
  have hhi' : hi < 0x80000 := hhi
  have hP : PGSIZE = 4096 := rfl
  have hone : BitVec.ofNat 32 PGSIZE ≤ KERNBASE := by decide
  have hsz : (BitVec.ofNat 32 (hi * PGSIZE)).toNat = hi * 4096 := by
    rw [hP, BitVec.toNat_ofNat]
    omega
  have hsmall : BitVec.ofNat 32 (hi * PGSIZE) < KERNBASE := by
    have hK : KERNBASE.toNat = 0x80000000 := rfl
    rw [BitVec.lt_def, hsz, hK]
    omega
  have hup : pageUp (BitVec.ofNat 32 PGSIZE) = 1 := by decide
  have hfirst : (BitVec.ofNat 32 PGSIZE).toNat = 4096 := by decide
  have hle : BitVec.ofNat 32 PGSIZE ≤ BitVec.ofNat 32 (hi * PGSIZE) := by
    rw [BitVec.le_def, hsz, hfirst]
    omega
  have hne : BitVec.ofNat 32 (hi * PGSIZE) ≠ 0 := by
    intro he
    rw [he] at hsz
    have : 0 = hi * 4096 := hsz
    omega
  obtain ⟨f₀, hf₀⟩ := hb.user
  have hfull : Full (s.cr3 p) (BitVec.ofNat 32 PGSIZE) := hb.size ▸ hb.dense.full
  obtain ⟨sz, m₁, d₁, ha, h₁, hr⟩ := allocuvm_spec (BitVec.ofNat 32 (hi * PGSIZE)) hheld hone hfull
  obtain ⟨rfl, hlen, -⟩ := allocuvm_room hsmall hle (by rw [hsz, hP] : _ ≤ hi * PGSIZE)
    (by rw [hup]; omega) ha
  obtain ⟨hstock, -⟩ := stock_allocuvm hheld hone hfull ha
  rcases hr with ⟨hz, -⟩ | ⟨-, hlt, -⟩ | ⟨-, -, -, hev, hnew⟩
  · exact absurd hz hne
  · exact absurd hle (BitVec.not_le.mpr hlt)
  have hgrow : growproc s.mem (s.task p).image n =
      some (0, m₁, ⟨d₁, BitVec.ofNat 32 (hi * PGSIZE)⟩) := by
    have ha' : allocuvm s.mem (s.task p).image.pgdir (s.task p).image.sz
        ((s.task p).image.sz + n) = some (BitVec.ofNat 32 (hi * PGSIZE), m₁, d₁) := by
      rw [hb.size, hn]
      exact ha
    rw [growproc, if_pos hpos]
    simp only [ha', hne, if_false]
  have hsame : ∀ v, v * PGSIZE < 4096 ∨ hi ≤ v → d₁.get v = (s.cr3 p).get v := fun v hv =>
    hev.same v fun h => by
      obtain ⟨hlo, hlim⟩ := h
      rw [hup] at hlo
      rw [hsz] at hlim
      rw [hP] at hv hlim
      omega
  have hcall : s.call w (.growproc p n) = some ({ s with mem := m₁ }.setTask p fun x =>
      { x with image := ⟨d₁, BitVec.ofNat 32 (hi * PGSIZE)⟩ }) := by
    simp only [Kernel.call, hgrow, Option.map_some]
  refine ⟨_, ⟨fun q hq => ?_, fun q path argv he => by simp at he, fun q page he => by simp at he,
    hcall⟩, ?_⟩
  · obtain rfl := Option.some.inj hq
    exact hlive
  · refine ⟨?_, ?_, fun v hv => ?_, fun k hk' i hi' => ?_, ?_, ?_, hb.locks⟩
    · simpa [Kernel.setTask] using hb.live
    · simpa [Kernel.setTask] using hsz
    · simp only [Kernel.cr3, Kernel.setTask, Function.update_self]
      rcases Nat.eq_zero_or_pos v with rfl | hpos
      · exact ⟨f₀, (hsame 0 (Or.inl (by decide))).trans hf₀⟩
      · obtain ⟨f, hf, -⟩ := hnew v ⟨hup.symm ▸ hpos, by rw [hsz, hP]; omega⟩
        exact ⟨f, hf⟩
    · have habove := hk.above k hk'
      simp only [Kernel.cr3, Kernel.setTask, Function.update_self]
      exact (hsame _ (Or.inr (by omega))).trans (hb.kernel k hk' i hi')
    · simp only [Kernel.cr3, Kernel.setTask, Function.update_self]
      exact hstock.le.trans hb.stock
    · change m.freelist.length ≤ m₁.freelist.length + 1028 + 2 * hi
      rw [hup] at hlen
      omega

open Classical in
/-- User code can store anything in its memory. -/
theorem user_stores {w : World} {m : Phys} {s : Kernel} {p : Slot} {hi : ℕ}
    (hs : Spacious w m s p hi) (h : Owned s) (hhi : hi ≤ UPAGES) (c : ℕ → Byte) :
    ∃ page t, s.Step w (.user p page) t ∧ Spacious w m t p hi ∧
      ∀ a : Word, a.toNat < hi * PGSIZE → load t.mem (t.cr3 p) a = some (c a.toNat) := by
  have hlive : (s.task p).Live := Or.inr (Or.inl hs.live)
  have hheld := h.held hlive.used
  let page : Frame → Page := fun f =>
    if hf : ∃ v < hi, (s.cr3 p).get v = some ⟨f, true, true⟩ then
      fun o => c (hf.choose * PGSIZE + o)
    else s.mem.page f
  have hpage : ∀ v < hi, ∀ f, (s.cr3 p).get v = some ⟨f, true, true⟩ →
      page f = fun o => c (v * PGSIZE + o) := by
    intro v hv f hget
    have hf : ∃ v < hi, (s.cr3 p).get v = some ⟨f, true, true⟩ := ⟨v, hv, hget⟩
    obtain ⟨hlt, hget'⟩ := hf.choose_spec
    have hsame : hf.choose = v := by
      have := hheld.owns.inj _ _ f (hheld.page (hlt.trans_le hhi) hget').1
        (hheld.page (hv.trans_le hhi) hget).1
      exact Part.page.inj this
    simp only [page, dif_pos hf, hsame]
  refine ⟨page, _, ⟨fun q hq => ?_, fun q path argv he => by simp at he, fun q page' he => ?_, rfl⟩,
    ⟨hs.live, hs.size, hs.user, hs.kernel, hs.stock, hs.room, hs.locks⟩, fun a ha => ?_⟩
  · obtain rfl := Option.some.inj hq
    exact hlive
  · obtain ⟨rfl, rfl⟩ : p = q ∧ page = page' := by simpa using he
    intro f hno
    have hf : ¬ ∃ v < hi, (s.cr3 p).get v = some ⟨f, true, true⟩ := by
      rintro ⟨v, -, hget⟩
      exact hno v _ hget rfl ⟨rfl, rfl⟩
    simp only [page, dif_neg hf]
  · have hv : a.toNat / PGSIZE < hi := (Nat.div_lt_iff_lt_mul (by decide)).mpr ha
    obtain ⟨f, hf⟩ := hs.user _ hv
    have hf' : (s.cr3 p).get (a.toNat / PGSIZE) = some ⟨f, true, true⟩ := hf
    change ((s.cr3 p).get (a.toNat / PGSIZE)).map (fun e => page e.frame (a.toNat % PGSIZE)) = _
    rw [hf', Option.map_some, hpage _ hv f hf']
    simp only [Nat.div_add_mod']

end Xv6.Memory
