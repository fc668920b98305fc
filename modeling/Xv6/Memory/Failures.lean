import Xv6.Memory.Stray

/-! @src proc.c exec.c vm.c kalloc.c | name:What calls leave behind | layer:proof

    In every run in which no `exec` takes the word at address 0 for a page table entry, a physical
    page has one owner, and an `exec` that fails leaves everything as it was. A `fork` that fails
    does too, unless the free pages end after a copy that needs a page table. -/

namespace Xv6.Memory
open Xv6.Schemes
open Xv6.Schemes.X86 (Word)
open Xv6.Process (NPROC Slot ProcState Trapframe)

/-! ### One owner -/

/-- A page is free, once, or has one owner; a pipe that a file refers to is there; and what a
    process can reach in user mode are its own user pages. -/
structure OneOwner (s : Kernel) : Prop where
  nodup : s.mem.freelist.Nodup
  used : ∀ o f, s.holds o = some f → f ∉ s.mem.freelist
  one : ∀ o o' f, s.holds o = some f → s.holds o' = some f → o = o'
  pipes : ∀ i f b, (s.file i).type = .pipe f b → (s.pipe f).isSome
  isolated : ∀ p v e, (s.task p).state ≠ .UNUSED → (s.cr3 p).get v = some e → e.u = true →
    s.holds (.part p (.page v)) = some e.frame

section

variable {w : World} {m₀ : Phys} {code : List Byte} {s₀ s t u : Kernel} {p : Slot}
  {l : List (Kernel × Call)}

/-- A page that user code reaches is a user page of its process. -/
theorem holds_user (hu : (s.task p).state ≠ .UNUSED) {v : ℕ} {e : Pte} (hv : v < UPAGES)
    (he : (s.cr3 p).get v = some e) : s.holds (.part p (.page v)) = some e.frame := by
  simp [Kernel.holds, hu, Pgdir.holds, hv, he]

theorem Owned.oneOwner (h : Owned s) : OneOwner s where
  nodup := h.nodup
  used := h.owns.used
  one := h.owns.inj
  pipes := fun i f b hi => by
    obtain ⟨x, hx, -⟩ := h.files.end_ i f b hi
    simp [hx]
  isolated := fun p v e hu he heu => by
    refine holds_user hu (not_le.mp fun hv => ?_) he
    exact absurd heu (by simp [h.kernel p hu v hv e he])

/-- In every run from boot in which no `exec` takes the word at address 0 for a page table entry,
    physical pages have one owner at every step. -/
theorem one_owner (hk : KmapIn w.kmap) (hm : m₀.freelist.Nodup)
    (hboot : Kernel.userinit w m₀ code = some s₀) (hrun : Run (Kernel.Step w) s₀ l u)
    (htidy : Along (TidyCalls w) l) : Throughout OneOwner l u :=
  (hrun.invariant (I := Owned) (C := TidyCalls w) (fun _ _ _ h hC => owned_step hk h hC)
    (owned_userinit hk hm hboot) htidy).mono fun _ h => h.oneOwner

/-- The first process grows and stores into its memory. -/
theorem one_owner_stored : ∃ s₀ l u, Kernel.userinit strayWorld strayMemory [] = some s₀ ∧
    Run (Kernel.Step strayWorld) s₀ l u ∧ l ≠ [] ∧ Throughout OneOwner l u := by
  obtain ⟨s₀, s₁, s₂, p, page, f, h⟩ := stray_ready
  have hrun := Run.cons h.grow (.cons h.store (.nil s₂))
  refine ⟨s₀, _, s₂, h.boot, hrun, List.cons_ne_nil _ _,
    one_owner strayWorld_in (nodup_freerange _ _) h.boot hrun ?_⟩
  intro x hx
  rcases List.mem_cons.mp hx with rfl | hx
  · exact fun _ _ _ he => by simp at he
  · obtain rfl := List.mem_singleton.mp hx
    exact fun _ _ _ he => by simp at he

/-- After an `exec` with a word like an entry at address 0, and an argument that wraps around, two
    user pages of the caller are one physical page. -/
theorem exec_two_owners : ¬ ∀ w m₀ code s₀ l u, KmapIn w.kmap → m₀.freelist.Nodup →
    Kernel.userinit w m₀ code = some s₀ → Run (Kernel.Step w) s₀ l u →
      Throughout OneOwner l u := by
  intro hall
  obtain ⟨s₀, s₁, s₂, p, page, f, h⟩ := stray_ready
  obtain ⟨t, -, hstep, hlive, he, he'⟩ := stray_exec h
  have hrun := Run.cons h.grow (.cons h.store (.cons hstep (.nil t)))
  have howner := (hall _ _ _ _ _ _ strayWorld_in (nodup_freerange _ _) h.boot hrun).2
  have hused : (t.task p).state ≠ .UNUSED := by simp [hlive]
  have hone := howner.one _ _ _ (holds_user hused (by decide) he) (holds_user hused (by decide) he')
  exact absurd (Part.page.inj (Owner.part.inj hone).2) (by decide)

/-! ### exec -/

/-- The old program is intact, and nothing else has changed in the kernel but the contents of free
    pages. -/
structure Intact (s t : Kernel) (p : Slot) : Prop where
  task : t.task = s.task
  memory : ∀ v e, v < UPAGES → (s.cr3 p).get v = some e → t.mem.page e.frame = s.mem.page e.frame
  free : t.mem.frees = s.mem.frees
  files : t.file = s.file
  locks : t.ilocked = s.ilocked
  inodes : t.iref = s.iref
  ops : t.ops = s.ops

/-- An `exec` that fails leaves the old program intact. -/
def ExecIntact (w : World) (s : Kernel) (a : Call) : Prop :=
  ∀ p path argv t, a = .exec p path argv → s.exec w p path argv = some (-1, t) → Intact s t p

/-- A `fork` that fails leaves no trace in memory. -/
def ForkTraceless (w : World) (s : Kernel) (a : Call) : Prop :=
  ∀ p t, a = .fork p → s.fork w p = some (-1, t) → NoTrace s t p

/-- The free pages do not end, in a `fork`, after a copy that needs a page table. -/
def KeepsPages (w : World) (s : Kernel) (a : Call) : Prop := ∀ p, a = .fork p → ¬ LosesPage w s p

/-- A `fork` that loses a page returns -1. -/
theorem LosesPage.fails {ret : ℤ} (hk : KmapIn w.kmap) (h : Owned s)
    (hp : (s.task p).state ≠ .UNUSED) (hl : LosesPage w s p) (hf : s.fork w p = some (ret, t)) :
    ret = -1 := by
  have hsz := BitVec.le_of_lt (h.small p hp)
  rcases allocproc_cases s with ⟨-, ha⟩ | ⟨np, hnp, ⟨-, ha⟩ | ⟨f, m₀, hka, ha⟩⟩
  · simp only [Kernel.fork, ha] at hf
    exact (Prod.mk.inj (Option.some.inj hf)).1.symm
  · simp only [Kernel.fork, ha] at hf
    exact (Prod.mk.inj (Option.some.inj hf)).1.symm
  · have hne : p ≠ np := fun he => hp (he ▸ hnp)
    obtain ⟨hclean, -, -⟩ := kalloc_clean h.clean hka
    have hlen := length_kalloc hka
    simp only [Kernel.fork, ha, Function.update_of_ne hne] at hf
    split at hf
    · exact absurd hf (by simp)
    · exact (Prod.mk.inj (Option.some.inj hf)).1.symm
    · rename_i d m₁ hcopy
      obtain ⟨-, hsome, -⟩ := copyuvm_lost hk hclean hsz hcopy
      obtain ⟨-, j, hj, hn⟩ := hl
      exact absurd ⟨j, hj, by omega⟩ (hsome d rfl).2

/-- With a dense address space it does return. -/
theorem LosesPage.returns (hk : KmapIn w.kmap) (h : Owned s) (hp : (s.task p).state ≠ .UNUSED)
    (hd : Dense (s.task p).image) (hl : LosesPage w s p) : ∃ t, s.fork w p = some (-1, t) := by
  have hsz := BitVec.le_of_lt (h.small p hp)
  obtain ⟨⟨q, hq⟩, j, hj, hn⟩ := hl
  rcases allocproc_cases s with ⟨hnone, -⟩ | ⟨np, hnp, ⟨hempty, -⟩ | ⟨f, m₀, hka, ha⟩⟩
  · exact absurd hq (hnone q)
  · rw [hempty] at hn
    exact absurd hn (by simp; omega)
  · have hne : p ≠ np := fun he => hp (he ▸ hnp)
    obtain ⟨hclean, -, -⟩ := kalloc_clean h.clean hka
    have hlen := length_kalloc hka
    obtain ⟨r, m₁, hcopy, -⟩ := copyuvm_spec hk.toKmapOk hclean hd fun v e hv he =>
      Set.mem_insert_of_mem f ⟨_, holds_user hp hv he⟩
    cases r with
    | some d =>
      obtain ⟨-, hsome, -⟩ := copyuvm_lost hk hclean hsz hcopy
      exact absurd ⟨j, hj, by omega⟩ (hsome d rfl).2
    | none =>
      simp only [Kernel.fork, ha, Function.update_of_ne hne, hcopy]
      exact ⟨_, rfl⟩

/-- In every run from boot in which no `exec` takes the word at address 0 for a page table entry,
    the forks that fail leave no trace exactly if none of them loses a page. -/
theorem failed_fork_traceless_iff (hk : KmapIn w.kmap) (hm : m₀.freelist.Nodup)
    (hboot : Kernel.userinit w m₀ code = some s₀) (hrun : Run (Kernel.Step w) s₀ l u)
    (htidy : Along (TidyCalls w) l) : Along (ForkTraceless w) l ↔ Along (KeepsPages w) l := by
  have hsteps := hrun.steps (I := Owned) (C := TidyCalls w) (fun _ _ _ h hC => owned_step hk h hC)
    (owned_userinit hk hm hboot) htidy
  constructor
  · rintro hall ⟨s, a⟩ hx p rfl hl
    obtain ⟨h, t, hst⟩ := hsteps _ hx
    have hp := (hst.live p rfl).used
    obtain ⟨⟨ret, t⟩, hf, -⟩ := Option.map_eq_some_iff.mp hst.next
    obtain rfl := hl.fails hk h hp hf
    have := (fork_noTrace_iff hk h.nodup (BitVec.le_of_lt (h.small p hp)) hp hf).mp
      (hall _ hx p t rfl hf)
    exact this hl
  · rintro hall ⟨s, a⟩ hx p t rfl hf
    obtain ⟨h, t', hst⟩ := hsteps _ hx
    have hp := (hst.live p rfl).used
    exact (fork_noTrace_iff hk h.nodup (BitVec.le_of_lt (h.small p hp)) hp hf).mpr
      (hall _ hx p rfl)

/-- The rest of the kernel can take pages until `k` are left. -/
theorem take_until {k : ℕ} (hk : k ≤ s.mem.freelist.length) :
    ∃ l t, Run (Kernel.Step w) s l t ∧ (∀ x ∈ l, x.2 = .take) ∧ t.task = s.task ∧
      t.mem.freelist.length = k := by
  obtain ⟨n, hn⟩ := Nat.exists_eq_add_of_le hk
  induction n generalizing s with
  | zero => exact ⟨[], s, .nil s, fun x hx => absurd hx List.not_mem_nil, rfl, hn⟩
  | succ n ih =>
    cases hka : kalloc s.mem with
    | none =>
      rw [kalloc_none hka, List.length_nil] at hn
      omega
    | some y =>
      obtain ⟨f, m⟩ := y
      have hlen := length_kalloc hka
      obtain ⟨l, t, hrun, hall, htask, hk⟩ := ih (s := { s with mem := m, kept := f :: s.kept })
        (by change k ≤ m.freelist.length; omega) (by change m.freelist.length = k + n; omega)
      refine ⟨(s, .take) :: l, t, .cons ⟨fun p hp => by simp [Call.caller] at hp, ?_, ?_, ?_⟩ hrun,
        fun x hx => ?_, htask, hk⟩
      · exact fun _ _ _ he => by simp at he
      · exact fun _ _ he => by simp at he
      · simp [Kernel.call, hka]
      · rcases List.mem_cons.mp hx with rfl | hx
        · rfl
        · exact hall x hx

/-- The first process forks when as many pages are left as the child needs up to its first page. -/
theorem lossy_fork : ∃ s₀ l s t p, Kernel.userinit strayWorld strayMemory [] = some s₀ ∧
    Run (Kernel.Step strayWorld) s₀ (l ++ [(s, .fork p)]) t ∧
      Along (TidyCalls strayWorld) (l ++ [(s, .fork p)]) ∧ LosesPage strayWorld s p := by
  have hlen : strayMemory.freelist.length = 0x1fc00 := length_freerange _ _
  have hnd : strayMemory.freelist.Nodup := nodup_freerange _ _
  obtain ⟨s₀, p, hboot, hb⟩ := userinit_room [] strayWorld_in hnd (by rw [hlen]; decide) (by rfl)
  have hcard : (kernelTables strayWorld.kmap).card ≤ 1024 :=
    (Finset.card_filter_le _ _).trans (Finset.card_range _).le
  have hroom := hb.room
  obtain ⟨l, s, hrun, htakes, htask, hleft⟩ := take_until (w := strayWorld) (s := s₀)
    (k := 3 + (kernelTables strayWorld.kmap).card) (by omega)
  have htidy : Along (TidyCalls strayWorld) l := fun x hx => by
    rw [htakes x hx]
    exact fun _ _ _ he => by simp at he
  have h := (hrun.invariant (I := Owned) (C := TidyCalls strayWorld)
    (fun _ _ _ h hC => owned_step strayWorld_in h hC) (owned_userinit strayWorld_in hnd hboot)
    htidy).2
  have hlive : (s.task p).Live := Or.inr (Or.inl (htask ▸ hb.live))
  obtain ⟨q, hq⟩ := exists_ne p
  have hloses : LosesPage strayWorld s p := by
    refine ⟨⟨q, by rw [htask]; exact hb.idle q hq⟩, 0, ?_, by omega⟩
    rw [htask, hb.size]
    decide
  obtain ⟨t, hfork⟩ := hloses.returns strayWorld_in h hlive.used (by rw [htask]; exact hb.dense)
  have hstep : s.Step strayWorld (.fork p) t := by
    refine ⟨fun q hq => ?_, fun _ _ _ he => by simp at he, fun _ _ he => by simp at he, ?_⟩
    · obtain rfl := Option.some.inj hq
      exact hlive
    · rw [Kernel.call, hfork]
      rfl
  refine ⟨s₀, l, s, t, p, hboot, hrun.append (.cons hstep (.nil t)), fun x hx => ?_, hloses⟩
  rcases List.mem_append.mp hx with hx | hx
  · exact htidy x hx
  · obtain rfl := List.mem_singleton.mp hx
    exact fun _ _ _ he => by simp at he

/-- A run in which a fork loses a page. -/
theorem failed_fork_traceless_lossy : ∃ s₀ l u, Kernel.userinit strayWorld strayMemory [] = some s₀ ∧
    Run (Kernel.Step strayWorld) s₀ l u ∧ ¬ Along (KeepsPages strayWorld) l ∧
      (Along (ForkTraceless strayWorld) l ↔ Along (KeepsPages strayWorld) l) := by
  obtain ⟨s₀, l, s, t, p, hboot, hrun, htidy, hloses⟩ := lossy_fork
  refine ⟨s₀, _, t, hboot, hrun, fun hall => hall (s, .fork p) (by simp) p rfl hloses, ?_⟩
  exact failed_fork_traceless_iff strayWorld_in (nodup_freerange _ _) hboot hrun htidy

/-- When the page table for the first page of the child is missing, the copy of that page is lost. -/
theorem failed_fork_loses_page : ¬ ∀ w m₀ code s₀ l u, KmapIn w.kmap → m₀.freelist.Nodup →
    Kernel.userinit w m₀ code = some s₀ → Run (Kernel.Step w) s₀ l u →
      Along (ForkTraceless w) l := by
  intro hall
  obtain ⟨s₀, l, s, t, p, hboot, hrun, htidy, hloses⟩ := lossy_fork
  have htraceless := hall _ _ _ _ _ _ strayWorld_in (nodup_freerange _ _) hboot hrun
  obtain ⟨h, t', hst⟩ := hrun.steps (I := Owned) (C := TidyCalls strayWorld)
    (fun _ _ _ h hC => owned_step strayWorld_in h hC)
    (owned_userinit strayWorld_in (nodup_freerange _ _) hboot) htidy (s, .fork p) (by simp)
  have hp := (hst.live p rfl).used
  obtain ⟨⟨ret, t''⟩, hf, -⟩ := Option.map_eq_some_iff.mp hst.next
  obtain rfl := hloses.fails strayWorld_in h hp hf
  exact (fork_noTrace_iff strayWorld_in h.nodup (BitVec.le_of_lt (h.small p hp)) hp hf).mp
    (htraceless (s, .fork p) (by simp) p t'' rfl hf) hloses

end

end Xv6.Memory
