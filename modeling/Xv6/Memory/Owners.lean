import Xv6.Memory.ExecFails
import Xv6.Memory.ForkFails

/-! @src proc.c exec.c pipe.c file.c kalloc.c | name:The owners of physical pages | layer:proof

    A page is free, or has one owner: a part of the address space of a process, the kernel stack of
    a process, a pipe, or the rest of the kernel. Each call changes what one process or one pipe
    has, next to the owners that it does not know. -/

namespace Xv6.Memory
open Xv6.Schemes
open Xv6.Schemes.X86 (Word)
open Xv6.Process (NPROC Slot ProcState Trapframe)

/-- What a physical page is used for. -/
inductive Owner where
  | part (p : Slot) (i : Part)
  | kstack (p : Slot)
  | pipe (f : Frame)
  | kept (f : Frame)
  deriving DecidableEq

/-- The page that an owner has. -/
def Kernel.holds (s : Kernel) : Owner → Option Frame
  | .part p i => if (s.task p).state = .UNUSED then none else (s.cr3 p).holds i
  | .kstack p => if (s.task p).state = .UNUSED then none else some (s.task p).kstack
  | .pipe f => (s.pipe f).map fun _ => f
  | .kept f => if f ∈ s.kept then some f else none

/-- The end of the pipe is open. -/
def Pipe.open_ (x : Pipe) (writable : Bool) : Bool := if writable then x.writeopen else x.readopen

/-- A file that is the end of a pipe is the only one, and that end is open. -/
structure FilesOk (file : Fin NFILE → File) (pipe : Frame → Option Pipe) : Prop where
  idle : ∀ f, (file f).ref = 0 → (file f).type = .none
  end_ : ∀ f p b, (file f).type = .pipe p b → ∃ x, pipe p = some x ∧ x.open_ b = true
  one : ∀ f g p b, (file f).type = .pipe p b → (file g).type = .pipe p b → f = g

/-- Every page is free or has one owner, at most. -/
structure Owned (s : Kernel) : Prop where
  nodup : s.mem.freelist.Nodup
  owns : Owns s.mem.frees s.holds ∅
  kept : s.kept.Nodup
  kernel : ∀ p, (s.task p).state ≠ .UNUSED → (s.cr3 p).KernelOnly
  small : ∀ p, (s.task p).state ≠ .UNUSED → (s.task p).image.sz < KERNBASE
  files : FilesOk s.file s.pipe

/-- The pages that are not part of the address space of the process. -/
def Kernel.others (s : Kernel) (p : Slot) : Set Frame := Rest (Owner.part p) s.holds

section

variable {m m₀ m₁ : Phys} {d d₁ : Pgdir} {O : Set Frame} {f : Frame} {oldsz newsz : Word} {v : ℕ}

/-! ### Address spaces that need not be dense -/

/-- The page that the loop of `allocuvm` has taken but not mapped. -/
def AllocEnd.rest (O : Set Frame) : AllocEnd → Set Frame
  | .noTable mem => insert mem O
  | _ => O

theorem mappages_present {w u : Bool} {e : Pte} (he : d.get v = some e) :
    mappages w u 1 v f m d = none := by
  cases hp : d.pde (PDX v) with
  | none => simp [Pgdir.get, hp] at he
  | some t => simp [mappages, walkpgdir, hp, he]

theorem allocLoop_held (hmax : newsz ≤ KERNBASE) {fuel : ℕ} {r : AllocEnd} (h : Held m d O)
    (hl : allocLoop newsz fuel v m d = some (r, m₁, d₁)) :
    Held m₁ d₁ (r.rest O) ∧ ∀ mem, r = .noTable mem → mem ∉ O := by
  induction fuel generalizing v m d with
  | zero =>
    obtain ⟨rfl, rfl, rfl⟩ : AllocEnd.through = r ∧ m = m₁ ∧ d = d₁ := by
      simpa [allocLoop] using hl
    exact ⟨h, fun _ hr => AllocEnd.noConfusion hr⟩
  | succ fuel ih =>
    rw [allocLoop] at hl
    split at hl
    · rename_i hv
      cases hk : kalloc m with
      | none =>
        obtain ⟨rfl, rfl, rfl⟩ : AllocEnd.noPage = r ∧ m = m₁ ∧ d = d₁ := by
          simpa [hk] using hl
        exact ⟨h, fun _ hr => AllocEnd.noConfusion hr⟩
      | some y =>
        obtain ⟨mem, m₀⟩ := y
        obtain ⟨h₁, hf, -⟩ := kalloc_scratch (V := ∅) (m₀.memset mem 0) h hk rfl
          fun g hg => memset_page hg
        cases he : d.get v with
        | some e => simp [hk, mappages_present he] at hl
        | none =>
          rcases mappages_user (w := true) (u := true) h₁ hf (lt_UPAGES hmax hv) he with
            hmap | ⟨m₂, d₂, hmap, h₂, -⟩
          · simp only [hk, hmap] at hl
            obtain ⟨rfl, rfl, rfl⟩ : AllocEnd.noTable mem = r ∧ _ = m₁ ∧ d = d₁ := by
              simpa using hl
            refine ⟨h₁, fun mem' hr => ?_⟩
            exact (AllocEnd.noTable.inj hr) ▸ hf
          · simp only [hk, hmap] at hl
            exact ih h₂ hl
    · obtain ⟨rfl, rfl, rfl⟩ : AllocEnd.through = r ∧ m = m₁ ∧ d = d₁ := by simpa using hl
      exact ⟨h, fun _ hr => AllocEnd.noConfusion hr⟩

theorem allocuvm_held {sz : Word} (h : Held m d O) (hold : oldsz ≤ KERNBASE)
    (ha : allocuvm m d oldsz newsz = some (sz, m₁, d₁)) :
    Held m₁ d₁ O ∧ (sz = 0 ∨ sz = oldsz ∨ sz < KERNBASE) := by
  unfold allocuvm at ha
  split at ha
  · obtain ⟨rfl, rfl, rfl⟩ : 0 = sz ∧ m = m₁ ∧ d = d₁ := by simpa using ha
    exact ⟨h, Or.inl rfl⟩
  rename_i hbig
  have hmax : newsz ≤ KERNBASE := BitVec.le_of_lt (BitVec.not_le.mp hbig)
  split at ha
  · obtain ⟨rfl, rfl, rfl⟩ : oldsz = sz ∧ m = m₁ ∧ d = d₁ := by simpa using ha
    exact ⟨h, Or.inr (Or.inl rfl)⟩
  cases hl : allocLoop newsz NPAGES (pageUp oldsz) m d with
  | none => simp [hl] at ha
  | some x =>
    obtain ⟨r, m₂, d₂⟩ := x
    obtain ⟨h₂, hfresh⟩ := allocLoop_held hmax h hl
    cases r with
    | through =>
      obtain ⟨rfl, rfl, rfl⟩ : newsz = sz ∧ m₂ = m₁ ∧ d₂ = d₁ := by simpa [hl] using ha
      exact ⟨h₂, Or.inr (Or.inr (BitVec.not_le.mp hbig))⟩
    | noPage =>
      obtain ⟨m₃, d₃, hd, h₃, -⟩ := deallocuvm_spec h₂ hmax hold
      simp only [hl, hd] at ha
      obtain ⟨rfl, rfl, rfl⟩ : 0 = sz ∧ m₃ = m₁ ∧ d₃ = d₁ := by simpa using ha
      exact ⟨h₃, Or.inl rfl⟩
    | noTable mem =>
      obtain ⟨m₃, d₃, hd, h₃, -⟩ := deallocuvm_spec h₂ hmax hold
      simp only [hl, hd] at ha
      obtain ⟨rfl, rfl, rfl⟩ : 0 = sz ∧ kfree m₃ mem = m₁ ∧ d₃ = d₁ := by simpa using ha
      exact ⟨kfree_held h₃ (hfresh mem rfl), Or.inl rfl⟩

theorem deallocuvm_held {sz : Word} (h : Held m d O) (hold : oldsz < KERNBASE)
    (hd : deallocuvm m d oldsz newsz = (sz, m₁, d₁)) : Held m₁ d₁ O ∧ sz < KERNBASE := by
  have hle := BitVec.le_of_lt hold
  by_cases hup : newsz ≥ oldsz
  · rw [deallocuvm, if_pos hup] at hd
    obtain ⟨rfl, rfl, rfl⟩ : oldsz = sz ∧ m = m₁ ∧ d = d₁ := by simpa using hd
    exact ⟨h, hold⟩
  · have hnew : newsz < KERNBASE := BitVec.lt_trans (BitVec.not_le.mp hup) hold
    obtain ⟨m₂, d₂, hspec, h₂, -⟩ := deallocuvm_spec h hle (BitVec.le_of_lt hnew)
    rw [hd] at hspec
    rw [deallocuvm, if_neg hup] at hd
    obtain ⟨rfl, rfl⟩ := Prod.mk.inj hspec
    obtain ⟨rfl, -⟩ := Prod.mk.inj hd
    exact ⟨h₂, hnew⟩

/-- `growproc` works on the pages of the process. -/
theorem growproc_held {p p' : Proc} {n ret : Word} (h : Held m p.pgdir O) (hsz : p.sz < KERNBASE)
    (hg : growproc m p n = some (ret, m₁, p')) : Held m₁ p'.pgdir O ∧ p'.sz < KERNBASE := by
  have hle := BitVec.le_of_lt hsz
  unfold growproc at hg
  split at hg
  · cases ha : allocuvm m p.pgdir p.sz (p.sz + n) with
    | none => simp [ha] at hg
    | some x =>
      obtain ⟨sz, m₂, d₂⟩ := x
      obtain ⟨h₂, hsz₂⟩ := allocuvm_held h hle ha
      simp only [ha] at hg
      split at hg
      · obtain ⟨-, rfl, rfl⟩ : -1 = ret ∧ m₂ = m₁ ∧ _ = p' := by simpa using hg
        exact ⟨h₂, hsz⟩
      · rename_i h0
        obtain ⟨-, rfl, rfl⟩ : 0 = ret ∧ m₂ = m₁ ∧ _ = p' := by simpa using hg
        refine ⟨h₂, ?_⟩
        rcases hsz₂ with hz | rfl | hlt
        · exact absurd hz h0
        · exact hsz
        · exact hlt
  · split at hg
    · obtain ⟨h₂, hsz₂⟩ := deallocuvm_held h hsz (rfl : deallocuvm m p.pgdir p.sz (p.sz + n) = _)
      dsimp only at hg
      split at hg
      · obtain ⟨-, rfl, rfl⟩ : -1 = ret ∧ _ = m₁ ∧ _ = p' := by simpa using hg
        exact ⟨h₂, hsz⟩
      · obtain ⟨-, rfl, rfl⟩ : 0 = ret ∧ _ = m₁ ∧ _ = p' := by simpa using hg
        exact ⟨h₂, hsz₂⟩
    · obtain ⟨-, rfl, rfl⟩ : 0 = ret ∧ m = m₁ ∧ p = p' := by simpa using hg
      exact ⟨h, hsz⟩

end

/-! ### One process among the others -/

/-- The processes, the pipes and the rest of the kernel have the same pages in both. -/
structure SameOwners (s t : Kernel) : Prop where
  used : ∀ q, (t.task q).state = .UNUSED ↔ (s.task q).state = .UNUSED
  task : ∀ q, (s.task q).state ≠ .UNUSED →
    (t.task q).kstack = (s.task q).kstack ∧ (t.task q).image = (s.task q).image
  pipe : t.pipe = s.pipe
  kept : t.kept = s.kept

section

variable {w : World} {s t : Kernel} {p np : Slot} {m m₀ m₁ : Phys} {d : Pgdir} {f : Frame}
  {r : Task}

theorem SameOwners.holds (h : SameOwners s t) : t.holds = s.holds := by
  funext o
  cases o with
  | part q i =>
    by_cases hq : (s.task q).state = .UNUSED
    · simp [Kernel.holds, hq, (h.used q).mpr hq]
    · have hq' : (t.task q).state ≠ .UNUSED := fun he => hq ((h.used q).mp he)
      simp [Kernel.holds, Kernel.cr3, hq, hq', (h.task q hq).2]
  | kstack q =>
    by_cases hq : (s.task q).state = .UNUSED
    · simp [Kernel.holds, hq, (h.used q).mpr hq]
    · have hq' : (t.task q).state ≠ .UNUSED := fun he => hq ((h.used q).mp he)
      simp [Kernel.holds, hq, hq', (h.task q hq).1]
  | pipe f => simp [Kernel.holds, h.pipe]
  | kept f => simp [Kernel.holds, h.kept]

theorem Owned.clean (h : Owned s) : Clean s.mem (Taken s.holds) where
  nodup := h.nodup
  elsewhere := by
    rintro f ⟨o, ho⟩
    exact h.owns.used o f ho

/-- Nobody gets a page or loses one; free pages may get lost. -/
theorem Owned.same (h : Owned s) (hs : SameOwners s t) (hc : Clean t.mem (Taken s.holds))
    (hfiles : FilesOk t.file s.pipe) : Owned t where
  nodup := hc.nodup
  owns := by
    rw [hs.holds]
    exact ⟨h.owns.inj, fun o f ho => hc.elsewhere f ⟨o, ho⟩, h.owns.apart,
      fun f hf => absurd hf (Set.notMem_empty f)⟩
  kept := hs.kept ▸ h.kept
  kernel := fun q hq => by
    have hq' : (s.task q).state ≠ .UNUSED := fun he => hq ((hs.used q).mpr he)
    have := h.kernel q hq'
    rwa [Kernel.cr3, ← (hs.task q hq').2] at this
  small := fun q hq => by
    have hq' : (s.task q).state ≠ .UNUSED := fun he => hq ((hs.used q).mpr he)
    exact (hs.task q hq').2 ▸ h.small q hq'
  files := hs.pipe ▸ hfiles

/-- The pages of the others are in use elsewhere for the address space of the process. -/
theorem Owned.held (h : Owned s) (hp : (s.task p).state ≠ .UNUSED) :
    Held s.mem (s.cr3 p) (s.others p) where
  nodup := h.nodup
  owns := by
    have hf := h.owns.focus (e := Owner.part p) fun i j hij => (Owner.part.inj hij).2
    have hholds : (fun i => s.holds (.part p i)) = (s.cr3 p).holds := by
      funext i
      simp [Kernel.holds, hp]
    rw [hholds, Set.empty_union] at hf
    exact hf
  kernel := h.kernel p hp

theorem not_range_part {o : Owner} : o ∉ Set.range (Owner.part p) ↔ ∀ i, o ≠ .part p i :=
  ⟨fun h i he => h ⟨i, he.symm⟩, fun h ⟨i, he⟩ => h i he.symm⟩

/-- The owners after a process has got another address space. -/
theorem holds_update_part (hr : r.state ≠ .UNUSED) (i : Part) :
    ({ s with mem := m, task := Function.update s.task p r } : Kernel).holds (.part p i) =
      r.image.pgdir.holds i := by
  simp [Kernel.holds, Kernel.cr3, hr]

theorem holds_update_of_ne {o : Owner} (hpart : ∀ i, o ≠ .part p i) (hstack : o ≠ .kstack p) :
    ({ s with mem := m, task := Function.update s.task p r } : Kernel).holds o = s.holds o := by
  cases o with
  | part q i =>
    have hq : q ≠ p := fun he => hpart i (he ▸ rfl)
    simp [Kernel.holds, Kernel.cr3, hq]
  | kstack q =>
    have hq : q ≠ p := fun he => hstack (he ▸ rfl)
    simp [Kernel.holds, hq]
  | pipe f => rfl
  | kept f => rfl

/-- What is known of every process in use stays known when one of them changes. -/
theorem used_update {P : Task → Prop} (h : ∀ q, (s.task q).state ≠ .UNUSED → P (s.task q))
    (hr : r.state ≠ .UNUSED → P r) (q : Slot)
    (hq : (Function.update s.task p r q).state ≠ .UNUSED) : P (Function.update s.task p r q) := by
  rcases eq_or_ne q p with rfl | hne
  · rw [Function.update_self] at hq ⊢
    exact hr hq
  · rw [Function.update_of_ne hne] at hq ⊢
    exact h q hq

/-- A process gets another address space, made of its pages and free ones. -/
theorem Owned.replace (h : Owned s) (hp : (s.task p).state ≠ .UNUSED) (hr : r.state ≠ .UNUSED)
    (hstack : r.kstack = (s.task p).kstack) (hheld : Held m r.image.pgdir (s.others p))
    (hsz : r.image.sz < KERNBASE) :
    Owned { s with mem := m, task := Function.update s.task p r } where
  nodup := hheld.nodup
  owns := by
    refine h.owns.unfocus (e := Owner.part p) (hheld.owns.mono (Set.empty_union _).subset)
      (fun i => holds_update_part hr i) fun o ho => ?_
    by_cases hk : o = .kstack p
    · subst hk
      simp [Kernel.holds, hr, hp, hstack]
    · exact holds_update_of_ne (not_range_part.mp ho) hk
  kept := h.kept
  kernel := used_update (P := fun r => r.image.pgdir.KernelOnly) h.kernel fun _ => hheld.kernel
  small := used_update (P := fun r => r.image.sz < KERNBASE) h.small fun _ => hsz
  files := h.files

/-- A slot gets a kernel stack and an address space made of free pages. -/
theorem Owned.adopt (h : Owned s) (hnp : (s.task np).state = .UNUSED) (hr : r.state ≠ .UNUSED)
    (hk : kalloc s.mem = some (f, m₀)) (hstack : r.kstack = f)
    (hheld : Held m r.image.pgdir (insert f (Taken s.holds))) (hsz : r.image.sz < KERNBASE) :
    Owned { s with mem := m, task := Function.update s.task np r } where
  nodup := hheld.nodup
  owns := by
    obtain ⟨-, htake, hf, -⟩ := kalloc_owns h.nodup h.owns hk
    have hnone : s.holds (.kstack np) = none := by simp [Kernel.holds, hnp]
    refine (htake.assign hf hnone).unfocus (e := Owner.part np) (hheld.owns.mono ?_)
      (fun i => holds_update_part hr i) fun o ho => ?_
    · rintro g (hg | ⟨o, -, ho⟩)
      · exact absurd hg (Set.notMem_empty g)
      · by_cases hok : o = .kstack np
        · rw [hok, Function.update_self] at ho
          exact Or.inl (Option.some.inj ho).symm
        · rw [Function.update_of_ne hok] at ho
          exact Or.inr ⟨o, ho⟩
    · by_cases hok : o = .kstack np
      · subst hok
        simp [Kernel.holds, hr, hstack]
      · rw [Function.update_of_ne hok]
        exact holds_update_of_ne (not_range_part.mp ho) hok
  kept := h.kept
  kernel := used_update (P := fun r => r.image.pgdir.KernelOnly) h.kernel fun _ => hheld.kernel
  small := used_update (P := fun r => r.image.sz < KERNBASE) h.small fun _ => hsz
  files := h.files

/-- A process is gone, with its kernel stack and its address space. -/
theorem Owned.reap (h : Owned s) (hp : (s.task p).state ≠ .UNUSED) (hr : r.state = .UNUSED) :
    Owned { s with
      mem := freevm (kfree s.mem (s.task p).kstack) (s.cr3 p)
      task := Function.update s.task p r } := by
  have hstack : s.holds (.kstack p) = some (s.task p).kstack := by simp [Kernel.holds, hp]
  have hnd : (kfree s.mem (s.task p).kstack).freelist.Nodup :=
    List.nodup_cons.mpr ⟨h.owns.used _ _ hstack, h.nodup⟩
  have hput := (h.owns.release hstack).put (Set.notMem_empty _)
  rw [← frees_kfree] at hput
  have hfocus := hput.focus (e := Owner.part p) fun i j hij => (Owner.part.inj hij).2
  have hholds : (fun i => Function.update s.holds (.kstack p) none (.part p i)) =
      (s.cr3 p).holds := by
    funext i
    simp [Kernel.holds, hp]
  rw [hholds] at hfocus
  obtain ⟨hclean, -⟩ := freevm_spec (⟨hnd, hfocus, h.kernel p hp⟩ : Held _ (s.cr3 p) _)
  refine ⟨hclean.nodup, ?_, h.kept, ?_, ?_, h.files⟩
  · refine hput.unfocus (.nobody hclean.elsewhere)
      (fun i => (by simp [Kernel.holds, hr] : _ = none)) fun o ho => ?_
    by_cases hok : o = .kstack p
    · subst hok
      simp [Kernel.holds, hr]
    · rw [Function.update_of_ne hok]
      exact holds_update_of_ne (not_range_part.mp ho) hok
  · exact used_update (P := fun r => r.image.pgdir.KernelOnly) h.kernel fun hr' => absurd hr hr'
  · exact used_update (P := fun r => r.image.sz < KERNBASE) h.small fun hr' => absurd hr hr'

end

end Xv6.Memory
