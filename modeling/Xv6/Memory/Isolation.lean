import Xv6.Memory.Owners
import Xv6.Schemes.Run

/-! @src proc.c exec.c pipe.c file.c sysfile.c | name:Physical pages have one owner | layer:proof

    Each call keeps the owners of physical pages apart, `exec` as long as it does not take the word
    at address 0 for a page table entry. A pipe is there as long as a file is one of its ends, so
    its page is freed once. -/

namespace Xv6.Memory
open Xv6.Schemes
open Xv6.Schemes.X86 (Word)
open Xv6.Process (NPROC Slot ProcState Trapframe)

/-! ### Files and pipes -/

section Files

variable {file : Fin NFILE → File} {pipe : Frame → Option Pipe} {f g : Fin NFILE} {p : Frame}
  {b : Bool} {x : Pipe}

/-- The pipe with one end closed. -/
def Pipe.shut (x : Pipe) (writable : Bool) : Pipe :=
  if writable then { x with writeopen := false } else { x with readopen := false }

theorem Pipe.shut_open {b' : Bool} (hne : b' ≠ b) : (x.shut b).open_ b' = x.open_ b' := by
  cases b <;> cases b' <;> first | rfl | exact absurd rfl hne

theorem FilesOk.ref (h : FilesOk file pipe) {n : ℕ} (hn : n ≠ 0) :
    FilesOk (Function.update file f { file f with ref := n }) pipe := by
  have htype : ∀ g, (Function.update file f { file f with ref := n } g).type = (file g).type := by
    intro g
    rcases eq_or_ne g f with rfl | hne
    · rw [Function.update_self]
    · rw [Function.update_of_ne hne]
  refine ⟨fun g hg => ?_, fun g p b hg => h.end_ g p b (htype g ▸ hg),
    fun g g' p b hg hg' => h.one g g' p b (htype g ▸ hg) (htype g' ▸ hg')⟩
  rcases eq_or_ne g f with rfl | hne
  · rw [Function.update_self] at hg
    exact absurd hg hn
  · rw [Function.update_of_ne hne] at hg ⊢
    exact h.idle g hg

/-- Which files are ends of pipes once one is closed. -/
theorem type_closed (hg : (Function.update file f ⟨0, .none⟩ g).type = .pipe p b) :
    g ≠ f ∧ (file g).type = .pipe p b := by
  rcases eq_or_ne g f with rfl | hne
  · rw [Function.update_self] at hg
    exact absurd hg (by simp)
  · rw [Function.update_of_ne hne] at hg
    exact ⟨hne, hg⟩

theorem FilesOk.closed (h : FilesOk file pipe) :
    FilesOk (Function.update file f ⟨0, .none⟩) pipe where
  idle := fun g hg => by
    rcases eq_or_ne g f with rfl | hne
    · rw [Function.update_self]
    · rw [Function.update_of_ne hne] at hg ⊢
      exact h.idle g hg
  end_ := fun g p b hg => h.end_ g p b (type_closed hg).2
  one := fun g g' p b hg hg' => h.one g g' p b (type_closed hg).2 (type_closed hg').2

/-- The other end may be open, and no other file is this end. -/
theorem FilesOk.shut (h : FilesOk file pipe) (hf : (file f).type = .pipe p b)
    (hx : pipe p = some x) :
    FilesOk (Function.update file f ⟨0, .none⟩) (Function.update pipe p (some (x.shut b))) where
  idle := h.closed.idle
  end_ := fun g p' b' hg => by
    obtain ⟨hne, hg'⟩ := type_closed hg
    obtain ⟨y, hy, hopen⟩ := h.end_ g p' b' hg'
    rcases eq_or_ne p' p with rfl | hp
    · have hb : b' ≠ b := by
        rintro rfl
        exact hne (h.one g f p' b' hg' hf)
      obtain rfl := Option.some.inj (hx.symm.trans hy)
      exact ⟨x.shut b, Function.update_self .., (Pipe.shut_open hb).trans hopen⟩
    · exact ⟨y, (Function.update_of_ne hp ..).trans hy, hopen⟩
  one := h.closed.one

/-- No file is left for a pipe with both ends closed. -/
theorem FilesOk.gone (h : FilesOk file pipe) (hr : x.readopen = false) (hw : x.writeopen = false)
    (hx : pipe p = some x) : FilesOk file (Function.update pipe p none) where
  idle := h.idle
  end_ := fun g p' b' hg => by
    obtain ⟨y, hy, hopen⟩ := h.end_ g p' b' hg
    have hp : p' ≠ p := by
      rintro rfl
      obtain rfl := Option.some.inj (hx.symm.trans hy)
      cases b' <;> simp [Pipe.open_, hr, hw] at hopen
    exact ⟨y, (Function.update_of_ne hp ..).trans hy, hopen⟩
  one := h.one

/-- No file is an end of a pipe that is not there. -/
theorem FilesOk.not_pipe (h : FilesOk file pipe) (hp : pipe p = none) :
    (file f).type ≠ .pipe p b := by
  intro hf
  obtain ⟨x, hx, -⟩ := h.end_ f p b hf
  exact absurd (hp.symm.trans hx) (by simp)

theorem FilesOk.fresh (h : FilesOk file pipe) (hp : pipe p = none) (x : Option Pipe) :
    FilesOk file (Function.update pipe p x) where
  idle := h.idle
  end_ := fun f p' b' hf => by
    have hne : p' ≠ p := fun he => h.not_pipe hp (he ▸ hf)
    rw [Function.update_of_ne hne]
    exact h.end_ f p' b' hf
  one := h.one

/-- A file becomes the end of a new pipe. -/
theorem FilesOk.become (h : FilesOk file pipe) (hx : pipe p = some x) (hopen : x.open_ b = true)
    (href : (file f).ref ≠ 0) (hfree : ∀ g, (file g).type ≠ .pipe p b) :
    FilesOk (Function.update file f { file f with type := .pipe p b }) pipe := by
  have hcases : ∀ g p' b',
      (Function.update file f { file f with type := .pipe p b } g).type = .pipe p' b' →
      (g = f ∧ p = p' ∧ b = b') ∨ (g ≠ f ∧ (file g).type = .pipe p' b') := by
    intro g p' b' hg
    rcases eq_or_ne g f with rfl | hne
    · rw [Function.update_self] at hg
      exact Or.inl ⟨rfl, FileType.pipe.inj hg⟩
    · rw [Function.update_of_ne hne] at hg
      exact Or.inr ⟨hne, hg⟩
  refine ⟨fun g hg => ?_, fun g p' b' hg => ?_, fun g g' p' b' hg hg' => ?_⟩
  · rcases eq_or_ne g f with rfl | hne
    · rw [Function.update_self] at hg
      exact absurd hg href
    · rw [Function.update_of_ne hne] at hg ⊢
      exact h.idle g hg
  · rcases hcases g p' b' hg with ⟨-, rfl, rfl⟩ | ⟨-, hg'⟩
    · exact ⟨x, hx, hopen⟩
    · exact h.end_ g p' b' hg'
  · rcases hcases g p' b' hg with ⟨rfl, rfl, rfl⟩ | ⟨-, h₁⟩ <;>
      rcases hcases g' _ _ hg' with ⟨rfl, hp, hb⟩ | ⟨-, h₂⟩
    · rfl
    · exact absurd h₂ (hfree g')
    · exact absurd (hp ▸ hb ▸ h₁) (hfree g)
    · exact h.one g g' p' b' h₁ h₂

end Files

section

variable {w : World} {s t : Kernel} {p np : Slot} {m : Phys} {f : Frame}

/-- Only the files have changed. -/
theorem Owned.setFile (h : Owned s) {i : Fin NFILE} {x : File}
    (hf : FilesOk (Function.update s.file i x) s.pipe) : Owned (s.setFile i x) :=
  h.same ⟨fun _ => Iff.rfl, fun _ _ => ⟨rfl, rfl⟩, rfl, rfl⟩ h.clean hf

theorem Owned.setTask (h : Owned s) {g : Task → Task}
    (hstate : (g (s.task p)).state = .UNUSED ↔ (s.task p).state = .UNUSED)
    (hstack : (g (s.task p)).kstack = (s.task p).kstack)
    (himage : (g (s.task p)).image = (s.task p).image) : Owned (s.setTask p g) := by
  refine h.same ⟨fun q => ?_, fun q _ => ?_, rfl, rfl⟩ h.clean h.files
  · rcases eq_or_ne q p with rfl | hne
    · simpa [Kernel.setTask] using hstate
    · simp [Kernel.setTask, hne]
  · rcases eq_or_ne q p with rfl | hne
    · simpa [Kernel.setTask] using ⟨hstack, himage⟩
    · simp [Kernel.setTask, hne]

/-! ### pipe.c and file.c -/

theorem holds_pipe (file : Fin NFILE → File) (x : Option Pipe) :
    ({ s with mem := m, file := file, pipe := Function.update s.pipe f x } : Kernel).holds =
      Function.update s.holds (.pipe f) (x.map fun _ => f) := by
  funext o
  cases o with
  | part q i => simp [Kernel.holds, Kernel.cr3]
  | kstack q => simp [Kernel.holds]
  | pipe g =>
    rcases eq_or_ne g f with rfl | hne
    · simp [Kernel.holds]
    · simp [Kernel.holds, hne]
  | kept g => simp [Kernel.holds]

theorem fileclose_owned {i : Fin NFILE} (h : Owned s) (hc : s.fileclose i = some t) : Owned t := by
  unfold Kernel.fileclose at hc
  dsimp only at hc
  split at hc
  · exact absurd hc (by simp)
  split at hc
  · rename_i href
    obtain rfl := Option.some.inj hc
    exact h.setFile (h.files.ref (by omega))
  split at hc
  · obtain rfl := Option.some.inj hc
    exact h.setFile h.files.closed
  · rename_i p b htype
    obtain ⟨x, hx, hc⟩ := Option.map_eq_some_iff.mp hc
    have hx' : s.pipe p = some x := hx
    have hshut := h.files.shut htype hx'
    have hholds : s.holds (.pipe p) = some p := by simp [Kernel.holds, hx']
    change (if (x.shut b).readopen = false ∧ (x.shut b).writeopen = false then _ else _) = t at hc
    split at hc
    · rename_i hboth
      subst hc
      have hgone := hshut.gone hboth.1 hboth.2 (Function.update_self ..)
      rw [Function.update_idem] at hgone
      have howns : Owns (kfree s.mem p).frees (Kernel.holds { s with
          mem := kfree s.mem p
          file := Function.update s.file i ⟨0, .none⟩
          pipe := Function.update s.pipe p none }) ∅ := by
        rw [holds_pipe, frees_kfree]
        exact (h.owns.release hholds).put (Set.notMem_empty p)
      exact ⟨List.nodup_cons.mpr ⟨h.owns.used _ _ hholds, h.nodup⟩, howns, h.kept, h.kernel,
        h.small, hgone⟩
    · subst hc
      have howns : Owns s.mem.frees (Kernel.holds { s with
          file := Function.update s.file i ⟨0, .none⟩
          pipe := Function.update s.pipe p (some (x.shut b)) }) ∅ := by
        rw [holds_pipe, Option.map_some, ← hholds, Function.update_eq_self]
        exact h.owns
      exact ⟨h.nodup, howns, h.kept, h.kernel, h.small, hshut⟩
  · obtain rfl := Option.some.inj hc
    exact h.same ⟨fun _ => Iff.rfl, fun _ _ => ⟨rfl, rfl⟩, rfl, rfl⟩ h.clean h.files.closed

theorem filealloc_owned {i : Fin NFILE} (h : Owned s) (ha : s.filealloc = some (i, t)) :
    Owned t ∧ (s.file i).ref = 0 ∧ t = s.setFile i { s.file i with ref := 1 } := by
  obtain ⟨j, hj, he⟩ := Option.map_eq_some_iff.mp ha
  obtain ⟨rfl, rfl⟩ := Prod.mk.inj he
  exact ⟨h.setFile (h.files.ref Nat.one_ne_zero), by simpa using List.find?_some hj, rfl⟩

theorem filedup_owned {i : Fin NFILE} (h : Owned s) (hd : s.filedup i = some t) : Owned t := by
  unfold Kernel.filedup at hd
  split at hd
  · exact absurd hd (by simp)
  · obtain rfl := Option.some.inj hd
    exact h.setFile (h.files.ref (Nat.succ_ne_zero _))

/-- `pipealloc` makes a pipe in a free page, or gives back what it has got. -/
theorem pipealloc_owned {r : Option (Fin NFILE × Fin NFILE)} (h : Owned s)
    (ha : s.pipealloc = some (r, t)) : Owned t := by
  unfold Kernel.pipealloc at ha
  split at ha
  · obtain ⟨-, rfl⟩ := Prod.mk.inj (Option.some.inj ha)
    exact h
  rename_i f₀ s₁ h₀
  obtain ⟨hs₁, -, hf₀⟩ := filealloc_owned h h₀
  split at ha
  · obtain ⟨s₂, hc, he⟩ := Option.map_eq_some_iff.mp ha
    obtain ⟨-, rfl⟩ := Prod.mk.inj he
    exact fileclose_owned hs₁ hc
  rename_i f₁ s₂ h₁
  obtain ⟨hs₂, hidle, hf₁⟩ := filealloc_owned hs₁ h₁
  split at ha
  · obtain ⟨s₃, hc, ha⟩ := Option.bind_eq_some_iff.mp ha
    obtain ⟨s₄, hc', he⟩ := Option.map_eq_some_iff.mp ha
    obtain ⟨-, rfl⟩ := Prod.mk.inj he
    exact fileclose_owned (fileclose_owned hs₂ hc) hc'
  rename_i p m hk
  obtain ⟨-, rfl⟩ := Prod.mk.inj (Option.some.inj ha)
  obtain ⟨hnd, htake, hp, -⟩ := kalloc_owns hs₂.nodup hs₂.owns hk
  have hfree : p ∈ s₂.mem.frees := by
    rw [frees_kalloc hk]
    exact Set.mem_insert _ _
  have hnone : s₂.pipe p = none := by
    cases hx : s₂.pipe p with
    | none => rfl
    | some x => exact absurd hfree (hs₂.owns.used (.pipe p) p (by simp [Kernel.holds, hx]))
  have hs₃ : Owned { s₂ with mem := m, pipe := Function.update s₂.pipe p (some ⟨true, true⟩) } := by
    refine ⟨hnd, ?_, hs₂.kept, hs₂.kernel, hs₂.small, hs₂.files.fresh hnone _⟩
    rw [holds_pipe (s := s₂) s₂.file]
    exact htake.assign hp (by simp [Kernel.holds, hnone])
  have hne : f₀ ≠ f₁ := by
    rintro rfl
    rw [hf₀] at hidle
    simp [Kernel.setFile] at hidle
  have href₀ : (s₂.file f₀).ref ≠ 0 := by simp [hf₁, hf₀, Kernel.setFile, hne]
  have href₁ : (s₂.file f₁).ref ≠ 0 := by simp [hf₁, Kernel.setFile]
  have hout : ∀ g b, (s₂.file g).type ≠ .pipe p b := fun g b => hs₂.files.not_pipe hnone
  have hs₄ := hs₃.setFile (hs₃.files.become (f := f₀) (b := false) (Function.update_self ..) rfl
    href₀ fun g => hout g false)
  have htype : ∀ g, (Function.update s₂.file f₀ { s₂.file f₀ with type := .pipe p false } g).type ≠
      .pipe p true := by
    intro g
    rcases eq_or_ne g f₀ with rfl | hg
    · rw [Function.update_self]
      simp
    · rw [Function.update_of_ne hg]
      exact hout g true
  refine hs₄.setFile (hs₄.files.become (Function.update_self ..) rfl ?_ htype)
  simpa [Kernel.setFile, hne.symm] using href₁

/-! ### sysfile.c -/

theorem Owned.setFd (h : Owned s) (fd : Fin NOFILE) (i : Option (Fin NFILE)) :
    Owned (s.setFd p fd i) :=
  h.setTask Iff.rfl rfl rfl

theorem fdalloc_owned {fd : Fin NOFILE} {i : Fin NFILE} (h : Owned s)
    (hf : s.fdalloc p i = some (fd, t)) : Owned t := by
  obtain ⟨fd', -, he⟩ := Option.map_eq_some_iff.mp hf
  obtain ⟨-, rfl⟩ := Prod.mk.inj he
  exact h.setTask Iff.rfl rfl rfl

theorem fileclose_two {i j : Fin NFILE} {x ret : Word} (h : Owned s)
    (hc : ((s.fileclose i).bind fun s => (s.fileclose j).map fun s => (x, s)) = some (ret, t)) :
    Owned t := by
  obtain ⟨s₁, h₁, hc⟩ := Option.bind_eq_some_iff.mp hc
  obtain ⟨s₂, h₂, he⟩ := Option.map_eq_some_iff.mp hc
  obtain ⟨-, rfl⟩ := Prod.mk.inj he
  exact fileclose_owned (fileclose_owned h h₁) h₂

theorem sys_pipe_owned {ret : Word} (h : Owned s) (hc : s.sys_pipe p = some (ret, t)) :
    Owned t := by
  obtain ⟨⟨fs, s₁⟩, ha, hc⟩ := Option.bind_eq_some_iff.mp hc
  have hs₁ := pipealloc_owned h ha
  cases fs with
  | none =>
    obtain ⟨-, rfl⟩ := Prod.mk.inj (Option.some.inj hc)
    exact hs₁
  | some fs =>
    obtain ⟨rf, wf⟩ := fs
    dsimp only at hc
    split at hc
    · exact fileclose_two hs₁ hc
    rename_i hf
    have hs₂ := fdalloc_owned hs₁ hf
    split at hc
    · exact fileclose_two (hs₂.setFd _ none) hc
    · rename_i hf'
      obtain ⟨-, rfl⟩ := Prod.mk.inj (Option.some.inj hc)
      exact fdalloc_owned hs₂ hf'

theorem sys_dup_owned {fd : Fin NOFILE} {ret : Word} (h : Owned s)
    (hc : s.sys_dup p fd = some (ret, t)) : Owned t := by
  unfold Kernel.sys_dup at hc
  split at hc
  · obtain ⟨-, rfl⟩ := Prod.mk.inj (Option.some.inj hc)
    exact h
  split at hc
  · obtain ⟨-, rfl⟩ := Prod.mk.inj (Option.some.inj hc)
    exact h
  · rename_i hf
    obtain ⟨s₁, hd, he⟩ := Option.map_eq_some_iff.mp hc
    obtain ⟨-, rfl⟩ := Prod.mk.inj he
    exact filedup_owned (fdalloc_owned h hf) hd

theorem sys_close_owned {fd : Fin NOFILE} {ret : Word} (h : Owned s)
    (hc : s.sys_close p fd = some (ret, t)) : Owned t := by
  unfold Kernel.sys_close at hc
  split at hc
  · obtain ⟨-, rfl⟩ := Prod.mk.inj (Option.some.inj hc)
    exact h
  · obtain ⟨s₁, hd, he⟩ := Option.map_eq_some_iff.mp hc
    obtain ⟨-, rfl⟩ := Prod.mk.inj he
    exact fileclose_owned (h.setFd _ none) hd

/-! ### proc.c -/

theorem filedup_task {i : Fin NFILE} (hd : s.filedup i = some t) : t.task = s.task := by
  unfold Kernel.filedup at hd
  split at hd
  · exact absurd hd (by simp)
  · obtain rfl := Option.some.inj hd
    rfl

theorem setFd_state (fd : Fin NOFILE) (i : Option (Fin NFILE)) (q : Slot) :
    ((s.setFd p fd i).task q).state = (s.task q).state := by
  rcases eq_or_ne q p with rfl | hne
  · simp [Kernel.setFd, Kernel.setTask]
  · simp [Kernel.setFd, Kernel.setTask, hne]

theorem dupFiles_owned (is : List (Fin NOFILE)) (h : Owned s)
    (hd : Kernel.dupFiles p np is s = some t) :
    Owned t ∧ ∀ q, (t.task q).state = (s.task q).state := by
  induction is generalizing s with
  | nil =>
    obtain rfl := Option.some.inj hd
    exact ⟨h, fun _ => rfl⟩
  | cons i is ih =>
    rw [Kernel.dupFiles] at hd
    split at hd
    · exact ih h hd
    · obtain ⟨s₁, hs₁, hd⟩ := Option.bind_eq_some_iff.mp hd
      obtain ⟨ht, hstate⟩ := ih ((filedup_owned h hs₁).setFd i _) hd
      refine ⟨ht, fun q => (hstate q).trans ?_⟩
      rw [setFd_state, filedup_task hs₁]

/-- The slot has been taken and given back; free pages may get lost. -/
theorem Owned.slot {r : Task} {n : ℕ} (h : Owned s) (hnp : (s.task np).state = .UNUSED)
    (hr : r.state = .UNUSED) (hc : Clean m (Taken s.holds)) :
    Owned { s with mem := m, nextpid := n, task := Function.update s.task np r } := by
  refine h.same ⟨fun q => ?_, fun q hq => ?_, rfl, rfl⟩ hc h.files
  · rcases eq_or_ne q np with rfl | hne
    · simp [hnp, hr]
    · simp [hne]
  · have hne : q ≠ np := by
      rintro rfl
      exact hq hnp
    simp [hne]

theorem fork_owned {ret : ℤ} (hk : KmapIn w.kmap) (h : Owned s) (hp : (s.task p).state ≠ .UNUSED)
    (hf : s.fork w p = some (ret, t)) : Owned t := by
  have hsz := h.small p hp
  rcases allocproc_cases s with ⟨-, ha⟩ | ⟨np, hnp, ⟨-, ha⟩ | ⟨f, m₀, hka, ha⟩⟩
  · simp only [Kernel.fork, ha] at hf
    obtain ⟨-, rfl⟩ := Prod.mk.inj (Option.some.inj hf)
    exact h
  · simp only [Kernel.fork, ha] at hf
    obtain ⟨-, rfl⟩ := Prod.mk.inj (Option.some.inj hf)
    exact h.slot hnp rfl h.clean
  · have hne : p ≠ np := fun he => hp (he ▸ hnp)
    obtain ⟨hclean, hout, -⟩ := kalloc_clean h.clean hka
    simp only [Kernel.fork, ha, Function.update_of_ne hne] at hf
    split at hf
    · exact absurd hf (by simp)
    · rename_i m₁ hcopy
      obtain ⟨hclean₁, -⟩ := copyuvm_lost hk hclean (BitVec.le_of_lt hsz) hcopy
      simp only [Kernel.setTask, Function.update_self, Function.update_idem] at hf
      obtain ⟨-, rfl⟩ := Prod.mk.inj (Option.some.inj hf)
      refine h.slot hnp rfl ⟨List.nodup_cons.mpr ⟨?_, hclean₁.nodup⟩, fun g hg => ?_⟩
      · exact hclean₁.elsewhere f (Set.mem_insert f _)
      · refine List.mem_cons.not.mpr (not_or.mpr ⟨?_, hclean₁.elsewhere g (Set.mem_insert_of_mem f hg)⟩)
        rintro rfl
        exact hout hg
    · rename_i d m₁ hcopy
      obtain ⟨-, hheld, -⟩ := copyuvm_lost hk hclean (BitVec.le_of_lt hsz) hcopy
      obtain ⟨s₂, hdup, hf⟩ := Option.bind_eq_some_iff.mp hf
      obtain ⟨ip, -, hf⟩ := Option.map_eq_some_iff.mp hf
      obtain ⟨-, rfl⟩ := Prod.mk.inj hf
      simp only [Kernel.setTask, Function.update_self, Function.update_idem] at hdup
      have hs₁ := h.adopt (r := { s.task np with
        pid := s.nextpid
        state := .EMBRYO
        kstack := f
        image := ⟨d, (s.task p).image.sz⟩
        parent := some p
        tf := { (s.task p).tf with eax := 0 } }) hnp (by simp) hka rfl (hheld d rfl).1 hsz
      have hs₁' : Owned { { s with mem := m₁, task := Function.update s.task np _ } with
          nextpid := s.nextpid + 1 } :=
        hs₁.same ⟨fun _ => Iff.rfl, fun _ _ => ⟨rfl, rfl⟩, rfl, rfl⟩ hs₁.clean hs₁.files
      obtain ⟨hs₂, hstate⟩ := dupFiles_owned _ hs₁' hdup
      have hembryo : (s₂.task np).state ≠ .UNUSED := by simp [hstate]
      have hs₃ : Owned (s₂.idup ip) :=
        hs₂.same ⟨fun _ => Iff.rfl, fun _ _ => ⟨rfl, rfl⟩, rfl, rfl⟩ hs₂.clean hs₂.files
      exact hs₃.setTask (iff_of_false (by simp) hembryo) rfl rfl

theorem fileclose_task {i : Fin NFILE} (hc : s.fileclose i = some t) : t.task = s.task := by
  unfold Kernel.fileclose at hc
  dsimp only at hc
  split at hc
  · exact absurd hc (by simp)
  split at hc
  · obtain rfl := Option.some.inj hc
    rfl
  split at hc
  · obtain rfl := Option.some.inj hc
    rfl
  · rename_i p b _
    obtain ⟨x, -, hc⟩ := Option.map_eq_some_iff.mp hc
    change (if (x.shut b).readopen = false ∧ (x.shut b).writeopen = false then _ else _) = t at hc
    split at hc <;> exact hc ▸ rfl
  · obtain rfl := Option.some.inj hc
    rfl

theorem closeFiles_owned (fds : List (Fin NOFILE)) (h : Owned s)
    (hc : Kernel.closeFiles p fds s = some t) :
    Owned t ∧ ∀ q, (t.task q).state = (s.task q).state := by
  induction fds generalizing s with
  | nil =>
    obtain rfl := Option.some.inj hc
    exact ⟨h, fun _ => rfl⟩
  | cons fd fds ih =>
    rw [Kernel.closeFiles] at hc
    split at hc
    · exact ih h hc
    · obtain ⟨s₁, hs₁, hc⟩ := Option.bind_eq_some_iff.mp hc
      obtain ⟨ht, hstate⟩ := ih ((fileclose_owned h hs₁).setFd fd none) hc
      refine ⟨ht, fun q => (hstate q).trans ?_⟩
      rw [setFd_state, fileclose_task hs₁]

theorem exit_owned (h : Owned s) (hp : (s.task p).state ≠ .UNUSED) (he : s.exit p = some t) :
    Owned t := by
  unfold Kernel.exit at he
  split at he
  · exact absurd he (by simp)
  · obtain ⟨s₁, hc, he⟩ := Option.bind_eq_some_iff.mp he
    obtain ⟨ip, -, rfl⟩ := Option.map_eq_some_iff.mp he
    obtain ⟨hs₁, hstate⟩ := closeFiles_owned _ h hc
    have hs₂ : Owned { (s₁.begin_op.iput ip).end_op with
        task := fun q => Kernel.orphan p (s₁.task q) } := by
      refine hs₁.same ⟨fun q => ?_, fun q _ => ?_, rfl, rfl⟩ hs₁.clean hs₁.files
      · dsimp only [Kernel.orphan]
        split <;> rfl
      · dsimp only [Kernel.orphan]
        split <;> exact ⟨rfl, rfl⟩
    refine hs₂.setTask (iff_of_false (by simp) ?_) rfl rfl
    dsimp only [Kernel.orphan]
    split <;> exact (hstate p).trans_ne hp

theorem wait_owned {ret : ℤ} (h : Owned s) (he : s.wait p = some (ret, t)) : Owned t := by
  obtain ⟨q, hq, he⟩ := Option.map_eq_some_iff.mp he
  obtain ⟨-, rfl⟩ := Prod.mk.inj he
  obtain ⟨-, hzombie⟩ : (s.task q).parent = some p ∧ (s.task q).state = .ZOMBIE := by
    simpa using List.find?_some hq
  exact h.reap (by simp [hzombie]) rfl

/-! ### exec.c -/

/-- The pages of the others and of the process are all that have owners. -/
theorem taken_subset : Taken s.holds ⊆ s.others p ∪ (s.cr3 p).frames := by
  rintro f ⟨o, ho⟩
  by_cases hpart : ∃ i, o = .part p i
  · obtain ⟨i, rfl⟩ := hpart
    rw [Kernel.holds] at ho
    split at ho
    · exact absurd ho (by simp)
    · exact Or.inr ⟨i, ho⟩
  · exact Or.inl ⟨o, not_range_part.mpr fun i he => hpart ⟨i, he⟩, ho⟩

theorem Clean.mono {O O' : Set Frame} (h : Clean m O) (hsub : O' ⊆ O) : Clean m O' :=
  ⟨h.nodup, fun f hf => h.elsewhere f (hsub hf)⟩

/-- A string that `fetchstr` accepts is shorter than the user half. -/
theorem Fetched.length {r : Proc} {str : List Byte} (h : Fetched m r str) (hsz : r.sz < KERNBASE) :
    str.length < 0x80000000 := by
  obtain ⟨a, ha, -⟩ := h
  have hlt : r.sz.toNat < 0x80000000 := hsz
  omega

theorem exec_owned {path : List Byte} {argv : List (List Byte)} {ret : Word} (hk : KmapIn w.kmap)
    (h : Owned s) (hp : (s.task p).state ≠ .UNUSED) (hlen : ∀ arg ∈ argv, arg.length < 0x80000000)
    (htidy : Tidy w s p path argv) (hc : s.exec w p path argv = some (ret, t)) : Owned t := by
  have hheld := h.held hp
  rcases exec_tidy hk hheld hlen htidy hc with ⟨-, m, rfl, hclean, -⟩ |
    ⟨-, m, d, sz, name, tf, hnew, hdense, -, rfl⟩
  · exact h.same ⟨fun _ => Iff.rfl, fun _ _ => ⟨rfl, rfl⟩, rfl, rfl⟩ (hclean.mono taken_subset)
      h.files
  · obtain ⟨hclean, -⟩ := freevm_spec (hheld.swap hnew)
    have hnew' : Held (freevm m (s.cr3 p)) d (s.others p) :=
      (hnew.mono Set.subset_union_left).of_clean hclean
    exact h.replace (r := { s.task p with name := name, image := ⟨d, sz⟩, tf := tf }) hp hp rfl
      hnew' hdense.small

/-! ### The rest of the kernel -/

theorem holds_kept {kept : List Frame} {x : Option Frame}
    (hf : (if f ∈ kept then some f else none) = x) (hne : ∀ g, g ≠ f → (g ∈ kept ↔ g ∈ s.kept)) :
    ({ s with mem := m, kept := kept } : Kernel).holds = Function.update s.holds (.kept f) x := by
  funext o
  cases o with
  | part q i => simp [Kernel.holds, Kernel.cr3]
  | kstack q => simp [Kernel.holds]
  | pipe g => simp [Kernel.holds]
  | kept g =>
    rcases eq_or_ne g f with rfl | hg
    · simp [Kernel.holds, hf]
    · simp [Kernel.holds, hg, hne g hg]

theorem take_owned (h : Owned s) (hka : kalloc s.mem = some (f, m)) :
    Owned { s with mem := m, kept := f :: s.kept } := by
  obtain ⟨hnd, htake, hf, -⟩ := kalloc_owns h.nodup h.owns hka
  have hfree : f ∈ s.mem.frees := by
    rw [frees_kalloc hka]
    exact Set.mem_insert _ _
  have hout : f ∉ s.kept := fun hin =>
    h.owns.used (.kept f) f (by simp [Kernel.holds, hin]) hfree
  refine ⟨hnd, ?_, List.nodup_cons.mpr ⟨hout, h.kept⟩, h.kernel, h.small, h.files⟩
  rw [holds_kept (f := f) (x := some f) (by simp) fun g hg => by simp [hg]]
  exact htake.assign hf (by simp [Kernel.holds, hout])

theorem give_owned (h : Owned s) (hf : f ∈ s.kept) :
    Owned { s with mem := kfree s.mem f, kept := s.kept.erase f } := by
  have hholds : s.holds (.kept f) = some f := by simp [Kernel.holds, hf]
  refine ⟨List.nodup_cons.mpr ⟨h.owns.used _ _ hholds, h.nodup⟩, ?_, h.kept.erase f, h.kernel,
    h.small, h.files⟩
  rw [holds_kept (f := f) (x := none) (by simp [h.kept.mem_erase_iff]) fun g hg => by
    simp [h.kept.mem_erase_iff, hg], frees_kfree]
  exact (h.owns.release hholds).put (Set.notMem_empty f)

/-! ### Runs -/

/-- No call of `exec` takes the word at address 0 for a page table entry. -/
def TidyCalls (w : World) (s : Kernel) (a : Call) : Prop :=
  ∀ p path argv, a = .exec p path argv → Tidy w s p path argv

theorem Task.Live.used {r : Task} (h : r.Live) : r.state ≠ .UNUSED := by
  rcases h with h | h | h <;> rw [h] <;> simp

/-- Every call keeps the owners apart. -/
theorem owned_step {a : Call} (hk : KmapIn w.kmap) (h : Owned s) (htidy : TidyCalls w s a)
    (hst : s.Step w a t) : Owned t := by
  have hnext := hst.next
  cases a with
  | growproc p n =>
    have hp := (hst.live p rfl).used
    obtain ⟨⟨ret, m, r⟩, hg, rfl⟩ := Option.map_eq_some_iff.mp hnext
    obtain ⟨hheld, hsz⟩ := growproc_held (h.held hp) (h.small p hp) hg
    exact h.replace (r := { s.task p with image := r }) hp hp rfl hheld hsz
  | fork p =>
    obtain ⟨⟨ret, t⟩, hf, rfl⟩ := Option.map_eq_some_iff.mp hnext
    exact fork_owned hk h (hst.live p rfl).used hf
  | exec p path argv =>
    have hp := (hst.live p rfl).used
    obtain ⟨⟨ret, t⟩, he, rfl⟩ := Option.map_eq_some_iff.mp hnext
    refine exec_owned hk h hp (fun arg harg => ?_) (htidy p path argv rfl) he
    exact (hst.args p path argv rfl arg (List.mem_cons_of_mem path harg)).length (h.small p hp)
  | exit p => exact exit_owned h (hst.live p rfl).used hnext
  | wait p =>
    obtain ⟨⟨ret, t⟩, he, rfl⟩ := Option.map_eq_some_iff.mp hnext
    exact wait_owned h he
  | pipe p =>
    obtain ⟨⟨ret, t⟩, he, rfl⟩ := Option.map_eq_some_iff.mp hnext
    exact sys_pipe_owned h he
  | dup p fd =>
    obtain ⟨⟨ret, t⟩, he, rfl⟩ := Option.map_eq_some_iff.mp hnext
    exact sys_dup_owned h he
  | close p fd =>
    obtain ⟨⟨ret, t⟩, he, rfl⟩ := Option.map_eq_some_iff.mp hnext
    exact sys_close_owned h he
  | user p page =>
    obtain rfl := Option.some.inj hnext
    exact h.same ⟨fun _ => Iff.rfl, fun _ _ => ⟨rfl, rfl⟩, rfl, rfl⟩
      ⟨h.clean.nodup, h.clean.elsewhere⟩ h.files
  | take =>
    obtain ⟨⟨f, m⟩, hka, rfl⟩ := Option.map_eq_some_iff.mp hnext
    exact take_owned h hka
  | give f =>
    obtain ⟨hf, ht⟩ := Option.ite_none_right_eq_some.mp hnext
    obtain rfl := Option.some.inj ht
    exact give_owned h hf

/-- A kernel without processes has no owners. -/
theorem owned_empty (hm : m.freelist.Nodup) : Owned (.empty m) where
  nodup := hm
  owns := by
    have hholds : (Kernel.empty m).holds = fun _ => none := by
      funext o
      cases o <;> simp [Kernel.holds, Kernel.empty, Kernel.unused]
    rw [hholds]
    exact .nobody fun f hf => absurd hf (Set.notMem_empty f)
  kept := List.nodup_nil
  kernel := fun p hp => absurd rfl hp
  small := fun p hp => absurd rfl hp
  files :=
    { idle := fun _ _ => rfl
      end_ := fun f p b hf => absurd hf (by simp [Kernel.empty])
      one := fun f g p b hf => absurd hf (by simp [Kernel.empty]) }

theorem owned_userinit {code : List Byte} (hk : KmapIn w.kmap) (hm : m.freelist.Nodup)
    (hboot : Kernel.userinit w m code = some s) : Owned s := by
  have h := owned_empty hm
  unfold Kernel.userinit at hboot
  rcases allocproc_cases (.empty m) with ⟨-, ha⟩ | ⟨np, hnp, ⟨-, ha⟩ | ⟨f, m₀, hka, ha⟩⟩
  · simp [ha] at hboot
  · simp [ha] at hboot
  · simp only [ha] at hboot
    obtain ⟨hclean, -, -⟩ := kalloc_clean h.clean hka
    obtain ⟨x, m₁, hs, hb⟩ := setupkvm_spec hk.toKmapOk hclean
    cases x with
    | none => simp [hs] at hboot
    | some d =>
      obtain ⟨hheld, -, hempty⟩ := hb
      cases hmem : kalloc m₁ with
      | none => simp [hs, hmem] at hboot
      | some y =>
        obtain ⟨mem, m₂⟩ := y
        obtain ⟨h₂, hf, -⟩ := kalloc_scratch (V := ∅) (m₂.memset mem 0) hheld hmem rfl
          fun g hg => memset_page hg
        rcases mappages_user (w := true) (u := true) h₂ hf (by decide : 0 < UPAGES)
          (hempty 0 (by decide)) with hmap | ⟨m₃, d₃, hmap, h₃, -⟩
        · simp only [hs, hmem, hmap] at hboot
          exact absurd hboot (by simp)
        · simp only [hs, hmem, hmap] at hboot
          obtain ⟨root, -, rfl⟩ := Option.map_eq_some_iff.mp hboot
          have hheld₃ : Held (m₃.write mem 0 code) d₃ (insert f (Taken (Kernel.empty m).holds)) :=
            ⟨h₃.nodup, h₃.owns, h₃.kernel⟩
          have hs₁ := h.adopt (r := { (Kernel.empty m).task np with
            state := .RUNNABLE
            pid := (Kernel.empty m).nextpid
            kstack := f
            image := ⟨d₃, BitVec.ofNat 32 PGSIZE⟩
            tf := { ((Kernel.empty m).task np).tf with esp := BitVec.ofNat 32 PGSIZE }
            cwd := some root }) hnp (by simp) hka rfl hheld₃
            (by decide : BitVec.ofNat 32 PGSIZE < KERNBASE)
          simp only [Kernel.setTask, Kernel.idup, Function.update_self, Function.update_idem]
          exact hs₁.same ⟨fun _ => Iff.rfl, fun _ _ => ⟨rfl, rfl⟩, rfl, rfl⟩
            ⟨hs₁.clean.nodup, hs₁.clean.elsewhere⟩ hs₁.files

end

end Xv6.Memory
