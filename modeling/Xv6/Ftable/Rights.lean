import Xv6.Ftable.References
import Xv6.Ftable.Pipes

/-! @src file.c pipe.c sysfile.c | name:Who has the rights to a pipe | layer:proof

    An entry of the file table is of type `FD_NONE` until the call that has allocated it sets it up,
    and this call has the only reference till then. So the right to an end of a pipe stays with one
    entry, goes to the `fileclose` that drops the last reference, and is used up by it. -/

namespace Xv6.Ftable

open Xv6.Schemes

variable {τ π : Type}

/-- The entries that a call has allocated and not set up yet. -/
def Pc.fresh : Pc τ π → List Ptr
  | .openFd f _ _ _ | .openSet f _ _ _ | .pipeAlloc1 f => [f]
  | .pipeKalloc f0 f1 | .pipeInit f0 f1 _ => [f0, f1]
  | _ => []

/-- The file and the pipe that a call reads or writes. -/
def Pc.uses : Pc τ π → Option (Ptr × π)
  | .io f g => some (f, g)
  | _ => none

/-- What a process has in its variables fits the file table. -/
structure Proc.Fits (file : Ptr → File π) (x : Proc τ π) : Prop where
  fresh : ∀ f ∈ x.pc.fresh, (file f).ref = 1 ∧ (file f).type = .FD_NONE
  uses : ∀ f g, x.pc.uses = some (f, g) → (file f).type = .FD_PIPE ∧ (file f).pipe = some g
  last : ∀ ff, .last ff ∈ x.work → ff.type = .FD_PIPE → ff.pipe ≠ none
  tail : ∀ w ∈ x.work.tail, ∃ f, w = .fileclose f
  busy : x.work ≠ [] → x.pc.fresh = [] ∧ x.pc.uses = none ∧ x.pc.right = none

/-- The pipes, the entries of the table and the processes fit together. -/
structure Pipes (s : Sys τ π) : Prop where
  closed : ∀ f, (s.file f).ref = 0 → (s.file f).type = .FD_NONE
  whole : ∀ f, (s.file f).type = .FD_PIPE → (s.file f).pipe ≠ none
  procs : ∀ p, (s.proc p).Fits s.file
  custody : Custody (live s.page) (holds s)
  logged : Logged s.page s.made s.closed s.freed
  safe : s.fault = false

section

variable {file file' : Ptr → File π} {x y : Proc τ π}

theorem Proc.Fits.congr (h : x.Fits file) (hpc : y.pc = x.pc) (hwork : y.work = x.work) :
    y.Fits file where
  fresh := hpc ▸ h.fresh
  uses := hpc ▸ h.uses
  last := hwork ▸ h.last
  tail := hwork ▸ h.tail
  busy := by
    rw [hpc, hwork]
    exact h.busy

theorem Proc.Fits.frame (h : x.Fits file) (hfresh : ∀ f ∈ x.pc.fresh, file' f = file f)
    (huses : ∀ f g, x.pc.uses = some (f, g) →
      (file' f).type = (file f).type ∧ (file' f).pipe = (file f).pipe) : x.Fits file' where
  fresh := fun f hf => by
    rw [hfresh f hf]
    exact h.fresh f hf
  uses := fun f g hf => by
    rw [(huses f g hf).1, (huses f g hf).2]
    exact h.uses f g hf
  last := h.last
  tail := h.tail
  busy := h.busy

/-- A process that is not in the middle of a call. -/
theorem Proc.Fits.idle (file : Ptr → File π) (life : Life) (o : Fd → Option Ptr) {pc : Pc τ π}
    (hfresh : pc.fresh = []) (huses : pc.uses = none) :
    (⟨life, o, pc, []⟩ : Proc τ π).Fits file where
  fresh := fun f hf => absurd hf (by simp [hfresh])
  uses := fun f g hf => absurd (huses.symm.trans hf) (by simp)
  last := fun ff hff => absurd hff List.not_mem_nil
  tail := fun w hw => absurd hw List.not_mem_nil
  busy := fun hne => absurd rfl hne

/-- What is left to do when the first thing is done. -/
theorem Proc.Fits.pop {life : Life} {o : Fd → Option Ptr} {pc : Pc τ π} {w : Work π}
    {rest : List (Work π)} (h : (⟨life, o, pc, w :: rest⟩ : Proc τ π).Fits file) :
    (⟨life, o, pc, rest⟩ : Proc τ π).Fits file where
  fresh := h.fresh
  uses := h.uses
  last := fun ff hff => h.last ff (List.mem_cons_of_mem w hff)
  tail := fun w' hw' => h.tail w' (List.mem_of_mem_tail hw')
  busy := fun _ => h.busy (List.cons_ne_nil w rest)

theorem Proc.Fits.pop_right {life : Life} {o : Fd → Option Ptr} {pc : Pc τ π} {w : Work π}
    {rest : List (Work π)} (h : (⟨life, o, pc, w :: rest⟩ : Proc τ π).Fits file) :
    (⟨life, o, pc, rest⟩ : Proc τ π).right = none := by
  cases rest with
  | nil => exact (h.busy (List.cons_ne_nil w [])).2.2
  | cons w' rest =>
    obtain ⟨f, rfl⟩ := h.tail w' List.mem_cons_self
    rfl

end

section

variable [Fintype τ] [DecidableEq τ] {s t : Sys τ π} {p q : τ} {x : Proc τ π} {y : File π} {f : Ptr}
  {g : π}

omit [DecidableEq τ] in
/-- A process has a reference to the entry that it sets up. -/
theorem Users.credit_fresh (hu : Users s) (hf : f ∈ (s.proc p).pc.fresh) :
    1 ≤ (s.proc p).credit f := by
  have hc := credit_eq (hu.knows p) f
  have hk := hu.knows p
  have hone := List.count_pos_iff.mpr hf
  unfold Proc.early at hc
  cases hpc : (s.proc p).pc with
  | openSet f' ip r w =>
    rw [hpc] at hf hc hk
    obtain rfl := List.mem_singleton.mp hf
    have h1 : 1 ≤ slots (s.proc p).ofile f := hk
    simp only [Pc.early, List.count_nil] at hc
    omega
  | openFd | pipeAlloc1 | pipeKalloc | pipeInit =>
    rw [hpc] at hc hone
    simp only [Pc.early, Pc.refs, List.count_nil] at hc
    simp only [Pc.fresh] at hone
    omega
  | _ =>
    rw [hpc] at hf
    exact absurd hf List.not_mem_nil

omit [DecidableEq τ] in
/-- A process has a reference to the file that it reads or writes. -/
theorem Users.credit_uses (hu : Users s) (hf : (s.proc p).pc.uses = some (f, g)) :
    1 ≤ (s.proc p).credit f := by
  have hc := credit_eq (hu.knows p) f
  have hk := hu.knows p
  unfold Proc.early at hc
  cases hpc : (s.proc p).pc with
  | io f' g' =>
    rw [hpc] at hf hc hk
    obtain ⟨rfl, rfl⟩ := Prod.mk.inj (Option.some.inj hf)
    have h1 : 1 ≤ slots (s.proc p).ofile f' := hk
    simp only [Pc.early, List.count_nil] at hc
    omega
  | _ =>
    rw [hpc] at hf
    exact absurd hf (by simp [Pc.uses])

/-- What a process does to files that it has a reference to, or that nobody has, is nothing to the
    variables of the others. -/
theorem Pipes.others (h : Pipes s) (hu : Users s) {file : Ptr → File π}
    (hfile : ∀ f, file f = s.file f ∨ (((s.file f).ref = 0 ∨ 1 ≤ (s.proc p).credit f) ∧
      (((file f).type = (s.file f).type ∧ (file f).pipe = (s.file f).pipe) ∨ (s.file f).ref ≤ 1)))
    (hq : q ≠ p) : (s.proc q).Fits file := by
  have htwo : ∀ {f}, 1 ≤ (s.proc q).credit f → (s.file f).ref = 0 ∨ 1 ≤ (s.proc p).credit f →
      2 ≤ (s.file f).ref := by
    intro f hcq hown
    have h1 := hu.credit_le q f
    have h2 := hu.credits_le hq f
    omega
  refine (h.procs q).frame (fun f hf => ?_) fun f g hf => ?_
  · rcases hfile f with he | ⟨hown, -⟩
    · exact he
    · have h2 := htwo (hu.credit_fresh hf) hown
      have h1 := ((h.procs q).fresh f hf).1
      omega
  · rcases hfile f with he | ⟨hown, hsame | hone⟩
    · rw [he]
      exact ⟨rfl, rfl⟩
    · exact hsame
    · have h2 := htwo (hu.credit_uses hf) hown
      omega

omit [Fintype τ] [DecidableEq τ] in
/-- A right to close an end is a right to a pipe with that end open. -/
theorem Pipes.pipe_of (h : Pipes s) {i : Ptr ⊕ τ} {w : Bool}
    (hi : holds s i = some (g, .close w)) :
    ∃ id ro wo, s.page g = .pipe id ro wo ∧ (s.page g).gives (.close w) = true := by
  have hlive : (s.page g).gives (.close w) = true := h.custody.live_of hi
  cases hg : s.page g with
  | pipe id ro wo => exact ⟨id, ro, wo, rfl, hg ▸ hlive⟩
  | free | other | taken =>
    rw [hg] at hlive
    exact absurd hlive (by simp [Page.gives])

/-! ### Who holds what afterwards -/

omit [Fintype τ] in
theorem holds_proc (hfile : t.file = s.file) (hproc : t.proc = Function.update s.proc p x) :
    holds t = Function.update (holds s) (.inr p) x.right := by
  unfold holds
  rw [hfile, hproc, ← Sum.elim_update_right]
  congr 1
  exact Function.comp_update Proc.right s.proc p x

omit [Fintype τ] in
theorem holds_file (hfile : t.file = Function.update s.file f y)
    (hproc : t.proc = Function.update s.proc p x) :
    holds t = Function.update (Function.update (holds s) (.inl f) y.entry) (.inr p) x.right := by
  unfold holds
  rw [hfile, hproc, ← Sum.elim_update_left, ← Sum.elim_update_right]
  congr 1
  · exact Function.comp_update File.entry s.file f y
  · exact Function.comp_update Proc.right s.proc p x

/-! ### Moves of one process -/

/-- One process goes on. -/
theorem Pipes.move (h : Pipes s) (hu : Users s) (hproc : t.proc = Function.update s.proc p x)
    (hfile : ∀ f, t.file f = s.file f ∨ (((s.file f).ref = 0 ∨ 1 ≤ (s.proc p).credit f) ∧
      (((t.file f).type = (s.file f).type ∧ (t.file f).pipe = (s.file f).pipe) ∨ (s.file f).ref ≤ 1)))
    (hclosed : ∀ f, (t.file f).ref = 0 → (t.file f).type = .FD_NONE)
    (hwhole : ∀ f, (t.file f).type = .FD_PIPE → (t.file f).pipe ≠ none) (hx : x.Fits t.file)
    (hcustody : Custody (live t.page) (holds t)) (hlogged : Logged t.page t.made t.closed t.freed)
    (hsafe : t.fault = false) : Pipes t where
  closed := hclosed
  whole := hwhole
  procs := fun q => by
    rcases eq_or_ne q p with rfl | hq
    · rw [hproc, Function.update_self]
      exact hx
    · rw [hproc, Function.update_of_ne hq]
      exact h.others hu hfile hq
  custody := hcustody
  logged := hlogged
  safe := hsafe

/-- A process goes on and leaves the files alone. -/
theorem Pipes.leave (h : Pipes s) (hu : Users s) (hproc : t.proc = Function.update s.proc p x)
    (hfile : t.file = s.file) (hx : x.Fits s.file)
    (hcustody : Custody (live t.page) (Function.update (holds s) (.inr p) x.right))
    (hlogged : Logged t.page t.made t.closed t.freed) (hsafe : t.fault = false) : Pipes t := by
  refine h.move hu hproc (fun f => Or.inl (by rw [hfile])) ?_ ?_ ?_ ?_ hlogged hsafe
  · rw [hfile]
    exact h.closed
  · rw [hfile]
    exact h.whole
  · rw [hfile]
    exact hx
  · rwa [holds_proc hfile hproc]

omit [Fintype τ] in
/-- A process goes on with the right that it has. -/
theorem Pipes.pass (h : Pipes s) (hx : x.Fits s.file) (hright : x.right = (s.proc p).right) :
    Pipes (s.setProc p x) where
  closed := h.closed
  whole := h.whole
  procs := fun q => by
    rcases eq_or_ne q p with rfl | hq
    · simpa only [Sys.setProc, Function.update_self] using hx
    · simpa only [Sys.setProc, Function.update_of_ne hq] using h.procs q
  custody := by
    have he : holds s (.inr p) = x.right := hright.symm
    rw [holds_proc (s := s) (t := s.setProc p x) rfl rfl, ← he, Function.update_eq_self]
    exact h.custody
  logged := h.logged
  safe := h.safe

/-- The count of a file changes to one that is not 0. -/
theorem Pipes.count (h : Pipes s) (hu : Users s) {r : ℕ} (hr : r ≠ 0)
    (hown : (s.file f).ref = 0 ∨ 1 ≤ (s.proc p).credit f)
    (hx : x.Fits (Function.update s.file f { s.file f with ref := r }))
    (hright : x.right = (s.proc p).right) :
    Pipes ((s.setFile f { s.file f with ref := r }).setProc p x) := by
  have hentry : ({ s.file f with ref := r } : File π).entry = (s.file f).entry := by
    rcases eq_or_ne (s.file f).ref 0 with hz | hz
    · simp [File.entry, File.right, hz, hr, h.closed f hz]
    · simp [File.entry, File.right, hz, hr]
  refine h.move hu (p := p) (x := x) rfl (fun f' => ?_) (fun f' => ?_) (fun f' => ?_) hx ?_ h.logged
    h.safe
  · rcases eq_or_ne f' f with rfl | hne
    · refine Or.inr ⟨hown, Or.inl ?_⟩
      simp [Sys.setProc, Sys.setFile]
    · exact Or.inl (Function.update_of_ne hne _ _)
  · rcases eq_or_ne f' f with rfl | hne
    · intro hz
      simp [Sys.setProc, Sys.setFile] at hz
      exact absurd hz hr
    · simpa only [Sys.setProc, Sys.setFile, Function.update_of_ne hne] using h.closed f'
  · rcases eq_or_ne f' f with rfl | hne
    · simpa only [Sys.setProc, Sys.setFile, Function.update_self] using h.whole f'
    · simpa only [Sys.setProc, Sys.setFile, Function.update_of_ne hne] using h.whole f'
  · rw [holds_file (s := s) (y := { s.file f with ref := r }) (x := x) rfl rfl, hentry, hright]
    have he : holds s (.inl f) = (s.file f).entry := rfl
    have he' : holds s (.inr p) = (s.proc p).right := rfl
    rw [← he, Function.update_eq_self, ← he', Function.update_eq_self]
    exact h.custody

/-- The last reference to a file is dropped, and its right goes to the process. -/
theorem Pipes.takeDown (h : Pipes s) (hu : Users s) (hone : (s.file f).ref = 1)
    (hcredit : 1 ≤ (s.proc p).credit f)
    (hx : x.Fits (Function.update s.file f { s.file f with ref := 0, type := .FD_NONE }))
    (hnone : (s.proc p).right = none) (hright : x.right = (s.file f).right) :
    Pipes ((s.setFile f { s.file f with ref := 0, type := .FD_NONE }).setProc p x) := by
  refine h.move hu (p := p) (x := x) rfl (fun f' => ?_) (fun f' => ?_) (fun f' => ?_) hx ?_ h.logged
    h.safe
  · rcases eq_or_ne f' f with rfl | hne
    · exact Or.inr ⟨Or.inr hcredit, Or.inr (by omega)⟩
    · exact Or.inl (Function.update_of_ne hne _ _)
  · rcases eq_or_ne f' f with rfl | hne
    · simp [Sys.setProc, Sys.setFile]
    · simpa only [Sys.setProc, Sys.setFile, Function.update_of_ne hne] using h.closed f'
  · rcases eq_or_ne f' f with rfl | hne
    · simp [Sys.setProc, Sys.setFile]
    · simpa only [Sys.setProc, Sys.setFile, Function.update_of_ne hne] using h.whole f'
  · rw [holds_file (s := s) (y := { s.file f with ref := 0, type := .FD_NONE }) (x := x) rfl rfl, hright]
    have he : holds s (.inl f) = (s.file f).right := by simp [holds, File.entry, hone]
    have hp : holds s (.inr p) = none := hnone
    have hgive := h.custody.give (i := .inl f) hp
    rwa [he] at hgive

/-- The section of `fileclose`, with what is left to do afterwards. -/
theorem Pipes.drop (h : Pipes s) (hu : Users s) (hcredit : 1 ≤ (s.proc p).credit f)
    (hnone : (s.proc p).right = none) {v : Option (File π) → List (Work π)} {life : Life}
    {o : Fd → Option Ptr} {pc : Pc τ π} (hpc : pc.fresh = []) (huses : pc.uses = none)
    (hright : (⟨life, o, pc, v none⟩ : Proc τ π).right = none)
    (hsome : ∀ ff, ∃ rest, v (some ff) = .last ff :: rest ∧ (∀ w ∈ rest, ∃ f, w = .fileclose f))
    (hnil : ∀ w ∈ v none, ∃ f, w = .fileclose f) (hinit : pc.right = none) :
    Pipes ((s.drop f).1.setProc p ⟨life, o, pc, v (s.drop f).2⟩) := by
  have hfits : ∀ (file : Ptr → File π) (w : List (Work π)),
      (∀ ff, .last ff ∈ w → ff.type = .FD_PIPE → ff.pipe ≠ none) →
      (∀ w' ∈ w.tail, ∃ f, w' = .fileclose f) → (⟨life, o, pc, w⟩ : Proc τ π).Fits file :=
    fun file w hlast htail => ⟨fun f hf => absurd hf (by simp [hpc]),
      fun f g hf => absurd (huses.symm.trans hf) (by simp), hlast, htail, fun _ => ⟨hpc, huses, hinit⟩⟩
  rcases Nat.lt_or_ge 1 (s.file f).ref with hlt | hge
  · rw [drop_eq hlt]
    refine h.count hu (by omega) (Or.inr hcredit) (hfits _ _ (fun ff hff => ?_) fun w hw => ?_)
      (hright.trans hnone.symm)
    · obtain ⟨f, hf⟩ := hnil _ hff
      cases hf
    · exact hnil w (List.mem_of_mem_tail hw)
  · have hone : (s.file f).ref = 1 := by
      have := hu.ref_pos hcredit
      omega
    rw [drop_last hone]
    obtain ⟨rest, hwork, hrest⟩ := hsome { s.file f with ref := 0 }
    refine h.takeDown hu hone hcredit (hfits _ _ (fun ff hff => ?_) fun w hw => ?_) hnone ?_
    · rw [hwork] at hff
      rcases List.mem_cons.mp hff with he | hff
      · cases he
        exact h.whole f
      · obtain ⟨f, hf⟩ := hrest _ hff
        cases hf
    · rw [hwork] at hw
      exact hrest w hw
    · dsimp only
      rw [hwork]
      rfl

/-- `filealloc`, when the call has the new entry to set up. -/
theorem Pipes.alloc (h : Pipes s) (hu : Users s) {s' : Sys τ π} (ha : s.filealloc = some (f, s'))
    {life : Life} {o : Fd → Option Ptr} {pc c : Pc τ π} (hx : s.proc p = ⟨life, o, pc, []⟩)
    (hfresh : c.fresh = pc.fresh ++ [f]) (huses : c.uses = none) (hright : pc.right = none)
    (hright' : c.right = none) : Pipes (s'.setProc p ⟨life, o, c, []⟩) := by
  obtain ⟨hz, rfl⟩ := filealloc_spec ha
  refine h.count hu one_ne_zero (Or.inl hz) ⟨fun f' hf' => ?_,
    fun f g hf => absurd (huses.symm.trans hf) (by simp), fun ff hff => absurd hff List.not_mem_nil,
    fun w hw => absurd hw List.not_mem_nil, fun hne => absurd rfl hne⟩ ?_
  · dsimp only at hf'
    rw [hfresh] at hf'
    rcases List.mem_append.mp hf' with hold | hnew
    · have hfits := (h.procs p).fresh f' (by rwa [hx])
      have hne : f' ≠ f := by
        rintro rfl
        omega
      rwa [Function.update_of_ne hne]
    · obtain rfl := List.mem_singleton.mp hnew
      rw [Function.update_self]
      exact ⟨rfl, h.closed f' hz⟩
  · rw [hx]
    exact hright'.trans hright.symm

/-- `filedup`, when the process has a reference. -/
theorem Pipes.filedup (h : Pipes s) (hu : Users s) (hcredit : 1 ≤ (s.proc p).credit f) {life : Life}
    {o : Fd → Option Ptr} {pc c : Pc τ π} (hx : s.proc p = ⟨life, o, pc, []⟩)
    (hfresh : c.fresh = []) (huses : c.uses = none) (hright : pc.right = none)
    (hright' : c.right = none) : Pipes ((s.filedup f).setProc p ⟨life, o, c, []⟩) := by
  rw [filedup_eq (hu.ref_pos hcredit)]
  refine h.count hu (Nat.succ_ne_zero _) (Or.inr hcredit) (.idle _ life o hfresh huses) ?_
  rw [hx]
  exact hright'.trans hright.symm

/-- The entry that `open` has allocated is set up. -/
theorem Pipes.openSet (h : Pipes s) (hu : Users s) {ip : ℕ} {r w : Bool} {life : Life}
    {o : Fd → Option Ptr} (hx : s.proc p = ⟨life, o, .openSet f ip r w, []⟩) :
    Pipes ((s.setFile f { s.file f with
      type := .FD_INODE, ip := ip, off := 0, readable := r, writable := w }).setProc p
        ⟨life, o, .out, []⟩) := by
  have hfresh : f ∈ (s.proc p).pc.fresh := by
    rw [hx]
    exact List.mem_singleton_self f
  obtain ⟨hone, hnone⟩ := (h.procs p).fresh f hfresh
  refine h.move hu (p := p) (x := ⟨life, o, .out, []⟩) rfl (fun f' => ?_) (fun f' => ?_) (fun f' => ?_)
    (.idle _ life o rfl rfl) ?_ h.logged h.safe
  · rcases eq_or_ne f' f with rfl | hne
    · exact Or.inr ⟨Or.inr (hu.credit_fresh hfresh), Or.inr (by omega)⟩
    · exact Or.inl (Function.update_of_ne hne _ _)
  · rcases eq_or_ne f' f with rfl | hne
    · simp [Sys.setProc, Sys.setFile, hone]
    · simpa only [Sys.setProc, Sys.setFile, Function.update_of_ne hne] using h.closed f'
  · rcases eq_or_ne f' f with rfl | hne
    · simp [Sys.setProc, Sys.setFile]
    · simpa only [Sys.setProc, Sys.setFile, Function.update_of_ne hne] using h.whole f'
  · have hf : holds s (.inl f) = none := by simp [holds, File.entry, File.right, hnone]
    have hp : holds s (.inr p) = none := by
      simp only [holds, Sum.elim_inr, hx]
      rfl
    rw [holds_file (s := s) (f := f) (p := p) rfl rfl]
    have hentry : ({ s.file f with
        type := .FD_INODE, ip := ip, off := 0, readable := r, writable := w } : File π).entry = none := by
      simp [File.entry, File.right]
    have hright : (⟨life, o, .out, []⟩ : Proc τ π).right = none := rfl
    rw [hentry, hright, ← hf, Function.update_eq_self, hf, ← hp, Function.update_eq_self]
    exact h.custody

/-! ### Moves with a page -/

variable [DecidableEq π] {life : Life} {o : Fd → Option Ptr} {pc : Pc τ π} {rest : List (Work π)}

omit [DecidableEq τ] [DecidableEq π] in
/-- The file has its end of the pipe when it is read or written. -/
theorem Pipes.uses_end (h : Pipes s) (hu : Users s) (huses : (s.proc p).pc.uses = some (f, g)) :
    holds s (.inl f) = some (g, .close (s.file f).writable) := by
  obtain ⟨htype, hpipe⟩ := (h.procs p).uses f g huses
  have hne : (s.file f).ref ≠ 0 := by
    have := hu.ref_pos (hu.credit_uses huses)
    omega
  simp [holds, File.entry, File.right, htype, hpipe, hne]

omit [DecidableEq τ] [DecidableEq π] in
/-- The page is there when a pipe is read or written. -/
theorem Pipes.access_eq (h : Pipes s) (hu : Users s) (huses : (s.proc p).pc.uses = some (f, g)) :
    s.access g = s := by
  obtain ⟨id, ro, wo, hg, -⟩ := h.pipe_of (h.uses_end hu huses)
  simp only [Sys.access, hg]

/-- `pipeclose`: an end is closed, and when it was the last one the page is to be freed. -/
theorem Pipes.pipeclose (h : Pipes s) (hu : Users s) {ff : File π}
    (hx : s.proc p = ⟨life, o, pc, .last ff :: rest⟩) (htype : ff.type = .FD_PIPE)
    (hpipe : ff.pipe = some g) :
    Pipes ((s.pipeclose g ff.writable).1.setProc p
      ⟨life, o, pc, if (s.pipeclose g ff.writable).2 then .kfree g :: rest else rest⟩) := by
  have hfits := h.procs p
  rw [hx] at hfits
  have hi : holds s (.inr p) = some (g, .close ff.writable) := by
    simp [holds, hx, Proc.right, Work.right, File.right, htype, hpipe]
  obtain ⟨id, ro, wo, hg, hopen⟩ := h.pipe_of hi
  have hlogged := h.logged.close hg hopen
  have hretire := h.custody.retire hi
  have hclose : s.pipeclose g ff.writable =
      (({ s with closed := s.closed ++ [(id, ff.writable)] } : Sys τ π).setPage g
        (.pipe id (if ff.writable then ro else false) (if ff.writable then false else wo)),
        !(if ff.writable then ro else false) && !(if ff.writable then false else wo)) := by
    simp only [Sys.pipeclose, hg]
  rw [hg] at hopen
  rw [hclose]
  dsimp only
  generalize hb : (!(if ff.writable then ro else false) && !(if ff.writable then false else wo)) = both
  cases both with
  | false =>
    refine h.leave hu rfl rfl hfits.pop ?_ hlogged h.safe
    have hlive : live (Function.update s.page g (.pipe id (if ff.writable then ro else false)
        (if ff.writable then false else wo))) = live s.page \ {(g, .close ff.writable)} := by
      refine live_update (fun k => ?_) fun g' hne k => by simp [mem_live, hne]
      simp only [mem_live, Set.mem_sdiff, Set.mem_singleton_iff, Prod.mk.injEq, true_and, hg]
      cases hw : ff.writable <;> simp only [hw] at hb hopen ⊢ <;> cases k <;>
        simp_all [Page.gives]
    simp only [Bool.false_eq_true, if_false, hfits.pop_right]
    rw [← hlive] at hretire
    exact hretire
  | true =>
    have hkfree : (⟨life, o, pc, .kfree g :: rest⟩ : Proc τ π).Fits s.file :=
      ⟨hfits.fresh, hfits.uses, fun ff' hff' => hfits.pop.last ff' (by simpa using hff'), hfits.tail,
        fun _ => hfits.busy (List.cons_ne_nil _ _)⟩
    refine h.leave hu rfl rfl hkfree ?_ hlogged h.safe
    have hlive : live (Function.update s.page g (.pipe id (if ff.writable then ro else false)
        (if ff.writable then false else wo))) =
          insert (g, .free) (live s.page \ {(g, .close ff.writable)}) := by
      refine live_update (fun k => ?_) fun g' hne k => by simp [mem_live, hne]
      simp only [mem_live, Set.mem_insert_iff, Set.mem_sdiff, Set.mem_singleton_iff, Prod.mk.injEq,
        true_and, hg]
      cases hw : ff.writable <;> simp only [hw] at hb hopen ⊢ <;> cases k <;>
        simp_all [Page.gives]
    have hissue := hretire.issue (r := (g, .free)) (i := .inr p) (fun hmem => ?_)
      (Function.update_self ..)
    · rw [← hlive, Function.update_idem] at hissue
      exact hissue
    · have hfree : (s.page g).gives .free = true := hmem.1
      rw [hg] at hfree
      cases hw : ff.writable <;> simp [hw, Page.gives] at hb hopen hfree <;> simp_all

/-- `kfree` at the end of `pipeclose`. -/
theorem Pipes.kfree (h : Pipes s) (hu : Users s) (hx : s.proc p = ⟨life, o, pc, .kfree g :: rest⟩) :
    Pipes ((s.kfree g).setProc p ⟨life, o, pc, rest⟩) := by
  have hfits := h.procs p
  rw [hx] at hfits
  have hi : holds s (.inr p) = some (g, .free) := by
    simp [holds, hx, Proc.right, Work.right]
  have hboth : (s.page g).gives .free = true := h.custody.live_of hi
  have hretire := h.custody.retire hi
  cases hg : s.page g with
  | pipe id ro wo =>
    have hkfree : s.kfree g = ({ s with freed := s.freed ++ [id] } : Sys τ π).setPage g .free := by
      simp only [Sys.kfree, hg]
    rw [hkfree]
    refine h.leave hu rfl rfl hfits.pop ?_ (h.logged.free hg hboth) h.safe
    have hlive : live (Function.update s.page g .free) = live s.page \ {(g, .free)} := by
      refine live_update (fun k => ?_) fun g' hne k => by simp [mem_live, hne]
      rw [hg] at hboth
      simp only [mem_live, Set.mem_sdiff, Set.mem_singleton_iff, Prod.mk.injEq, true_and, hg]
      cases k <;> simp_all [Page.gives]
    rw [hfits.pop_right]
    rw [← hlive] at hretire
    exact hretire
  | free | other | taken =>
    rw [hg] at hboth
    exact absurd hboth (by simp [Page.gives])

/-- `pipealloc` gets a page. -/
theorem Pipes.kalloc (h : Pipes s) (hu : Users s) {f0 f1 : Ptr}
    (hx : s.proc p = ⟨life, o, .pipeKalloc f0 f1, []⟩) (hfree : s.page g = .free) :
    Pipes ((s.setPage g .taken).setProc p ⟨life, o, .pipeInit f0 f1 g, []⟩) := by
  have hfits := h.procs p
  rw [hx] at hfits
  have hnone : holds s (.inr p) = none := by
    simp only [holds, Sum.elim_inr, hx]
    rfl
  have hdead : (g, .init) ∉ live s.page := by
    intro hmem
    have hgives : (s.page g).gives .init = true := hmem
    rw [hfree] at hgives
    exact absurd hgives (by simp [Page.gives])
  have hissue := h.custody.issue hdead hnone
  have hlive : live (Function.update s.page g .taken) = insert (g, .init) (live s.page) := by
    refine live_update (fun k => ?_) fun g' hne k => by simp [mem_live, hne]
    simp only [mem_live, Set.mem_insert_iff, Prod.mk.injEq, true_and, hfree]
    cases k <;> simp [Page.gives]
  rw [← hlive] at hissue
  refine h.leave (t := (s.setPage g .taken).setProc p _) hu rfl rfl
    ⟨hfits.fresh, fun _ _ hf => absurd hf (by simp [Pc.uses]), hfits.last, hfits.tail,
      fun hne => absurd rfl hne⟩ hissue (h.logged.other ?_ ?_) h.safe
  · simp [hfree]
  · simp

omit [DecidableEq τ] [DecidableEq π] in
/-- The two entries of a new pipe are not the same. -/
theorem Users.ends_ne (h : Pipes s) (hu : Users s) {f0 f1 : Ptr}
    (hx : s.proc p = ⟨life, o, .pipeInit f0 f1 g, []⟩) : f0 ≠ f1 := by
  rintro rfl
  have hone : (s.file f0).ref = 1 :=
    ((h.procs p).fresh f0 (by rw [hx]; exact List.mem_cons_self)).1
  have hle := hu.credit_le p f0
  have hc := credit_eq (hu.knows p) f0
  rw [hx] at hle hc
  unfold Proc.early at hc
  simp only [Pc.early, Pc.refs, List.count_nil, List.count_cons_self, List.flatMap_nil] at hc
  omega

/-- `pipealloc` makes its page a pipe, and its two entries the ends. -/
theorem Pipes.pipeinit (h : Pipes s) (hu : Users s) {f0 f1 : Ptr}
    (hx : s.proc p = ⟨life, o, .pipeInit f0 f1 g, []⟩) :
    Pipes ((s.pipeinit f0 f1 g).setProc p ⟨life, o, .pipeFd0 f0 f1, []⟩) := by
  have hne : f0 ≠ f1 := Users.ends_ne h hu hx
  have hmem : ∀ f, f = f0 ∨ f = f1 → f ∈ (s.proc p).pc.fresh := by
    intro f hf
    rw [hx]
    simpa [Pc.fresh] using hf
  have hfresh : ∀ f, f = f0 ∨ f = f1 → (s.file f).ref = 1 ∧ (s.file f).type = .FD_NONE :=
    fun f hf => (h.procs p).fresh f (hmem f hf)
  have hown : ∀ f, f = f0 ∨ f = f1 → 1 ≤ (s.proc p).credit f := fun f hf =>
    hu.credit_fresh (hmem f hf)
  have hi : holds s (.inr p) = some (g, .init) := by
    simp [holds, hx, Proc.right, Pc.right]
  have htaken : s.page g = .taken := by
    have hgives : (s.page g).gives .init = true := h.custody.live_of hi
    cases hg : s.page g with
    | taken => rfl
    | pipe | free | other =>
      rw [hg] at hgives
      exact absurd hgives (by simp [Page.gives])
  have hfile : ((s.pipeinit f0 f1 g).setProc p ⟨life, o, .pipeFd0 f0 f1, []⟩).file =
      Function.update (Function.update s.file f0 { s.file f0 with
        type := .FD_PIPE, readable := true, writable := false, pipe := some g }) f1
        { s.file f1 with type := .FD_PIPE, readable := false, writable := true, pipe := some g } := by
    simp [Sys.setProc, Sys.pipeinit, Sys.setFile, Sys.setPage, hne.symm]
  have hcases : ∀ f, (f = f0 ∨ f = f1) ∨
      ((s.pipeinit f0 f1 g).setProc p ⟨life, o, .pipeFd0 f0 f1, []⟩).file f = s.file f := by
    intro f
    by_cases hf : f = f0 ∨ f = f1
    · exact Or.inl hf
    · rw [not_or] at hf
      rw [hfile, Function.update_of_ne hf.2, Function.update_of_ne hf.1]
      exact Or.inr rfl
  have hset : ∀ f, f = f0 ∨ f = f1 →
      (((s.pipeinit f0 f1 g).setProc p ⟨life, o, .pipeFd0 f0 f1, []⟩).file f).ref = 1 ∧
        (((s.pipeinit f0 f1 g).setProc p ⟨life, o, .pipeFd0 f0 f1, []⟩).file f).pipe = some g := by
    rintro f (rfl | rfl)
    · rw [hfile, Function.update_of_ne hne, Function.update_self]
      exact ⟨(hfresh f (Or.inl rfl)).1, rfl⟩
    · rw [hfile, Function.update_self]
      exact ⟨(hfresh f (Or.inr rfl)).1, rfl⟩
  refine h.move hu (p := p) (x := ⟨life, o, .pipeFd0 f0 f1, []⟩) rfl (fun f => ?_) (fun f => ?_)
    (fun f => ?_) (.idle _ life o rfl rfl) ?_ ?_ h.safe
  · rcases hcases f with hf | hf
    · exact Or.inr ⟨Or.inr (hown f hf), Or.inr (hfresh f hf).1.le⟩
    · exact Or.inl hf
  · rcases hcases f with hf | hf
    · rw [(hset f hf).1]
      exact fun h1 => absurd h1 (by simp)
    · rw [hf]
      exact h.closed f
  · rcases hcases f with hf | hf
    · rw [(hset f hf).2]
      exact fun _ => by simp
    · rw [hf]
      exact h.whole f
  · have hentry : ∀ f, f = f0 ∨ f = f1 → holds s (.inl f) = none := fun f hf => by
      simp [holds, File.entry, File.right, (hfresh f hf).2]
    have hretire := h.custody.retire hi
    have hread := hretire.issue (r := (g, .close false)) (i := .inl f0)
      (by simp [mem_live, htaken, Page.gives])
      (by rw [Function.update_of_ne (by simp), hentry f0 (Or.inl rfl)])
    have hwrite := hread.issue (r := (g, .close true)) (i := .inl f1)
      (by simp [mem_live, htaken, Page.gives])
      (by rw [Function.update_of_ne (by simpa using hne.symm), Function.update_of_ne (by simp),
        hentry f1 (Or.inr rfl)])
    have hlive : live (Function.update s.page g (.pipe s.made true true)) =
        insert (g, .close true) (insert (g, .close false) (live s.page \ {(g, .init)})) := by
      refine live_update (fun k => ?_) fun g' hg' k => by simp [mem_live, hg']
      simp only [mem_live, Set.mem_insert_iff, Set.mem_sdiff, Set.mem_singleton_iff, Prod.mk.injEq,
        true_and, htaken]
      cases k with
      | close w => cases w <;> simp [Page.gives]
      | free | init => simp [Page.gives]
    have hholds : holds ((s.pipeinit f0 f1 g).setProc p ⟨life, o, .pipeFd0 f0 f1, []⟩) =
        Function.update (Function.update (Function.update (holds s) (.inr p) none) (.inl f0)
          (some (g, .close false))) (.inl f1) (some (g, .close true)) := by
      funext i
      cases i with
      | inl f =>
        change (((s.pipeinit f0 f1 g).setProc p _).file f).entry = _
        rw [hfile]
        have hopened : ∀ x : File π, x.ref = 1 → x.type = .FD_PIPE →
            x.entry = x.pipe.map fun g => (g, .close x.writable) := by
          intro x href htype
          rw [File.entry, if_neg (by omega), File.right, if_pos htype]
        rcases eq_or_ne f f1 with rfl | hf1
        · rw [Function.update_self, Function.update_self]
          exact hopened _ (hfresh f (Or.inr rfl)).1 rfl
        rw [Function.update_of_ne hf1, Function.update_of_ne (fun he => hf1 (Sum.inl.inj he))]
        rcases eq_or_ne f f0 with rfl | hf0
        · rw [Function.update_self, Function.update_self]
          exact hopened _ (hfresh f (Or.inl rfl)).1 rfl
        · rw [Function.update_of_ne hf0, Function.update_of_ne (fun he => hf0 (Sum.inl.inj he)),
            Function.update_of_ne (by simp)]
          rfl
      | inr q =>
        rw [Function.update_of_ne (by simp), Function.update_of_ne (by simp)]
        change (Function.update s.proc p _ q).right = _
        rcases eq_or_ne q p with rfl | hq
        · rw [Function.update_self, Function.update_self]
          rfl
        · rw [Function.update_of_ne hq, Function.update_of_ne (fun he => hq (Sum.inr.inj he))]
          rfl
    rw [hholds]
    have hpage : ((s.pipeinit f0 f1 g).setProc p ⟨life, o, .pipeFd0 f0 f1, []⟩).page =
        Function.update s.page g (.pipe s.made true true) := rfl
    rw [hpage, hlive]
    exact hwrite
  · exact h.logged.make (by simp [htaken])

end

end Xv6.Ftable
