import Xv6.Ftable.Table
import Xv6.Schemes.Ledger
import Mathlib.Algebra.BigOperators.Group.Finset.Basic

/-! @src file.c sysfile.c proc.c | name:Reference counts of the file table are exact | layer:proof

    The count of a file is the number of descriptors that point to it and of the references that
    system calls have in hand. A descriptor is early when it points to a file without a reference
    of its own: `dup` fills one before it calls `filedup`, and `exit` calls `fileclose` before it
    clears one. -/

namespace Xv6.Ftable

open Xv6.Schemes
open Finset

variable {τ π : Type}

/-- The descriptors that point to the file. -/
def slots (o : Fd → Option Ptr) (f : Ptr) : ℕ := ∑ fd, if o fd = some f then 1 else 0

theorem slots_update (o : Fd → Option Ptr) (fd : Fd) (x : Option Ptr) (f : Ptr) :
    slots (Function.update o fd x) f + (if o fd = some f then 1 else 0) =
      slots o f + if x = some f then 1 else 0 :=
  Ledger.sum_update o fd x fun y => if y = some f then 1 else 0

theorem slots_pos {o : Fd → Option Ptr} {fd : Fd} {f : Ptr} (h : o fd = some f) :
    1 ≤ slots o f := by
  have := Ledger.le_sum (fun fd => if o fd = some f then 1 else 0) fd
  rwa [if_pos h] at this

theorem fdalloc_spec {o u : Fd → Option Ptr} {f : Ptr} {fd : Fd} (h : fdalloc o f = some (fd, u)) :
    o fd = none ∧ u = Function.update o fd (some f) := by
  obtain ⟨fd', hfind, he⟩ := Option.map_eq_some_iff.mp h
  obtain ⟨rfl, rfl⟩ := Prod.mk.inj he
  have := List.find?_some hfind
  exact ⟨by simpa using this, rfl⟩

/-! ### References in hand -/

/-- The references that a call has in its local variables. -/
def Pc.refs : Pc τ π → List Ptr
  | .openFd f _ _ _ | .pipeAlloc1 f | .pipeFd1 _ _ f | .forkStore _ _ f _ => [f]
  | .pipeKalloc f0 f1 | .pipeInit f0 f1 _ | .pipeFd0 f0 f1 => [f0, f1]
  | .out | .openAlloc _ _ _ | .openSet _ _ _ _ | .dup _ | .pipeAlloc0 | .io _ _ | .fork _ _
  | .exit _ | .exitClear _ _ => []

def Work.refs : Work π → List Ptr
  | .fileclose f => [f]
  | .last _ | .kfree _ => []

/-- The descriptors that are early, as the files they point to. -/
def Pc.early (o : Fd → Option Ptr) : Pc τ π → List Ptr
  | .dup f => [f]
  | .exitClear fd _ => (o fd).toList
  | _ => []

namespace Proc

/-- The references that the process has in hand. -/
def held (x : Proc τ π) (f : Ptr) : ℕ := (x.pc.refs ++ x.work.flatMap Work.refs).count f

/-- The descriptors of the process that are early. -/
def early (x : Proc τ π) (f : Ptr) : ℕ := (x.pc.early x.ofile).count f

/-- The references that the process should have. -/
def credit (x : Proc τ π) (f : Ptr) : ℕ := slots x.ofile f + x.held f - x.early f

end Proc

/-- The child that is being made by a `fork`. -/
def Pc.child : Pc τ π → Option τ
  | .fork np _ | .forkStore np _ _ _ => some np
  | _ => none

/-- The descriptors that a `fork` has not come to yet. -/
def Pc.left : Pc τ π → List Fd
  | .fork _ fds => fds
  | .forkStore _ fd _ fds => fd :: fds
  | _ => []

/-- What a call knows about the descriptors of its process. -/
def Pc.Knows (o : Fd → Option Ptr) : Pc τ π → Prop
  | .dup f => 2 ≤ slots o f
  | .openSet f _ _ _ | .io f _ => 1 ≤ slots o f
  | .pipeFd1 fd0 rf _ => o fd0 = some rf
  | .exit fds => ∀ fd, fd ∉ fds → o fd = none
  | .exitClear fd fds => o fd ≠ none ∧ ∀ fd', fd' ∉ fd :: fds → o fd' = none
  | _ => True

theorem early_le {x : Proc τ π} (h : x.pc.Knows x.ofile) (f : Ptr) :
    x.early f ≤ slots x.ofile f := by
  unfold Proc.early
  cases hpc : x.pc with
  | dup g =>
    rw [hpc] at h
    have h' : 2 ≤ slots x.ofile g := h
    simp only [Pc.early, List.count_singleton]
    split
    · rename_i he
      obtain rfl : g = f := by simpa using he
      omega
    · exact Nat.zero_le _
  | exitClear fd fds =>
    simp only [Pc.early]
    cases ho : x.ofile fd with
    | none => exact Nat.zero_le _
    | some g =>
      simp only [Option.toList_some, List.count_singleton]
      split
      · rename_i he
        obtain rfl : g = f := by simpa using he
        exact slots_pos ho
      · exact Nat.zero_le _
  | _ => exact Nat.zero_le _

theorem held_eq (x : Proc τ π) (f : Ptr) :
    x.held f = x.pc.refs.count f + (x.work.flatMap Work.refs).count f := List.count_append

theorem credit_eq {x : Proc τ π} (h : x.pc.Knows x.ofile) (f : Ptr) :
    x.credit f + x.early f =
      slots x.ofile f + (x.pc.refs.count f + (x.work.flatMap Work.refs).count f) := by
  have := early_le h f
  rw [← held_eq]
  unfold Proc.credit
  omega

/-! ### What the sections do to the counts -/

section

variable {s t : Sys τ π} {f g : Ptr}

theorem ref_setFile {x : File π} :
    ((s.setFile f x).file g).ref = if f = g then x.ref else (s.file g).ref := by
  unfold Sys.setFile
  rcases eq_or_ne f g with rfl | hne
  · simp
  · simp [hne, hne.symm]

theorem filealloc_spec (h : s.filealloc = some (f, t)) :
    (s.file f).ref = 0 ∧ t = s.setFile f { s.file f with ref := 1 } := by
  obtain ⟨f', hfind, he⟩ := Option.map_eq_some_iff.mp h
  obtain ⟨rfl, rfl⟩ := Prod.mk.inj he
  have := List.find?_some hfind
  exact ⟨by simpa using this, rfl⟩

theorem filealloc_proc (ha : s.filealloc = some (f, t)) : t.proc = s.proc := by
  obtain ⟨-, rfl⟩ := filealloc_spec ha
  rfl

theorem pipeinit_ref [DecidableEq π] (s : Sys τ π) (f0 f1 f : Ptr) (g : π) :
    ((s.pipeinit f0 f1 g).file f).ref = (s.file f).ref := by
  unfold Sys.pipeinit
  rw [ref_setFile]
  split
  · rename_i he
    rw [← he, ref_setFile]
    split <;> simp_all [Sys.setPage]
  · rw [ref_setFile]
    split <;> simp_all [Sys.setPage]

theorem filedup_eq (h : 1 ≤ (s.file f).ref) :
    s.filedup f = s.setFile f { s.file f with ref := (s.file f).ref + 1 } :=
  if_neg (by omega)

/-- Dropping one of several references. -/
theorem drop_eq (h : 1 < (s.file f).ref) :
    s.drop f = (s.setFile f { s.file f with ref := (s.file f).ref - 1 }, none) := by
  unfold Sys.drop
  rw [if_neg (by omega), if_pos (by omega)]

/-- Dropping the last reference. -/
theorem drop_last (h : (s.file f).ref = 1) :
    s.drop f = (s.setFile f { s.file f with ref := 0, type := .FD_NONE },
      some { s.file f with ref := 0 }) := by
  unfold Sys.drop
  rw [if_neg (by omega), if_neg (by omega)]

theorem drop_spec (h : 1 ≤ (s.file f).ref) :
    (s.drop f).1.proc = s.proc ∧ (s.drop f).1.panicked = s.panicked ∧
      ∀ g, ((s.drop f).1.file g).ref + (if f = g then 1 else 0) = (s.file g).ref := by
  rcases Nat.lt_or_ge 1 (s.file f).ref with hlt | hge
  · rw [drop_eq hlt]
    refine ⟨rfl, rfl, fun g => ?_⟩
    dsimp only
    rw [ref_setFile]
    rcases eq_or_ne f g with rfl | hne
    · simp only [if_true]
      omega
    · simp [hne]
  · rw [drop_last (by omega)]
    refine ⟨rfl, rfl, fun g => ?_⟩
    dsimp only
    rw [ref_setFile]
    rcases eq_or_ne f g with rfl | hne
    · simp only [if_true]
      omega
    · simp [hne]

end

section

variable [Fintype τ]

/-- The counts are exact, and the processes are in order. -/
structure Users (s : Sys τ π) : Prop where
  refs : ∀ f, (s.file f).ref = ∑ p, (s.proc p).credit f
  knows : ∀ p, (s.proc p).pc.Knows (s.proc p).ofile
  idle : ∀ p, (s.proc p).life ≠ .RUNNING → (s.proc p).pc = .out ∧ (s.proc p).work = []
  bare : ∀ p, (s.proc p).life = .UNUSED ∨ (s.proc p).life = .ZOMBIE → ∀ fd, (s.proc p).ofile fd = none
  child : ∀ p np, (s.proc p).pc.child = some np → (s.proc np).life = .EMBRYO
  parent : ∀ p q np, (s.proc p).pc.child = some np → (s.proc q).pc.child = some np → p = q
  room : ∀ p np, (s.proc p).pc.child = some np →
    (s.proc p).pc.left.Nodup ∧ ∀ fd ∈ (s.proc p).pc.left, (s.proc np).ofile fd = none

variable [DecidableEq τ] {s t : Sys τ π} {p q np : τ} {x y : Proc τ π} {f : Ptr}

omit [DecidableEq τ] in
/-- A process has no more references than there are. -/
theorem Users.credit_le (h : Users s) (p : τ) (f : Ptr) : (s.proc p).credit f ≤ (s.file f).ref := by
  rw [h.refs f]
  exact Ledger.le_sum (fun p => (s.proc p).credit f) p

/-- Two processes have no more references than there are. -/
theorem Users.credits_le (h : Users s) (hne : p ≠ q) (f : Ptr) :
    (s.proc p).credit f + (s.proc q).credit f ≤ (s.file f).ref := by
  rw [h.refs f]
  exact Ledger.pair_le_sum (fun p => (s.proc p).credit f) hne

/-- One process goes on: it keeps its child, and its references change with the counts. -/
theorem Users.move (h : Users s) (hproc : t.proc = Function.update s.proc p x)
    (hrefs : ∀ f, (t.file f).ref + (s.proc p).credit f = (s.file f).ref + x.credit f)
    (hknows : x.pc.Knows x.ofile) (hlife : x.life = (s.proc p).life)
    (hrun : (s.proc p).life = .RUNNING)
    (hchild : ∀ np, x.pc.child = some np → (s.proc p).pc.child = some np ∧
      x.pc.left.Sublist (s.proc p).pc.left) : Users t := by
  have hother : ∀ {q}, q ≠ p → t.proc q = s.proc q := fun hq => by
    rw [hproc, Function.update_of_ne hq]
  have hself : t.proc p = x := by rw [hproc, Function.update_self]
  have hlives : ∀ q, (t.proc q).life = (s.proc q).life := fun q => by
    rcases eq_or_ne q p with rfl | hq
    · rw [hself, hlife]
    · rw [hother hq]
  have hch : ∀ q np, (t.proc q).pc.child = some np → (s.proc q).pc.child = some np := fun q np hc => by
    rcases eq_or_ne q p with rfl | hq
    · exact (hchild np (hself ▸ hc)).1
    · exact hother hq ▸ hc
  refine ⟨fun f => ?_, fun q => ?_, fun q hq => ?_, fun q hq => ?_, fun q np hc => ?_,
    fun q q' np hc hc' => h.parent q q' np (hch q np hc) (hch q' np hc'), fun q np hc => ?_⟩
  · have hsum := Ledger.sum_update s.proc p x fun y => y.credit f
    have := h.refs f
    have := hrefs f
    rw [hproc]
    omega
  · rcases eq_or_ne q p with rfl | hne
    · rw [hself]
      exact hknows
    · rw [hother hne]
      exact h.knows q
  · have hne : q ≠ p := by
      rintro rfl
      exact hq ((hlives q).trans hrun)
    rw [hother hne] at hq ⊢
    exact h.idle q hq
  · have hne : q ≠ p := by
      rintro rfl
      rw [hlives, hrun] at hq
      simp at hq
    rw [hother hne] at hq ⊢
    exact h.bare q hq
  · rw [hlives]
    exact h.child q np (hch q np hc)
  · have hs := hch q np hc
    have hemb := h.child q np hs
    have hnp : np ≠ p := by
      rintro rfl
      rw [hrun] at hemb
      exact absurd hemb (by simp)
    rw [hother hnp]
    obtain ⟨hnd, hroom⟩ := h.room q np hs
    rcases eq_or_ne q p with rfl | hne
    · rw [hself]
      have hsub := (hchild np (hself ▸ hc)).2
      exact ⟨hsub.nodup hnd, fun fd hfd => hroom fd (hsub.subset hfd)⟩
    · rw [hother hne]
      exact ⟨hnd, hroom⟩

/-! ### The steps -/

variable {work v : List (Work π)} {pc c : Pc τ π} {o u : Fd → Option Ptr} {life : Life}

omit [DecidableEq τ] in
/-- A process that has something to do is running. -/
theorem Users.running (h : Users s) (hx : s.proc p = ⟨life, o, pc, work⟩)
    (hbusy : pc ≠ .out ∨ work ≠ []) : life = .RUNNING := by
  by_contra hne
  have hidle := h.idle p
  rw [hx] at hidle
  obtain ⟨hpc, hwork⟩ := hidle hne
  rcases hbusy with hb | hb
  · exact hb hpc
  · exact hb hwork

omit [DecidableEq τ] in
/-- The process has a reference. -/
theorem Users.has (h : Users s) (hx : s.proc p = ⟨life, o, pc, work⟩)
    (hhas : (pc.early o).count f <
      slots o f + (pc.refs.count f + (work.flatMap Work.refs).count f)) :
    1 ≤ (s.proc p).credit f := by
  have hc := credit_eq (h.knows p) f
  rw [hx] at hc ⊢
  unfold Proc.early at hc
  dsimp only at hc
  omega

omit [DecidableEq τ] in
/-- The process has a reference, so the count is not 0. -/
theorem Users.ref_pos (h : Users s) (hhas : 1 ≤ (s.proc p).credit f) : 1 ≤ (s.file f).ref :=
  hhas.trans (h.credit_le p f)

omit [DecidableEq τ] in
/-- A `fileclose` has the reference that it drops. -/
theorem Users.has_fileclose (h : Users s)
    (hx : s.proc p = ⟨life, o, pc, .fileclose f :: work⟩) : 1 ≤ (s.proc p).credit f := by
  refine h.has hx ?_
  have he := early_le (h.knows p) f
  rw [hx] at he
  unfold Proc.early at he
  rw [List.flatMap_cons, List.count_append, Work.refs, List.count_singleton_self]
  dsimp only at he
  omega

omit [DecidableEq τ] in
/-- A descriptor is a reference, when the call is not at an early one. -/
theorem Users.has_slot (h : Users s) (hx : s.proc p = ⟨life, o, pc, work⟩) {fd : Fd}
    (hfd : o fd = some f) (hearly : pc.early o = []) : 1 ≤ (s.proc p).credit f := by
  refine h.has hx ?_
  have := slots_pos hfd
  rw [hearly, List.count_nil]
  omega

/-- A running process goes on: what it has more is what the counts go up by. -/
theorem Users.go (h : Users s) (hx : s.proc p = ⟨.RUNNING, o, pc, work⟩)
    (hproc : t.proc = Function.update s.proc p ⟨.RUNNING, u, c, v⟩)
    (hknows : c.Knows u)
    (hchild : c.child = none ∨ c.child = pc.child ∧ c.left.Sublist pc.left)
    (hrefs : ∀ g, (t.file g).ref + (slots o g + (pc.refs.count g +
      (work.flatMap Work.refs).count g)) + (c.early u).count g =
        (s.file g).ref + (slots u g + (c.refs.count g +
          (v.flatMap Work.refs).count g)) + (pc.early o).count g) : Users t := by
  refine h.move hproc (fun g => ?_) hknows (by rw [hx]) (by rw [hx]) fun np hc => by
    rw [hx]
    rcases hchild with hno | ⟨he, hsub⟩
    · exact absurd (hno.symm.trans hc) (by simp)
    · exact ⟨he.symm.trans hc, hsub⟩
  have hold := credit_eq (h.knows p) g
  have hnew := credit_eq (x := ⟨.RUNNING, u, c, v⟩) hknows g
  have hr := hrefs g
  rw [hx] at hold ⊢
  unfold Proc.early at hold hnew
  dsimp only at hold hnew
  omega

/-- The section of `fileclose`, when the process has a reference to drop. -/
theorem Users.drop (h : Users s) (hx : s.proc p = ⟨.RUNNING, o, pc, work⟩) (hone : 1 ≤ (s.file f).ref)
    (hproc : t.proc = Function.update s.proc p ⟨.RUNNING, u, c, v⟩)
    (hfile : t.file = (s.drop f).1.file) (hknows : c.Knows u)
    (hchild : c.child = none ∨ c.child = pc.child ∧ c.left.Sublist pc.left)
    (hrefs : ∀ g, slots o g + (pc.refs.count g + (work.flatMap Work.refs).count g) +
      (c.early u).count g = slots u g + (c.refs.count g +
        (v.flatMap Work.refs).count g) + (pc.early o).count g + if f = g then 1 else 0) :
    Users t := by
  refine h.go hx hproc hknows hchild fun g => ?_
  have hd := (drop_spec hone).2.2 g
  have hr := hrefs g
  rw [hfile]
  omega

omit [DecidableEq τ] in
/-- What is done to the pages and to the pipes is nothing to the counts. -/
theorem Users.congr (h : Users s) (hproc : t.proc = s.proc) (hfile : t.file = s.file) : Users t := by
  constructor <;> intro q <;> simp only [hproc, hfile]
  · exact h.refs q
  · exact h.knows q
  · exact h.idle q
  · exact h.bare q
  · exact h.child q
  · exact h.parent q
  · exact h.room q

/-- A call goes on, and nothing has changed that counts. -/
theorem Users.pass (h : Users s) (hx : s.proc p = ⟨.RUNNING, o, pc, work⟩)
    (hproc : t.proc = Function.update s.proc p ⟨.RUNNING, o, c, v⟩)
    (hfile : ∀ g, (t.file g).ref = (s.file g).ref)
    (hknows : c.Knows o)
    (hchild : c.child = none ∨ c.child = pc.child ∧ c.left.Sublist pc.left)
    (hrefs : c.refs ++ v.flatMap Work.refs = pc.refs ++ work.flatMap Work.refs)
    (hearly : c.early o = pc.early o) : Users t := by
  refine h.go hx hproc hknows hchild fun g => ?_
  rw [hfile, hearly, ← List.count_append, ← List.count_append, hrefs]

/-- `filealloc`, when the call has the new reference in hand. -/
theorem Users.alloc (h : Users s) (hx : s.proc p = ⟨.RUNNING, o, pc, work⟩)
    {s' : Sys τ π} (ha : s.filealloc = some (f, s'))
    (hproc : t.proc = Function.update s.proc p ⟨.RUNNING, o, c, work⟩) (hfile : t.file = s'.file)
    (hknows : c.Knows o) (hchild : c.child = none)
    (hrefs : ∀ g, c.refs.count g = pc.refs.count g + if f = g then 1 else 0)
    (hearly : pc.early o = [] ∧ c.early o = []) : Users t := by
  obtain ⟨hz, rfl⟩ := filealloc_spec ha
  refine h.go hx hproc hknows (Or.inl hchild) fun g => ?_
  rw [hfile, ref_setFile, hearly.1, hearly.2, hrefs g, List.count_nil]
  rcases eq_or_ne f g with rfl | hne
  · simp only [if_true]
    omega
  · simp only [if_neg hne]
    omega

/-- `fdalloc`, when the call gives the reference that it has in hand to the new descriptor. -/
theorem Users.install (h : Users s) (hx : s.proc p = ⟨.RUNNING, o, pc, work⟩) {fd : Fd}
    (ho : o fd = none)
    (hproc : t.proc = Function.update s.proc p ⟨.RUNNING, Function.update o fd (some f), c, work⟩)
    (hfile : t.file = s.file) (hknows : c.Knows (Function.update o fd (some f)))
    (hchild : c.child = none)
    (hrefs : ∀ g, pc.refs.count g = c.refs.count g + if f = g then 1 else 0)
    (hearly : pc.early o = [] ∧ c.early (Function.update o fd (some f)) = []) : Users t := by
  refine h.go hx hproc hknows (Or.inl hchild) fun g => ?_
  have hs := slots_update o fd (some f) g
  rw [ho] at hs
  simp only [Option.some.injEq, reduceCtorEq, if_false] at hs
  rw [hfile, hearly.1, hearly.2, hrefs g, List.count_nil]
  omega

/-! ### Processes come and go -/

omit [DecidableEq τ] in
/-- A process that is not an embryo is not being made by a `fork`. -/
theorem Users.grown (h : Users s) (hx : s.proc p = ⟨life, o, pc, work⟩) (hlife : life ≠ .EMBRYO)
    (q : τ) : (s.proc q).pc.child ≠ some p := by
  intro hc
  have := h.child q p hc
  rw [hx] at this
  exact hlife this

/-- The life of a process changes while it is in no call and no `fork` makes it. -/
theorem Users.relife (h : Users s) (hx : s.proc p = ⟨life, o, pc, []⟩) {m : Life}
    (hproc : t.proc = Function.update s.proc p ⟨m, o, .out, []⟩) (hfile : t.file = s.file)
    (hrefs : pc.refs = []) (hearly : pc.early o = [])
    (horphan : ∀ q, (s.proc q).pc.child ≠ some p)
    (hbare : m = .UNUSED ∨ m = .ZOMBIE → ∀ fd, o fd = none) : Users t := by
  have hself : t.proc p = ⟨m, o, .out, []⟩ := by rw [hproc, Function.update_self]
  have hother : ∀ {q}, q ≠ p → t.proc q = s.proc q := fun hq => by
    rw [hproc, Function.update_of_ne hq]
  have hch : ∀ q np, (t.proc q).pc.child = some np → q ≠ p ∧ (s.proc q).pc.child = some np := by
    intro q np hc
    rcases eq_or_ne q p with rfl | hq
    · rw [hself] at hc
      exact absurd hc (by simp [Pc.child])
    · exact ⟨hq, hother hq ▸ hc⟩
  have hnp : ∀ {q np}, (s.proc q).pc.child = some np → np ≠ p := by
    rintro q _ hc rfl
    exact horphan q hc
  constructor
  · intro f
    have hsum := Ledger.sum_update s.proc p ⟨m, o, .out, []⟩ fun y => y.credit f
    have hcredit : (s.proc p).credit f = (⟨m, o, .out, []⟩ : Proc τ π).credit f := by
      rw [hx]
      simp only [Proc.credit, Proc.held, Proc.early, hrefs, hearly]
      rfl
    rw [hfile, h.refs f, hproc]
    omega
  · intro q
    rcases eq_or_ne q p with rfl | hq
    · rw [hself]
      exact trivial
    · rw [hother hq]
      exact h.knows q
  · intro q hq'
    rcases eq_or_ne q p with rfl | hq
    · rw [hself]
      exact ⟨rfl, rfl⟩
    · rw [hother hq] at hq' ⊢
      exact h.idle q hq'
  · intro q hq'
    rcases eq_or_ne q p with rfl | hq
    · rw [hself] at hq' ⊢
      exact hbare hq'
    · rw [hother hq] at hq' ⊢
      exact h.bare q hq'
  · intro q np hc
    obtain ⟨-, hs⟩ := hch q np hc
    rw [hother (hnp hs)]
    exact h.child q np hs
  · exact fun q q' np hc hc' => h.parent q q' np (hch q np hc).2 (hch q' np hc').2
  · intro q np hc
    obtain ⟨hq, hs⟩ := hch q np hc
    rw [hother (hnp hs), hother hq]
    exact h.room q np hs

/-- The end of `exit`. -/
theorem Users.exited (h : Users s) (hx : s.proc p = ⟨.RUNNING, o, .exit [], []⟩) :
    Users (s.setProc p { s.proc p with life := .ZOMBIE, pc := .out }) := by
  have hnone : ∀ fd, o fd = none := by
    have hk := h.knows p
    rw [hx] at hk
    exact fun fd => hk fd List.not_mem_nil
  refine h.relife (m := .ZOMBIE) hx ?_ rfl rfl rfl (h.grown hx (by simp)) fun _ => hnone
  simp only [Sys.setProc, hx]

/-- The end of `fork`: the child is running. -/
theorem Users.born (h : Users s) (hx : s.proc p = ⟨.RUNNING, o, .fork np [], []⟩) :
    Users ((s.setProc np { s.proc np with life := .RUNNING }).goto p .out) := by
  have hc : (s.proc p).pc.child = some np := by
    rw [hx]
    rfl
  have hemb : (s.proc np).life = .EMBRYO := h.child p np hc
  have hne : np ≠ p := by
    rintro rfl
    rw [hx] at hemb
    exact absurd hemb (by simp)
  have hout : Users (s.goto p .out) := by
    refine h.pass (v := []) hx ?_ (fun _ => rfl) (c := .out) trivial (Or.inl rfl) rfl rfl
    simp only [Sys.goto, Sys.setProc, hx]
  obtain ⟨hpc, hwork⟩ := h.idle np (by rw [hemb]; simp)
  have hnp : (s.goto p .out).proc np = ⟨.EMBRYO, (s.proc np).ofile, .out, []⟩ := by
    simp only [Sys.goto, Sys.setProc, Function.update_of_ne hne, ← hemb, ← hpc, ← hwork]
  refine hout.relife (m := .RUNNING) hnp ?_ rfl rfl rfl (fun q hq => ?_) (by simp)
  · simp only [Sys.goto, Sys.setProc, Function.update_of_ne hne.symm, hpc, hwork]
    exact Function.update_comm hne _ _ _
  · rcases eq_or_ne q p with rfl | hqp
    · simp [Sys.goto, Sys.setProc, Pc.child] at hq
    · simp only [Sys.goto, Sys.setProc, Function.update_of_ne hqp] at hq
      exact hqp (h.parent q p np hq hc)

/-- `fork` gives the child a descriptor for the reference it has in hand. -/
theorem Users.inherit (h : Users s) {fd : Fd} {fds : List Fd}
    (hx : s.proc p = ⟨.RUNNING, o, .forkStore np fd f fds, []⟩) :
    Users ((s.setOfile np (Function.update (s.proc np).ofile fd (some f))).goto p (.fork np fds)) := by
  have hc : (s.proc p).pc.child = some np := by
    rw [hx]
    rfl
  have hemb : (s.proc np).life = .EMBRYO := h.child p np hc
  have hrunning : ∀ {q}, (s.proc q).life = .EMBRYO → q ≠ p := by
    rintro q hq rfl
    rw [hx] at hq
    exact absurd hq (by simp)
  have hne : np ≠ p := hrunning hemb
  obtain ⟨hpc, hwork⟩ := h.idle np (by rw [hemb]; simp)
  obtain ⟨hnd, hroom⟩ := h.room p np hc
  rw [hx] at hnd hroom
  have hempty : (s.proc np).ofile fd = none := hroom fd List.mem_cons_self
  generalize ht : (s.setOfile np _).goto p _ = t
  have hproc : t.proc = Function.update
      (Function.update s.proc np ⟨.EMBRYO, Function.update (s.proc np).ofile fd (some f), .out, []⟩)
      p ⟨.RUNNING, o, .fork np fds, []⟩ := by
    rw [← ht]
    simp only [Sys.goto, Sys.setOfile, Sys.setProc, Function.update_of_ne hne.symm, hx, hpc, hwork, hemb]
  have hfile : t.file = s.file := by
    rw [← ht]
    rfl
  have hp : t.proc p = ⟨.RUNNING, o, .fork np fds, []⟩ := by rw [hproc, Function.update_self]
  have hnp : t.proc np = ⟨.EMBRYO, Function.update (s.proc np).ofile fd (some f), .out, []⟩ := by
    rw [hproc, Function.update_of_ne hne, Function.update_self]
  have hother : ∀ {q}, q ≠ p → q ≠ np → t.proc q = s.proc q := fun hq hq' => by
    rw [hproc, Function.update_of_ne hq, Function.update_of_ne hq']
  have hlives : ∀ q, (t.proc q).life = (s.proc q).life := fun q => by
    rcases eq_or_ne q p with rfl | hq
    · rw [hp, hx]
    · rcases eq_or_ne q np with rfl | hq'
      · rw [hnp, hemb]
      · rw [hother hq hq']
  have hch : ∀ q np', (t.proc q).pc.child = some np' → (s.proc q).pc.child = some np' := by
    intro q np' hq
    rcases eq_or_ne q p with rfl | hqp
    · rw [hp] at hq
      rwa [hx]
    · rcases eq_or_ne q np with rfl | hqn
      · rw [hnp] at hq
        exact absurd hq (by simp [Pc.child])
      · rwa [hother hqp hqn] at hq
  refine ⟨fun g => ?_, fun q => ?_, fun q hq => ?_, fun q hq => ?_, fun q np' hq => ?_,
    fun q q' np' hq hq' => h.parent q q' np' (hch q np' hq) (hch q' np' hq'), fun q np' hq => ?_⟩
  · have hsum := Ledger.sum_update (Function.update s.proc np
      ⟨.EMBRYO, Function.update (s.proc np).ofile fd (some f), .out, []⟩) p
      ⟨.RUNNING, o, .fork np fds, []⟩ fun y => y.credit g
    have hsum' := Ledger.sum_update s.proc np
      ⟨.EMBRYO, Function.update (s.proc np).ofile fd (some f), .out, []⟩ fun y => y.credit g
    have hs := slots_update (s.proc np).ofile fd (some f) g
    rw [hempty] at hs
    rw [← hproc, Function.update_of_ne hne.symm, hx] at hsum
    have hr := h.refs g
    rw [hfile, hr]
    have hxcredit : (⟨.RUNNING, o, .forkStore np fd f fds, []⟩ : Proc τ π).credit g =
        (⟨.RUNNING, o, .fork np fds, []⟩ : Proc τ π).credit g + if some f = some g then 1 else 0 := by
      simp [Proc.credit, Proc.held, Proc.early, Pc.refs, Pc.early, List.count_singleton]
    have hycredit : ∀ u : Fd → Option Ptr,
        (⟨.EMBRYO, u, .out, []⟩ : Proc τ π).credit g = slots u g := fun u => by
      simp [Proc.credit, Proc.held, Proc.early, Pc.refs, Pc.early]
    have hold : (s.proc np).credit g = slots (s.proc np).ofile g := by
      rw [← hycredit, ← hemb, ← hpc, ← hwork]
    rw [hycredit, hold] at hsum'
    simp only [reduceCtorEq, if_false] at hs
    omega
  · rcases eq_or_ne q p with rfl | hqp
    · rw [hp]
      exact trivial
    · rcases eq_or_ne q np with rfl | hqn
      · rw [hnp]
        exact trivial
      · rw [hother hqp hqn]
        exact h.knows q
  · rcases eq_or_ne q np with rfl | hqn
    · rw [hnp]
      exact ⟨rfl, rfl⟩
    · have hqp : q ≠ p := by
        rintro rfl
        exact hq (by rw [hp])
      rw [hother hqp hqn] at hq ⊢
      exact h.idle q hq
  · have hqp : q ≠ p := by
      rintro rfl
      rw [hp] at hq
      simp at hq
    have hqn : q ≠ np := by
      rintro rfl
      rw [hnp] at hq
      simp at hq
    rw [hother hqp hqn] at hq ⊢
    exact h.bare q hq
  · rw [hlives]
    exact h.child q np' (hch q np' hq)
  · have hs := hch q np' hq
    have hnp' : np' ≠ p := hrunning (h.child q np' hs)
    rcases eq_or_ne q p with rfl | hqp
    · obtain rfl : np = np' := Option.some.inj (hc.symm.trans hs)
      rw [hp, hnp]
      refine ⟨(List.nodup_cons.mp hnd).2, fun fd' hfd' => ?_⟩
      have hfd : fd' ≠ fd := by
        rintro rfl
        exact (List.nodup_cons.mp hnd).1 hfd'
      dsimp only
      rw [Function.update_of_ne hfd]
      exact hroom fd' (List.mem_cons_of_mem fd hfd')
    · have hnn : np' ≠ np := by
        rintro rfl
        exact hqp (h.parent q p np' hs hc)
      have hqn : q ≠ np := by
        rintro rfl
        rw [hpc] at hs
        exact absurd hs (by simp [Pc.child])
      rw [hother hnp' hnn, hother hqp hqn]
      exact h.room q np' hs

/-- `fork` takes a process that is not in use. -/
theorem Users.adopt (h : Users s) (hx : s.proc p = ⟨.RUNNING, o, .out, []⟩)
    (hnp : (s.proc np).life = .UNUSED) :
    Users ((s.setProc np { s.proc np with life := .EMBRYO }).goto p
      (.fork np (List.finRange NOFILE))) := by
  have hne : np ≠ p := by
    rintro rfl
    rw [hx] at hnp
    exact absurd hnp (by simp)
  obtain ⟨hpc, hwork⟩ := h.idle np (by rw [hnp]; simp)
  have hbare := h.bare np (Or.inl hnp)
  have hy : s.proc np = ⟨.UNUSED, (s.proc np).ofile, .out, []⟩ := by rw [← hnp, ← hpc, ← hwork]
  generalize hs' : s.setProc np { s.proc np with life := .EMBRYO } = s'
  have hproc' : s'.proc = Function.update s.proc np ⟨.EMBRYO, (s.proc np).ofile, .out, []⟩ := by
    rw [← hs']
    simp only [Sys.setProc, hpc, hwork]
  have h' : Users s' := by
    refine h.relife hy hproc' ?_ rfl rfl (h.grown hy (by simp)) (by simp)
    rw [← hs']
    rfl
  have hx' : s'.proc p = ⟨.RUNNING, o, .out, []⟩ := by rw [hproc', Function.update_of_ne hne.symm, hx]
  have hnp' : s'.proc np = ⟨.EMBRYO, (s.proc np).ofile, .out, []⟩ := by
    rw [hproc', Function.update_self]
  have horphan : ∀ q, (s'.proc q).pc.child ≠ some np := by
    intro q hq
    rw [hproc'] at hq
    rcases eq_or_ne q np with rfl | hqn
    · rw [Function.update_self] at hq
      exact absurd hq (by simp [Pc.child])
    · rw [Function.update_of_ne hqn] at hq
      exact h.grown hy (by simp) q hq
  have hother : ∀ {q}, q ≠ p → (s'.goto p (.fork np (List.finRange NOFILE))).proc q = s'.proc q :=
    fun hq => Function.update_of_ne hq _ _
  have hself : (s'.goto p (.fork np (List.finRange NOFILE))).proc p =
      ⟨.RUNNING, o, .fork np (List.finRange NOFILE), []⟩ := by
    simp [Sys.goto, Sys.setProc, hx']
  have hch : ∀ q np', ((s'.goto p (.fork np (List.finRange NOFILE))).proc q).pc.child = some np' →
      (q = p ∧ np' = np) ∨ (q ≠ p ∧ np' ≠ np ∧ (s'.proc q).pc.child = some np') := by
    intro q np' hq
    rcases eq_or_ne q p with rfl | hqp
    · rw [hself] at hq
      exact Or.inl ⟨rfl, (Option.some.inj hq).symm⟩
    · rw [hother hqp] at hq
      refine Or.inr ⟨hqp, ?_, hq⟩
      rintro rfl
      exact horphan q hq
  have hnot : ∀ {q}, ((s'.goto p (.fork np (List.finRange NOFILE))).proc q).life ≠ .RUNNING →
      q ≠ p := by
    rintro q hq rfl
    exact hq (by rw [hself])
  refine ⟨fun g => ?_, fun q => ?_, fun q hq => ?_, fun q hq => ?_, fun q np' hq => ?_,
    fun q q' np' hq hq' => ?_, fun q np' hq => ?_⟩
  · have hsum := Ledger.sum_update s'.proc p ⟨.RUNNING, o, .fork np (List.finRange NOFILE), []⟩
      fun y => y.credit g
    have hc : (s'.proc p).credit g =
        (⟨.RUNNING, o, .fork np (List.finRange NOFILE), []⟩ : Proc τ π).credit g := by
      rw [hx']
      rfl
    have hr := h'.refs g
    simp only [Sys.goto, Sys.setProc, hx']
    omega
  · rcases eq_or_ne q p with rfl | hqp
    · rw [hself]
      exact trivial
    · rw [hother hqp]
      exact h'.knows q
  · have hqp := hnot hq
    rw [hother hqp] at hq ⊢
    exact h'.idle q hq
  · have hqp := hnot (q := q) (by rcases hq with hq | hq <;> rw [hq] <;> simp)
    rw [hother hqp] at hq ⊢
    exact h'.bare q hq
  · rcases hch q np' hq with ⟨rfl, rfl⟩ | ⟨-, -, hs⟩
    · rw [hother hne, hnp']
    · have hemb := h'.child q np' hs
      rwa [hother]
      rintro rfl
      rw [hx'] at hemb
      exact absurd hemb (by simp)
  · rcases hch q np' hq with ⟨rfl, rfl⟩ | ⟨-, hn, hs⟩ <;>
      rcases hch q' _ hq' with ⟨rfl, hn'⟩ | ⟨-, hn', hs'⟩
    · rfl
    · exact absurd rfl hn'
    · exact absurd hn' hn
    · exact h'.parent q q' np' hs hs'
  · rcases hch q np' hq with ⟨rfl, rfl⟩ | ⟨hqp, hn, hs⟩
    · rw [hself, hother hne, hnp']
      exact ⟨List.nodup_finRange NOFILE, fun fd _ => hbare fd⟩
    · have hnp : np' ≠ p := by
        rintro rfl
        have hemb := h'.child q np' hs
        rw [hx'] at hemb
        exact absurd hemb (by simp)
      rw [hother hqp, hother hnp]
      exact h'.room q np' hs

end

theorem pipeclose_frame [DecidableEq π] (s : Sys τ π) (g : π) (w : Bool) :
    (s.pipeclose g w).1.proc = s.proc ∧ (s.pipeclose g w).1.file = s.file := by
  unfold Sys.pipeclose
  split <;> exact ⟨rfl, rfl⟩

theorem kfree_frame [DecidableEq π] (s : Sys τ π) (g : π) :
    (s.kfree g).proc = s.proc ∧ (s.kfree g).file = s.file := by
  unfold Sys.kfree
  split <;> exact ⟨rfl, rfl⟩

theorem access_frame (s : Sys τ π) (g : π) :
    (s.access g).proc = s.proc ∧ (s.access g).file = s.file := by
  unfold Sys.access
  split <;> exact ⟨rfl, rfl⟩

section

variable [Fintype τ] [DecidableEq τ] [DecidableEq π] {s t : Sys τ π} {p q np : τ} {f : Ptr}
  {k : Option π} {w : Work π} {rest work v : List (Work π)} {pc c : Pc τ π}
  {o u : Fd → Option Ptr} {life : Life}

theorem users_runWork (h : Users s) (hx : s.proc p = ⟨life, o, pc, w :: rest⟩) :
    Users (s.runWork p rest w) := by
  obtain rfl : life = .RUNNING := h.running hx (Or.inr (by simp))
  have hk : pc.Knows o := by
    have := h.knows p
    rwa [hx] at this
  have hsame : pc.child = none ∨ pc.child = pc.child ∧ pc.left.Sublist pc.left :=
    Or.inr ⟨rfl, List.Sublist.refl _⟩
  cases w with
  | fileclose f =>
    have hone : 1 ≤ (s.file f).ref := h.ref_pos (h.has_fileclose hx)
    have hcount : ∀ v : List (Work π), v.flatMap Work.refs = rest.flatMap Work.refs → ∀ g,
        slots o g + (pc.refs.count g + ((Work.fileclose f :: rest).flatMap Work.refs).count g) +
          (pc.early o).count g = slots o g + (pc.refs.count g +
            (v.flatMap Work.refs).count g) + (pc.early o).count g + if f = g then 1 else 0 := by
      intro v hw g
      rw [hw, List.flatMap_cons, List.count_append, Work.refs, List.count_singleton]
      simp only [beq_iff_eq]
      omega
    rcases hd : s.drop f with ⟨s', _ | ff⟩
    · have hproc : s'.proc = s.proc := by simpa only [hd] using (drop_spec hone).1
      refine h.drop (t := s.runWork p rest (.fileclose f)) hx hone ?_ ?_ hk hsame (hcount rest rfl)
      · simp only [Sys.runWork, hd, Sys.todo, Sys.setProc, hproc, hx]
      · simp only [Sys.runWork, hd, Sys.todo, Sys.setProc]
    · have hproc : s'.proc = s.proc := by simpa only [hd] using (drop_spec hone).1
      refine h.drop (t := s.runWork p rest (.fileclose f)) hx hone ?_ ?_ hk hsame
        (hcount (.last ff :: rest) rfl)
      · simp only [Sys.runWork, hd, Sys.todo, Sys.setProc, hproc, hx]
      · simp only [Sys.runWork, hd, Sys.todo, Sys.setProc]
  | last ff =>
    have hdone : ∀ {s' : Sys τ π} {v : List (Work π)}, s'.proc = s.proc → s'.file = s.file →
        v.flatMap Work.refs = rest.flatMap Work.refs → Users (s'.todo p v) := by
      intro s' v hproc hfile hw
      refine h.pass (t := s'.todo p v) hx ?_ (fun g => congrArg (fun F => (F g).ref) hfile) hk
        hsame (by rw [hw]; rfl) rfl
      simp only [Sys.todo, Sys.setProc, hproc, hx]
    cases ht : ff.type with
    | FD_PIPE =>
      cases hp : ff.pipe with
      | none =>
        simp only [Sys.runWork, ht, hp]
        exact h.congr rfl rfl
      | some g =>
        have hf := pipeclose_frame s g ff.writable
        rcases hc : s.pipeclose g ff.writable with ⟨s', _ | _⟩
        · rw [hc] at hf
          simp only [Sys.runWork, ht, hp, hc]
          exact hdone hf.1 hf.2 rfl
        · rw [hc] at hf
          simp only [Sys.runWork, ht, hp, hc]
          exact hdone hf.1 hf.2 rfl
    | FD_NONE | FD_INODE =>
      simp only [Sys.runWork, ht]
      exact hdone rfl rfl rfl
  | kfree g =>
    obtain ⟨hproc, hfile⟩ := kfree_frame s g
    have hproc' : ((s.kfree g).todo p rest).proc =
        Function.update s.proc p ⟨.RUNNING, o, pc, rest⟩ := by
      simp only [Sys.todo, Sys.setProc, hproc, hx]
    exact h.pass (t := (s.kfree g).todo p rest) (v := rest) hx hproc'
      (fun g => congrArg (fun F => (F g).ref) hfile) hk hsame rfl rfl

theorem users_runPc (h : Users s) (hx : s.proc p = ⟨life, o, pc, []⟩)
    (hrun : s.runPc p k pc = some t) : Users t := by
  have hlife : pc ≠ .out → life = .RUNNING := fun hpc => h.running hx (Or.inl hpc)
  have hk : pc.Knows o := by
    have := h.knows p
    rwa [hx] at this
  cases pc with
  | out => exact absurd hrun (by simp [Sys.runPc])
  | openAlloc ip r w =>
    obtain rfl := hlife (by simp)
    rcases ha : s.filealloc with _ | ⟨f, s'⟩ <;> simp only [Sys.runPc, ha] at hrun <;> cases hrun
    · refine h.pass (v := []) hx ?_ (fun _ => rfl) (c := .out) trivial (Or.inl rfl) rfl rfl
      simp only [Sys.goto, Sys.setProc, hx]
    · refine h.alloc hx ha (c := .openFd f ip r w) ?_ rfl trivial rfl ?_ ⟨rfl, rfl⟩
      · simp only [Sys.goto, Sys.setProc, filealloc_proc ha, hx]
      · simp [Pc.refs, List.count_singleton]
  | openFd f ip r w =>
    obtain rfl := hlife (by simp)
    have ho : (s.proc p).ofile = o := by rw [hx]
    rcases ha : fdalloc o f with _ | ⟨fd, u⟩ <;> simp only [Sys.runPc, ho, ha] at hrun <;> cases hrun
    · refine h.pass (v := [.fileclose f]) hx ?_ (fun _ => rfl) (c := .out) trivial
        (Or.inl rfl) rfl rfl
      simp [Sys.goto, Sys.todo, Sys.setProc, hx]
    · obtain ⟨ho, rfl⟩ := fdalloc_spec ha
      refine h.install (f := f) hx ho (c := .openSet f ip r w) ?_ rfl ?_ rfl ?_ ⟨rfl, rfl⟩
      · simp [Sys.goto, Sys.setOfile, Sys.setProc, hx]
      · exact slots_pos (Function.update_self fd (some f) o)
      · simp [Pc.refs, List.count_singleton]
  | openSet f ip r w =>
    obtain rfl := hlife (by simp)
    simp only [Sys.runPc] at hrun
    cases hrun
    refine h.pass (v := []) hx ?_ (fun g => ?_) (c := .out) trivial (Or.inl rfl) rfl rfl
    · simp [Sys.goto, Sys.setFile, Sys.setProc, hx]
    · exact ref_setFile.trans (by split <;> simp_all)
  | dup f =>
    obtain rfl := hlife (by simp)
    have hone : 1 ≤ (s.file f).ref := h.ref_pos (h.has hx (by
      have h2 : 2 ≤ slots o f := hk
      simp only [Pc.early, List.count_singleton_self]
      omega))
    simp only [Sys.runPc, filedup_eq hone] at hrun
    cases hrun
    refine h.go (v := []) (u := o) hx ?_ (c := .out) trivial (Or.inl rfl) fun g => ?_
    · simp [Sys.goto, Sys.setFile, Sys.setProc, hx]
    · have hr := ref_setFile (s := s) (f := f) (g := g) (x := { s.file f with ref := (s.file f).ref + 1 })
      simp only [Pc.refs, Pc.early, List.flatMap_nil, List.count_nil, List.count_singleton, beq_iff_eq]
      simp only [Sys.goto, Sys.setProc, hr]
      rcases eq_or_ne f g with rfl | hne
      · simp only [if_true]
        omega
      · simp only [if_neg hne]
  | pipeAlloc0 =>
    obtain rfl := hlife (by simp)
    rcases ha : s.filealloc with _ | ⟨f, s'⟩ <;> simp only [Sys.runPc, ha] at hrun <;> cases hrun
    · refine h.pass (v := []) hx ?_ (fun _ => rfl) (c := .out) trivial (Or.inl rfl) rfl rfl
      simp only [Sys.goto, Sys.setProc, hx]
    · refine h.alloc hx ha (c := .pipeAlloc1 f) ?_ rfl trivial rfl ?_ ⟨rfl, rfl⟩
      · simp only [Sys.goto, Sys.setProc, filealloc_proc ha, hx]
      · simp [Pc.refs, List.count_singleton]
  | pipeAlloc1 f0 =>
    obtain rfl := hlife (by simp)
    rcases ha : s.filealloc with _ | ⟨f, s'⟩ <;> simp only [Sys.runPc, ha] at hrun <;> cases hrun
    · refine h.pass (v := [.fileclose f0]) hx ?_ (fun _ => rfl) (c := .out) trivial
        (Or.inl rfl) rfl rfl
      simp [Sys.goto, Sys.todo, Sys.setProc, hx]
    · refine h.alloc hx ha (c := .pipeKalloc f0 f) ?_ rfl trivial rfl ?_ ⟨rfl, rfl⟩
      · simp only [Sys.goto, Sys.setProc, filealloc_proc ha, hx]
      · simp [Pc.refs, List.count_cons, Nat.add_comm]
  | pipeKalloc f0 f1 =>
    obtain rfl := hlife (by simp)
    cases k with
    | none =>
      simp only [Sys.runPc] at hrun
      cases hrun
      refine h.pass (v := [.fileclose f0, .fileclose f1]) hx ?_ (fun _ => rfl) (c := .out) trivial
        (Or.inl rfl) rfl rfl
      simp [Sys.goto, Sys.todo, Sys.setProc, hx]
    | some g =>
      obtain ⟨-, ht⟩ := Option.ite_none_right_eq_some.mp hrun
      cases ht
      refine h.pass (v := []) hx ?_ (fun _ => rfl) (c := .pipeInit f0 f1 g) trivial (Or.inl rfl)
        rfl rfl
      simp [Sys.goto, Sys.setPage, Sys.setProc, hx]
  | pipeInit f0 f1 g =>
    obtain rfl := hlife (by simp)
    simp only [Sys.runPc] at hrun
    cases hrun
    refine h.pass (v := []) hx ?_ (fun f => ?_) (c := .pipeFd0 f0 f1) trivial (Or.inl rfl) rfl rfl
    · simp [Sys.goto, Sys.pipeinit, Sys.setPage, Sys.setFile, Sys.setProc, hx]
    · exact pipeinit_ref s f0 f1 f g
  | pipeFd0 rf wf =>
    obtain rfl := hlife (by simp)
    have ho : (s.proc p).ofile = o := by rw [hx]
    rcases ha : fdalloc o rf with _ | ⟨fd, u⟩ <;> simp only [Sys.runPc, ho, ha] at hrun <;> cases hrun
    · refine h.pass (v := [.fileclose rf, .fileclose wf]) hx ?_ (fun _ => rfl) (c := .out) trivial
        (Or.inl rfl) rfl rfl
      simp [Sys.goto, Sys.todo, Sys.setProc, hx]
    · obtain ⟨ho, rfl⟩ := fdalloc_spec ha
      refine h.install (f := rf) hx ho (c := .pipeFd1 fd rf wf) ?_ rfl ?_ rfl ?_ ⟨rfl, rfl⟩
      · simp [Sys.goto, Sys.setOfile, Sys.setProc, hx]
      · exact Function.update_self fd (some rf) o
      · simp [Pc.refs, List.count_cons]
  | pipeFd1 fd0 rf wf =>
    obtain rfl := hlife (by simp)
    have ho : (s.proc p).ofile = o := by rw [hx]
    rcases ha : fdalloc o wf with _ | ⟨fd, u⟩ <;> simp only [Sys.runPc, ho, ha] at hrun <;> cases hrun
    · refine h.go (v := [.fileclose rf, .fileclose wf]) (u := Function.update o fd0 none) hx ?_
        (c := .out) trivial (Or.inl rfl) fun g => ?_
      · simp [Sys.goto, Sys.todo, Sys.setOfile, Sys.setProc, hx]
      · have hs := slots_update o fd0 none g
        have h0 : o fd0 = some rf := hk
        simp only [h0, Option.some.injEq, reduceCtorEq, if_false] at hs
        simp [Pc.refs, Pc.early, Work.refs, List.count_cons, Sys.goto, Sys.todo, Sys.setOfile, Sys.setProc]
        omega
    · obtain ⟨ho, rfl⟩ := fdalloc_spec ha
      refine h.install (f := wf) hx ho (c := .out) ?_ rfl trivial rfl ?_ ⟨rfl, rfl⟩
      · simp [Sys.goto, Sys.setOfile, Sys.setProc, hx]
      · simp [Pc.refs, List.count_cons]
  | io f g =>
    obtain rfl := hlife (by simp)
    simp only [Sys.runPc] at hrun
    cases hrun
    obtain ⟨hproc, hfile⟩ := access_frame s g
    refine h.pass (v := []) hx ?_ (fun f => congrArg (fun F => (F f).ref) hfile) (c := .out) trivial
      (Or.inl rfl) rfl rfl
    simp only [Sys.goto, Sys.setProc, hproc, hx]
  | fork np fds =>
    obtain rfl := hlife (by simp)
    have ho : (s.proc p).ofile = o := by rw [hx]
    cases fds with
    | nil =>
      simp only [Sys.runPc] at hrun
      cases hrun
      exact h.born hx
    | cons fd fds =>
      rcases hfd : o fd with _ | f <;> simp only [Sys.runPc, ho, hfd] at hrun
      · cases hrun
        refine h.pass (v := []) hx ?_ (fun _ => rfl) (c := .fork np fds) trivial
          (Or.inr ⟨rfl, List.sublist_cons_self fd fds⟩) rfl rfl
        simp [Sys.goto, Sys.setProc, hx]
      · have hone : 1 ≤ (s.file f).ref := h.ref_pos (h.has_slot hx hfd rfl)
        rw [filedup_eq hone] at hrun
        cases hrun
        refine h.go (v := []) (u := o) hx ?_ (c := .forkStore np fd f fds) trivial
          (Or.inr ⟨rfl, List.Sublist.refl _⟩) fun g => ?_
        · simp [Sys.goto, Sys.setFile, Sys.setProc, hx]
        · have hr := ref_setFile (s := s) (f := f) (g := g)
            (x := { s.file f with ref := (s.file f).ref + 1 })
          simp only [Pc.refs, Pc.early, List.flatMap_nil, List.count_nil, List.count_singleton,
            beq_iff_eq]
          simp only [Sys.goto, Sys.setProc, hr]
          rcases eq_or_ne f g with rfl | hne
          · simp only [if_true]
            omega
          · simp only [if_neg hne]
  | forkStore np fd f fds =>
    obtain rfl := hlife (by simp)
    simp only [Sys.runPc] at hrun
    cases hrun
    exact h.inherit hx
  | exit fds =>
    obtain rfl := hlife (by simp)
    have ho : (s.proc p).ofile = o := by rw [hx]
    cases fds with
    | nil =>
      simp only [Sys.runPc] at hrun
      cases hrun
      exact h.exited hx
    | cons fd fds =>
      rcases hfd : o fd with _ | f <;> simp only [Sys.runPc, ho, hfd] at hrun
      · cases hrun
        refine h.pass (v := []) hx ?_ (fun _ => rfl) (c := .exit fds) (fun fd' hfd' => ?_)
          (Or.inl rfl) rfl rfl
        · simp [Sys.goto, Sys.setProc, hx]
        · rcases eq_or_ne fd' fd with rfl | hne
          · exact hfd
          · exact hk fd' (by simp [hne, hfd'])
      · have hone : 1 ≤ (s.file f).ref := h.ref_pos (h.has_slot hx hfd rfl)
        have hknows : (Pc.exitClear fd fds : Pc τ π).Knows o := ⟨by rw [hfd]; simp, hk⟩
        have hcount : ∀ v : List (Work π), v.flatMap Work.refs = [] → ∀ g,
            slots o g + ((Pc.exit (fd :: fds) : Pc τ π).refs.count g +
              (([] : List (Work π)).flatMap Work.refs).count g) +
                ((Pc.exitClear fd fds : Pc τ π).early o).count g =
              slots o g + ((Pc.exitClear fd fds : Pc τ π).refs.count g +
                (v.flatMap Work.refs).count g) +
                  ((Pc.exit (fd :: fds) : Pc τ π).early o).count g + if f = g then 1 else 0 := by
          intro v hw g
          simp [hw, Pc.refs, Pc.early, hfd, List.count_singleton]
        rcases hd : s.drop f with ⟨s', _ | ff⟩ <;> simp only [hd] at hrun <;> cases hrun
        · have hproc : s'.proc = s.proc := by simpa only [hd] using (drop_spec hone).1
          refine h.drop hx hone ?_ ?_ hknows (Or.inl rfl) (hcount [] rfl)
          · simp [Sys.goto, Sys.setProc, hproc, hx]
          · simp [Sys.goto, Sys.setProc, hd]
        · have hproc : s'.proc = s.proc := by simpa only [hd] using (drop_spec hone).1
          refine h.drop hx hone ?_ ?_ hknows (Or.inl rfl) (hcount [.last ff] rfl)
          · simp [Sys.goto, Sys.todo, Sys.setProc, hproc, hx]
          · simp [Sys.goto, Sys.todo, Sys.setProc, hd]
  | exitClear fd fds =>
    obtain rfl := hlife (by simp)
    have ho : (s.proc p).ofile = o := by rw [hx]
    obtain ⟨hfd, hrest⟩ := hk
    obtain ⟨f, hf⟩ := Option.ne_none_iff_exists'.mp hfd
    simp only [Sys.runPc, ho] at hrun
    cases hrun
    refine h.go (v := []) (u := Function.update o fd none) hx ?_ (c := .exit fds)
      (fun fd' hfd' => ?_) (Or.inl rfl) fun g => ?_
    · simp [Sys.goto, Sys.setOfile, Sys.setProc, hx]
    · rcases eq_or_ne fd' fd with rfl | hne
      · exact Function.update_self ..
      · rw [Function.update_of_ne hne]
        exact hrest fd' (by simp [hne, hfd'])
    · have hs := slots_update o fd none g
      simp only [hf, Option.some.injEq, reduceCtorEq, if_false] at hs
      simp [Pc.refs, Pc.early, hf, List.count_singleton, Sys.goto, Sys.setOfile, Sys.setProc]
      omega

omit [Fintype τ] [DecidableEq τ] [DecidableEq π] in
theorem Sys.Ready.proc_eq (h : s.Ready p) :
    s.proc p = ⟨.RUNNING, (s.proc p).ofile, .out, []⟩ := by
  obtain ⟨hlife, hpc, hwork⟩ := h
  have hpc : (s.proc p).pc = .out := by
    cases hp : (s.proc p).pc <;> rw [hp] at hpc <;> simp [Pc.isOut] at hpc ⊢
  rw [← hlife, ← hpc, ← List.isEmpty_iff.mp hwork]

omit [DecidableEq π] in
theorem users_call (h : Users s) {a : Act τ π} (hready : s.Ready p) (hcall : s.call p a = some t) :
    Users t := by
  have hx := hready.proc_eq
  generalize ho : (s.proc p).ofile = o at hx
  have hgo : ∀ pc : Pc τ π, pc.Knows o → pc.child = none → pc.refs = [] → pc.early o = [] →
      Users (s.goto p pc) := by
    intro pc hk hchild hrefs hearly
    refine h.pass (v := []) hx ?_ (fun _ => rfl) (c := pc) hk (Or.inl hchild) ?_ ?_
    · simp only [Sys.goto, Sys.setProc, hx]
    · rw [hrefs]
      rfl
    · rw [hearly]
      rfl
  cases a with
  | «open» q ip r w =>
    cases hcall
    exact hgo _ trivial rfl rfl rfl
  | dup q fd =>
    rcases hfd : o fd with _ | f <;> simp only [Sys.call, ho, hfd] at hcall
    · cases hcall
      exact h
    rcases ha : fdalloc o f with _ | ⟨fd', u⟩ <;> simp only [ha] at hcall <;> cases hcall
    · exact h
    · obtain ⟨hfree, rfl⟩ := fdalloc_spec ha
      have hs := fun g => slots_update o fd' (some f) g
      simp only [hfree, Option.some.injEq, reduceCtorEq, if_false] at hs
      refine h.go (v := []) (u := Function.update o fd' (some f)) hx ?_ (c := .dup f) ?_
        (Or.inl rfl) fun g => ?_
      · simp [Sys.goto, Sys.setOfile, Sys.setProc, hx]
      · have := hs f
        have := slots_pos hfd
        simp only [if_true] at *
        change 2 ≤ slots (Function.update o fd' (some f)) f
        omega
      · have := hs g
        simp [Pc.refs, Pc.early, List.count_singleton, Sys.goto, Sys.setOfile, Sys.setProc]
        omega
  | close q fd =>
    rcases hfd : o fd with _ | f <;> simp only [Sys.call, ho, hfd] at hcall <;> cases hcall
    · exact h
    · refine h.go (v := [.fileclose f]) (u := Function.update o fd none) hx ?_ (c := .out) trivial
        (Or.inl rfl) fun g => ?_
      · simp [Sys.todo, Sys.setOfile, Sys.setProc, hx]
      · have hs := slots_update o fd none g
        simp only [hfd, Option.some.injEq, reduceCtorEq, if_false] at hs
        simp [Pc.refs, Pc.early, Work.refs, List.count_singleton, Sys.todo, Sys.setOfile, Sys.setProc]
        omega
  | pipe q =>
    cases hcall
    exact hgo _ trivial rfl rfl rfl
  | rw q fd writing =>
    rcases hfd : o fd with _ | f <;> simp only [Sys.call, ho, hfd] at hcall
    · cases hcall
      exact h
    generalize (if writing then (s.file f).writable else (s.file f).readable) = ok at hcall
    cases ok with
    | false =>
      cases hcall
      exact h
    | true =>
      cases ht : (s.file f).type <;> simp only [ht, reduceCtorEq, if_false] at hcall
      · cases hcall
        exact h.congr rfl rfl
      · rcases hp : (s.file f).pipe with _ | g <;> simp only [hp] at hcall <;> cases hcall
        · exact h.congr rfl rfl
        · exact hgo _ (slots_pos hfd) rfl rfl rfl
      · cases hcall
        exact h
  | fork q np =>
    obtain ⟨hnp, ht⟩ := Option.ite_none_right_eq_some.mp hcall
    cases ht
    exact h.adopt hx hnp
  | exit q =>
    cases hcall
    exact hgo _ (fun fd hfd => absurd (List.mem_finRange fd) hfd) rfl rfl rfl
  | run _ _ | touch _ | wait _ | take _ | give _ => exact absurd hcall (by simp [Sys.call])

/-- Every step keeps the counts. -/
theorem users_step (h : Users s) {a : Act τ π} (hst : Sys.Step s a t) : Users t := by
  obtain ⟨-, hst⟩ := Option.ite_none_left_eq_some.mp hst
  cases a with
  | «open» p ip r w =>
    obtain ⟨hready, hcall⟩ := Option.ite_none_right_eq_some.mp hst
    exact users_call h hready hcall
  | dup p fd | close p fd =>
    obtain ⟨hready, hcall⟩ := Option.ite_none_right_eq_some.mp hst
    exact users_call h hready hcall
  | pipe p | exit p =>
    obtain ⟨hready, hcall⟩ := Option.ite_none_right_eq_some.mp hst
    exact users_call h hready hcall
  | rw p fd writing =>
    obtain ⟨hready, hcall⟩ := Option.ite_none_right_eq_some.mp hst
    exact users_call h hready hcall
  | fork p np =>
    obtain ⟨hready, hcall⟩ := Option.ite_none_right_eq_some.mp hst
    exact users_call h hready hcall
  | run p k =>
    have hx : s.proc p = ⟨(s.proc p).life, (s.proc p).ofile, (s.proc p).pc, (s.proc p).work⟩ := rfl
    rcases hw : (s.proc p).work with _ | ⟨w, rest⟩ <;> rw [hw] at hx <;> simp only [hw] at hst
    · exact users_runPc h hx hst
    · cases hst
      exact users_runWork h hx
  | touch p =>
    dsimp only at hst
    split at hst <;> cases hst
    exact h.congr (access_frame s _).1 (access_frame s _).2
  | wait np =>
    obtain ⟨hz, ht⟩ := Option.ite_none_right_eq_some.mp hst
    cases ht
    obtain ⟨hpc, hwork⟩ := h.idle np (by rw [hz]; simp)
    have hx : s.proc np = ⟨.ZOMBIE, (s.proc np).ofile, .out, []⟩ := by rw [← hz, ← hpc, ← hwork]
    refine h.relife (m := .UNUSED) hx ?_ rfl rfl rfl (h.grown hx (by simp))
      fun _ => h.bare np (Or.inr hz)
    simp only [Sys.setProc, hpc, hwork]
  | take g =>
    obtain ⟨-, ht⟩ := Option.ite_none_right_eq_some.mp hst
    cases ht
    exact h.congr rfl rfl
  | give g =>
    obtain ⟨-, ht⟩ := Option.ite_none_right_eq_some.mp hst
    cases ht
    exact h.congr rfl rfl

omit [DecidableEq π] in
theorem users_boot (p : τ) (free : π → Bool) : Users (Sys.boot p free) where
  refs := fun f => (Finset.sum_eq_zero fun q _ => by
    simp [Sys.boot, Proc.credit, Proc.held, Proc.early, Pc.refs, Pc.early, slots]).symm
  knows := fun _ => trivial
  idle := fun _ _ => ⟨rfl, rfl⟩
  bare := fun _ _ _ => rfl
  child := fun _ _ hc => absurd hc (by simp [Sys.boot, Pc.child])
  parent := fun _ _ _ hc => absurd hc (by simp [Sys.boot, Pc.child])
  room := fun _ _ hc => absurd hc (by simp [Sys.boot, Pc.child])

end

end Xv6.Ftable
