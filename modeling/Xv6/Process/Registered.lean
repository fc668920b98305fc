import Xv6.Process.Table
import Xv6.Schemes.Run

/-! @src proc.c exec.c trap.c | name:A registered scheduler belongs to the running image | layer:proof

    `allocproc` resets the field `scheduler`, and `exec` does not. So the field holds an address of
    the running image in every state of a run iff each commit of `exec` in it finds the field reset
    already. -/

namespace Xv6.Process
open Xv6.Schemes
open Xv6.Schemes.X86 (Word)

/-- The running image has passed the registered address to `uthread_init`. -/
def Proc.Own (r : Proc) : Prop := r.scheduler ≠ -1 → r.scheduler ∈ r.passed

instance (r : Proc) : Decidable r.Own := inferInstanceAs (Decidable (_ → _))

/-- Every process has registered its own addresses only. -/
def Registered (s : Sys) : Prop := ∀ p, (s.proc p).state ≠ .UNUSED → (s.proc p).Own

instance (s : Sys) : Decidable (Registered s) := inferInstanceAs (Decidable (∀ _, _ → _))

/-- A timer interrupt writes no address of an earlier image into the user `%eip`. -/
def ForcesOwn (s : Sys) (a : Act) : Prop :=
  ∀ c p, a = .timer c → s.cpu c = some p → Forces (s.proc p).scheduler (tick (c = 0) s.ticks) →
    (s.proc p).scheduler ∈ (s.proc p).passed

/-- `exec` commits to the new image only while no scheduler is registered. -/
def CommitsReset (s : Sys) : Act → Prop
  | .run c (.execCommit _ _) => ∀ p, s.cpu c = some p → (s.proc p).scheduler = -1
  | _ => True

/-- What the processors and `fork` rely on, and `Registered`. -/
structure Inv (s : Sys) : Prop where
  running : ∀ c p, s.cpu c = some p → (s.proc p).state = .RUNNING
  alone : ∀ c d p, s.cpu c = some p → s.cpu d = some p → c = d
  embryo : ∀ p np, (s.proc p).place.child = some np → (s.proc np).state = .EMBRYO
  forker : ∀ p q np, (s.proc p).place.child = some np → (s.proc q).place.child = some np → p = q
  owned : Registered s

theorem inv_boot : Inv Sys.boot where
  running := fun _ _ h => by simp [Sys.boot] at h
  alone := fun _ _ _ h => by simp [Sys.boot] at h
  embryo := by
    intro p np h
    rcases eq_or_ne p Sys.initproc with rfl | hne
    · simp [Sys.boot, Sys.unused, Place.child] at h
    · simp [Sys.boot, Sys.unused, Place.child, hne] at h
  forker := by
    intro p q np h
    rcases eq_or_ne p Sys.initproc with rfl | hne
    · simp [Sys.boot, Sys.unused, Place.child] at h
    · simp [Sys.boot, Sys.unused, Place.child, hne] at h
  owned := by
    intro p h
    rcases eq_or_ne p Sys.initproc with rfl | hne
    · simp [Sys.boot, Proc.Own]
    · simp [Sys.boot, Sys.unused, hne] at h

section Preserved

variable {s t : Sys} {c : Fin NCPU} {p np q : Slot} {f : Proc → Proc}

@[simp] theorem modify_cpu : (s.modify p f).cpu = s.cpu := rfl

@[simp] theorem modify_self : (s.modify p f).proc p = f (s.proc p) := by simp [Sys.modify]

@[simp] theorem modify_of_ne (h : q ≠ p) : (s.modify p f).proc q = s.proc q := by
  simp [Sys.modify, h]

/-- What another process, or an interrupt, may do to the record of a process: wake it up. -/
def Woken (r r' : Proc) : Prop :=
  (r'.state = r.state ∨ r.state = .SLEEPING ∧ r'.state = .RUNNABLE) ∧
    r'.scheduler = r.scheduler ∧ r'.passed = r.passed ∧ r'.place = r.place

theorem Woken.rfl' (r : Proc) : Woken r r := ⟨Or.inl rfl, rfl, rfl, rfl⟩

/-- Waking processes up keeps the invariant. -/
theorem Inv.woken (h : Inv s) (hcpu : t.cpu = s.cpu) (hw : ∀ q, Woken (s.proc q) (t.proc q)) :
    Inv t where
  running := fun c p hp => by
    have hs := h.running c p (hcpu ▸ hp)
    rcases (hw p).1 with he | ⟨hsl, -⟩
    · exact he.trans hs
    · exact absurd (hs.symm.trans hsl) (by decide)
  alone := hcpu ▸ h.alone
  embryo := fun p np hp => by
    have hs := h.embryo p np ((hw p).2.2.2 ▸ hp)
    rcases (hw np).1 with he | ⟨hsl, -⟩
    · exact he.trans hs
    · exact absurd (hs.symm.trans hsl) (by decide)
  forker := fun p q np hp hq => h.forker p q np ((hw p).2.2.2 ▸ hp) ((hw q).2.2.2 ▸ hq)
  owned := fun p hp => by
    have hs : (s.proc p).state ≠ .UNUSED := by
      rcases (hw p).1 with he | ⟨hsl, -⟩
      · exact fun hu => hp (he.trans hu)
      · simp [hsl]
    have := h.owned p hs
    unfold Proc.Own at this ⊢
    rwa [(hw p).2.1, (hw p).2.2.1]

/-- A statement of a current process that stays current keeps the invariant. -/
theorem Inv.stays (h : Inv s) (hp : s.cpu c = some p) (hstate : (f (s.proc p)).state = .RUNNING)
    (hchild : ∀ np, (f (s.proc p)).place.child = some np → (s.proc p).place.child = some np)
    (hown : (f (s.proc p)).Own) : Inv (s.modify p f) := by
  have hrun := h.running c p hp
  have hst : ∀ q, ((s.modify p f).proc q).state = (s.proc q).state := by
    intro q
    rcases eq_or_ne q p with rfl | hne
    · rw [modify_self, hstate, hrun]
    · rw [modify_of_ne hne]
  have hch : ∀ q np, ((s.modify p f).proc q).place.child = some np →
      (s.proc q).place.child = some np := by
    intro q np hq
    rcases eq_or_ne q p with rfl | hne
    · exact hchild np (by rwa [modify_self] at hq)
    · rwa [modify_of_ne hne] at hq
  constructor
  · exact fun d q hq => (hst q).trans (h.running d q hq)
  · exact h.alone
  · exact fun q np hq => (hst np).trans (h.embryo q np (hch q np hq))
  · exact fun q r np hq hr => h.forker q r np (hch q np hq) (hch r np hr)
  · intro q hq
    rcases eq_or_ne q p with rfl | hne
    · rwa [modify_self]
    · rw [hst] at hq
      rw [modify_of_ne hne]
      exact h.owned q hq

/-- So does one by which it gives up the processor. -/
theorem Inv.leaves (h : Inv s) (hp : s.cpu c = some p) (hplace : (f (s.proc p)).place = (s.proc p).place)
    (hsched : (f (s.proc p)).scheduler = (s.proc p).scheduler)
    (hpassed : (f (s.proc p)).passed = (s.proc p).passed) : Inv (s.leave c p f) := by
  have hrun := h.running c p hp
  have hcpu : ∀ d q, (s.leave c p f).cpu d = some q → s.cpu d = some q ∧ q ≠ p := by
    intro d q hq
    rcases eq_or_ne d c with rfl | hne
    · simp [Sys.leave] at hq
    · replace hq : s.cpu d = some q := by simpa [Sys.leave, hne] using hq
      refine ⟨hq, ?_⟩
      rintro rfl
      exact hne (h.alone d c q hq hp)
  have hproc : ∀ q, q ≠ p → (s.leave c p f).proc q = s.proc q := fun q hq => modify_of_ne hq
  have hself : (s.leave c p f).proc p = f (s.proc p) := modify_self
  have hch : ∀ q, ((s.leave c p f).proc q).place = (s.proc q).place := by
    intro q
    rcases eq_or_ne q p with rfl | hne
    · rw [hself, hplace]
    · rw [hproc q hne]
  constructor
  · intro d q hq
    obtain ⟨hq, hne⟩ := hcpu d q hq
    rw [hproc q hne]
    exact h.running d q hq
  · exact fun d e q hd he => h.alone d e q (hcpu d q hd).1 (hcpu e q he).1
  · intro q np hq
    have hs := h.embryo q np (hch q ▸ hq)
    have hne : np ≠ p := by
      rintro rfl
      exact absurd (hs.symm.trans hrun) (by decide)
    rwa [hproc np hne]
  · exact fun q r np hq hr => h.forker q r np (hch q ▸ hq) (hch r ▸ hr)
  · intro q hq
    rcases eq_or_ne q p with rfl | hne
    · have := h.owned q (by simp [hrun])
      rw [hself]
      unfold Proc.Own at this ⊢
      rwa [hsched, hpassed]
    · rw [hproc q hne] at hq ⊢
      exact h.owned q hq

/-- A slot no processor runs and no `fork` is filling may change its state. -/
theorem Inv.idle (h : Inv s) (hrun : (s.proc q).state ≠ .RUNNING)
    (hemb : (s.proc q).state ≠ .EMBRYO)
    (hchild : ∀ np, (f (s.proc q)).place.child = some np → (s.proc q).place.child = some np)
    (hown : (f (s.proc q)).state ≠ .UNUSED → (f (s.proc q)).Own) : Inv (s.modify q f) := by
  have hch : ∀ r np, ((s.modify q f).proc r).place.child = some np →
      (s.proc r).place.child = some np := by
    intro r np hr
    rcases eq_or_ne r q with rfl | hne
    · exact hchild np (by rwa [modify_self] at hr)
    · rwa [modify_of_ne hne] at hr
  constructor
  · intro d r hr
    have hs := h.running d r hr
    have hne : r ≠ q := by
      rintro rfl
      exact hrun hs
    rwa [modify_of_ne hne]
  · exact h.alone
  · intro r np hr
    have hs := h.embryo r np (hch r np hr)
    have hne : np ≠ q := by
      rintro rfl
      exact hemb hs
    rwa [modify_of_ne hne]
  · exact fun r x np hr hx => h.forker r x np (hch r np hr) (hch x np hx)
  · intro r hr
    rcases eq_or_ne r q with rfl | hne
    · rw [modify_self] at hr ⊢
      exact hown hr
    · rw [modify_of_ne hne] at hr ⊢
      exact h.owned r hr

/-- `fork` takes the slot `np`, which is an `EMBRYO` that no other `fork` is filling. -/
theorem Inv.adopts (h : Inv s) (hp : s.cpu c = some p) (hnp : (s.proc np).state = .EMBRYO)
    (hfree : ∀ q, (s.proc q).place.child ≠ some np) :
    Inv (s.modify p fun r => { r with place := .forkKstack np }) := by
  have hst : ∀ q, ((s.modify p fun r => { r with place := .forkKstack np }).proc q).state =
      (s.proc q).state := by
    intro q
    rcases eq_or_ne q p with rfl | hne
    · simp
    · simp [hne]
  have hch : ∀ q x, ((s.modify p fun r => { r with place := .forkKstack np }).proc q).place.child =
      some x → (q = p ∧ x = np) ∨ (q ≠ p ∧ (s.proc q).place.child = some x) := by
    intro q x hq
    rcases eq_or_ne q p with rfl | hne
    · simp [Place.child] at hq
      exact Or.inl ⟨rfl, hq.symm⟩
    · exact Or.inr ⟨hne, by simpa [hne] using hq⟩
  constructor
  · exact fun d q hq => (hst q).trans (h.running d q hq)
  · exact h.alone
  · intro q x hq
    rcases hch q x hq with ⟨rfl, rfl⟩ | ⟨-, hq⟩
    · exact (hst _).trans hnp
    · exact (hst x).trans (h.embryo q x hq)
  · intro q r x hq hr
    rcases hch q x hq with ⟨rfl, rfl⟩ | ⟨-, hq'⟩ <;>
      rcases hch r _ hr with ⟨rfl, hx⟩ | ⟨-, hr'⟩
    · rfl
    · exact absurd hr' (hfree r)
    · exact absurd (hx ▸ hq') (hfree q)
    · exact h.forker q r x hq' hr'
  · intro q hq
    rw [hst] at hq
    have := h.owned q hq
    rcases eq_or_ne q p with rfl | hne
    · simpa [Proc.Own] using this
    · simpa [hne] using this

/-- `fork` is done with the slot `np`: it lets the child run, or gives the slot back. -/
theorem Inv.releases {v : Word} {st : ProcState} (h : Inv s) (hp : s.cpu c = some p)
    (hnp : (s.proc p).place.child = some np) :
    Inv ((s.modify np fun r => { r with state := st }).modify p (Proc.ret v)) := by
  have hrun := h.running c p hp
  have hemb := h.embryo p np hnp
  have hne : np ≠ p := by
    rintro rfl
    exact absurd (hrun.symm.trans hemb) (by decide)
  set t := (s.modify np fun r => { r with state := st }).modify p (Proc.ret v) with ht
  have hself : t.proc p = Proc.ret v (s.proc p) := by simp [ht, hne.symm]
  have hchild : t.proc np = { s.proc np with state := st } := by simp [ht, hne]
  have hother : ∀ q, q ≠ p → q ≠ np → t.proc q = s.proc q := fun q h₁ h₂ => by simp [ht, h₁, h₂]
  have hch : ∀ q x, (t.proc q).place.child = some x → q ≠ p ∧ (s.proc q).place.child = some x := by
    intro q x hq
    rcases eq_or_ne q p with rfl | hqp
    · rw [hself] at hq
      simp [Proc.ret, Place.child] at hq
    · refine ⟨hqp, ?_⟩
      rcases eq_or_ne q np with rfl | hqn
      · rwa [hchild] at hq
      · rwa [hother q hqp hqn] at hq
  constructor
  · intro d q hq
    replace hq : s.cpu d = some q := hq
    have hs := h.running d q hq
    rcases eq_or_ne q p with rfl | hqp
    · rw [hself]
      exact hs
    · have hqn : q ≠ np := by
        rintro rfl
        exact absurd (hs.symm.trans hemb) (by decide)
      rwa [hother q hqp hqn]
  · exact h.alone
  · intro q x hq
    obtain ⟨hqp, hq'⟩ := hch q x hq
    have hxn : x ≠ np := by
      rintro rfl
      exact hqp (h.forker q p x hq' hnp)
    have hs := h.embryo q x hq'
    have hxp : x ≠ p := by
      rintro rfl
      exact absurd (hs.symm.trans hrun) (by decide)
    rwa [hother x hxp hxn]
  · exact fun q r x hq hr => h.forker q r x (hch q x hq).2 (hch r x hr).2
  · intro q hq
    rcases eq_or_ne q p with rfl | hqp
    · rw [hself]
      exact h.owned q (by simp [hrun])
    · rcases eq_or_ne q np with rfl | hqn
      · rw [hchild]
        exact h.owned q (by simp [hemb])
      · rw [hother q hqp hqn] at hq ⊢
        exact h.owned q hq

end Preserved

/-! ### Steps -/

section Steps

variable {s t : Sys} {c : Fin NCPU} {p q : Slot}

theorem woken_wakeup1 (ch : Chan) (q : Slot) : Woken (s.proc q) ((s.wakeup1 ch).proc q) := by
  unfold Sys.wakeup1
  dsimp only
  split
  · rename_i hs
    exact ⟨Or.inr ⟨hs.1, rfl⟩, rfl, rfl, rfl⟩
  · exact .rfl' _

theorem inv_wakeup1 (h : Inv s) (ch : Chan) : Inv (s.wakeup1 ch) :=
  h.woken rfl (woken_wakeup1 ch)

theorem inv_abandon (h : Inv s) (p : Slot) : Inv (s.abandon p) := by
  have ht : Inv { s with
      proc := fun q =>
        if (s.proc q).parent = some p then { s.proc q with parent := some Sys.initproc }
        else s.proc q } := by
    refine h.woken rfl fun q => ?_
    dsimp only
    split
    · exact ⟨Or.inl rfl, rfl, rfl, rfl⟩
    · exact .rfl' _
  unfold Sys.abandon
  dsimp only
  split
  · exact inv_wakeup1 ht _
  · exact ht

theorem inv_killPid {pid : Word} (h : Inv s) (hk : s.killPid pid = some t) :
    Inv t ∧ t.cpu = s.cpu := by
  obtain ⟨q, -, rfl⟩ := Option.map_eq_some_iff.mp hk
  refine ⟨h.woken rfl fun r => ?_, rfl⟩
  rcases eq_or_ne r q with rfl | hne
  · rw [modify_self]
    refine ⟨?_, rfl, rfl, rfl⟩
    by_cases hs : (s.proc r).state = .SLEEPING
    · exact Or.inr ⟨hs, if_pos hs⟩
    · exact Or.inl (if_neg hs)
  · rw [modify_of_ne hne]
    exact .rfl' _

/-- `allocproc` hands out a slot that nobody uses, with the scheduler reset. -/
theorem inv_allocproc {np : Slot} (h : Inv s) (ha : s.allocproc = some (np, t)) :
    Inv t ∧ t.cpu = s.cpu ∧ (t.proc np).state = .EMBRYO ∧
      ∀ q, (t.proc q).place.child ≠ some np := by
  obtain ⟨x, hx, he⟩ := Option.map_eq_some_iff.mp ha
  obtain ⟨rfl, rfl⟩ := Prod.mk.inj he
  have hu : (s.proc x).state = .UNUSED := by simpa using List.find?_some hx
  have hinv : Inv (s.modify x fun r =>
      { r with
        state := .EMBRYO, pid := s.nextpid, scheduler := -1, place := .user, passed := [] }) := by
    refine h.idle (by simp [hu]) (by simp [hu]) (by simp [Place.child]) ?_
    simp [Proc.Own]
  refine ⟨⟨hinv.running, hinv.alone, hinv.embryo, hinv.forker, hinv.owned⟩, rfl, ?_, ?_⟩
  · simp
  · intro q hq
    rcases eq_or_ne q x with rfl | hne
    · simp [Place.child] at hq
    · have hq' : (s.proc q).place.child = some x := by simpa [hne] using hq
      exact absurd (hu.symm.trans (h.embryo q x hq')) (by decide)

/-- Returning from a system call without having changed anything else. -/
theorem inv_ret {v : Word} (h : Inv s) (hp : s.cpu c = some p) : Inv (s.modify p (Proc.ret v)) :=
  h.stays hp (h.running c p hp) (by simp [Proc.ret, Place.child])
    (h.owned p (by simp [h.running c p hp]))

/-- Moving on to a place outside `fork`. -/
theorem inv_place {place : Place} (h : Inv s) (hp : s.cpu c = some p)
    (hchild : ∀ np, place.child = some np → (s.proc p).place.child = some np) :
    Inv (s.modify p fun r => { r with place := place }) :=
  h.stays hp (h.running c p hp) hchild (h.owned p (by simp [h.running c p hp]))

theorem inv_waitLoop (h : Inv s) (hp : s.cpu c = some p) : Inv (s.waitLoop c p) := by
  unfold Sys.waitLoop
  split
  · rename_i q hq
    have hz : (s.proc q).state = .ZOMBIE := by simpa using List.find?_some hq
    refine inv_ret (c := c) ?_ hp
    exact h.idle (by simp [hz]) (by simp [hz]) (fun _ hc => hc) fun hne => absurd rfl hne
  · split
    · exact inv_ret h hp
    · exact h.leaves hp rfl rfl rfl

/-- Every statement keeps the invariant, and a commit of `exec` does if the field is reset. -/
theorem inv_stmt {st : Stmt} (h : Inv s) (hp : s.cpu c = some p)
    (hC : CommitsReset s (.run c st)) (hs : s.stmt c p st = some t) : Inv t := by
  have hrun := h.running c p hp
  have hown : (s.proc p).Own := h.owned p (by simp [hrun])
  unfold Sys.stmt at hs
  split at hs
  · -- user
    obtain rfl := Option.some.inj hs
    exact h.stays hp hrun (fun _ hc => hc) hown
  · -- yield
    obtain rfl := Option.some.inj hs
    exact h.leaves hp rfl rfl rfl
  · -- sleep
    obtain ⟨-, hs⟩ := Option.ite_none_right_eq_some.mp hs
    obtain rfl := Option.some.inj hs
    exact h.leaves hp rfl rfl rfl
  · -- uthread_init
    obtain ⟨-, hs⟩ := Option.ite_none_left_eq_some.mp hs
    obtain rfl := Option.some.inj hs
    exact h.stays hp hrun (by simp [Proc.ret, Place.child]) fun _ => List.mem_cons_self
  · -- kill
    obtain ⟨-, hs⟩ := Option.ite_none_left_eq_some.mp hs
    cases hk : s.killPid _ with
    | some u =>
      rw [hk] at hs
      obtain rfl := Option.some.inj hs
      obtain ⟨hu, hcpu⟩ := inv_killPid h hk
      exact inv_ret hu (hcpu ▸ hp)
    | none =>
      rw [hk] at hs
      obtain rfl := Option.some.inj hs
      exact inv_ret h hp
  · -- fork
    obtain ⟨-, hs⟩ := Option.ite_none_left_eq_some.mp hs
    cases ha : s.allocproc with
    | some x =>
      obtain ⟨np, u⟩ := x
      rw [ha] at hs
      obtain rfl := Option.some.inj hs
      obtain ⟨hu, hcpu, hemb, hfree⟩ := inv_allocproc h ha
      exact hu.adopts (hcpu ▸ hp) hemb hfree
    | none =>
      rw [ha] at hs
      obtain rfl := Option.some.inj hs
      exact inv_ret h hp
  · -- forkKstack
    rename_i ok np hpl
    split at hs
    · obtain rfl := Option.some.inj hs
      exact inv_place h hp (by rw [hpl]; exact fun _ hc => hc)
    · obtain rfl := Option.some.inj hs
      exact h.releases hp (by rw [hpl]; rfl)
  · -- forkCopy
    rename_i ok np hpl
    split at hs
    · obtain rfl := Option.some.inj hs
      have hemb := h.embryo p np (by rw [hpl]; rfl)
      have hne : p ≠ np := by
        rintro rfl
        exact absurd (hrun.symm.trans hemb) (by decide)
      refine inv_place (c := c) (h.woken rfl fun q => ?_) hp ?_
      · rcases eq_or_ne q np with rfl | hq
        · rw [modify_self]
          exact ⟨Or.inl rfl, rfl, rfl, rfl⟩
        · rw [modify_of_ne hq]
          exact .rfl' _
      · rw [modify_of_ne hne, hpl]
        exact fun _ hc => hc
    · obtain rfl := Option.some.inj hs
      exact h.releases hp (by rw [hpl]; rfl)
  · -- forkRun
    rename_i np hpl
    obtain rfl := Option.some.inj hs
    exact h.releases hp (by rw [hpl]; rfl)
  · -- exec
    obtain ⟨-, hs⟩ := Option.ite_none_left_eq_some.mp hs
    obtain rfl := Option.some.inj hs
    exact inv_place h hp (by simp [Place.child])
  · -- execFail
    obtain rfl := Option.some.inj hs
    exact inv_ret h hp
  · -- execCommit
    obtain rfl := Option.some.inj hs
    exact h.stays hp hrun (by simp [Place.child]) fun hne => absurd (hC p hp) hne
  · -- execEip
    obtain rfl := Option.some.inj hs
    exact h.stays hp hrun (by simp [Proc.ret, Place.child]) hown
  · -- exit
    obtain ⟨-, hs⟩ := Option.ite_none_left_eq_some.mp hs
    obtain rfl := Option.some.inj hs
    exact inv_place h hp (by simp [Place.child])
  · -- exitZombie
    obtain rfl := Option.some.inj hs
    refine (inv_abandon ?_ p).leaves ?_ rfl rfl rfl
    · split
      · exact inv_wakeup1 h _
      · exact h
    · unfold Sys.abandon
      dsimp only
      split <;> split <;> exact hp
  · -- wait
    obtain ⟨-, hs⟩ := Option.ite_none_left_eq_some.mp hs
    obtain rfl := Option.some.inj hs
    exact inv_place h hp (by simp [Place.child])
  · -- waitScan
    obtain rfl := Option.some.inj hs
    exact inv_waitLoop h hp
  · exact absurd hs (by simp)

theorem inv_timer (h : Inv s) (c : Fin NCPU) : Inv (s.timer c) := by
  have ht : Inv { s with ticks := tick (c = 0) s.ticks } :=
    ⟨h.running, h.alone, h.embryo, h.forker, h.owned⟩
  have hu : Inv (if c = 0 then Sys.wakeup1 { s with ticks := tick (c = 0) s.ticks } .ticks
      else { s with ticks := tick (c = 0) s.ticks }) := by
    split
    · exact inv_wakeup1 ht _
    · exact ht
  unfold Sys.timer
  dsimp only
  split
  · rename_i p hp
    exact hu.stays hp (hu.running c p hp) (fun _ hc => hc)
      (hu.owned p (by simp [hu.running c p hp]))
  · exact hu

theorem inv_pick (h : Inv s) (hc : s.cpu c = none) (hp : (s.proc p).state = .RUNNABLE) :
    Inv { s.modify p fun r => { r with state := .RUNNING, chan := none } with
      cpu := Function.update s.cpu c (some p) } := by
  have ht : Inv (s.modify p fun r => { r with state := .RUNNING, chan := none }) :=
    h.idle (by simp [hp]) (by simp [hp]) (fun _ hc => hc)
      fun _ => h.owned p (by simp [hp])
  have hfree : ∀ d, s.cpu d ≠ some p := by
    intro d hd
    exact absurd ((h.running d p hd).symm.trans hp) (by decide)
  have hcpu : ∀ d q, Function.update s.cpu c (some p) d = some q →
      (d = c ∧ q = p) ∨ s.cpu d = some q := by
    intro d q hq
    rcases eq_or_ne d c with rfl | hne
    · rw [Function.update_self] at hq
      exact Or.inl ⟨rfl, (Option.some.inj hq).symm⟩
    · rw [Function.update_of_ne hne] at hq
      exact Or.inr hq
  refine ⟨?_, ?_, ht.embryo, ht.forker, ht.owned⟩
  · intro d q hq
    rcases hcpu d q hq with ⟨-, rfl⟩ | hq
    · simp [Sys.modify]
    · exact ht.running d q hq
  · intro d e q hd he
    rcases hcpu d q hd with ⟨hdc, hq⟩ | hd' <;> rcases hcpu e q he with ⟨hec, hq'⟩ | he'
    · exact hdc.trans hec.symm
    · exact absurd (hq ▸ he') (hfree e)
    · exact absurd (hq' ▸ hd') (hfree d)
    · exact h.alone d e q hd' he'

theorem inv_step {a : Act} (h : Inv s) (hC : CommitsReset s a) (hst : s.Step a t) : Inv t := by
  cases a with
  | pick c p =>
    obtain ⟨⟨hc, hp⟩, ht⟩ := Option.ite_none_right_eq_some.mp hst
    obtain rfl := Option.some.inj ht
    exact inv_pick h hc hp
  | timer c =>
    obtain rfl := Option.some.inj hst
    exact inv_timer h c
  | wakeup ch =>
    obtain rfl := Option.some.inj hst
    exact inv_wakeup1 h ch
  | run c st =>
    obtain ⟨p, hp, hs⟩ := Option.bind_eq_some_iff.mp hst
    exact inv_stmt h hp hC hs

/-- A commit of `exec` while a scheduler is registered leaves it to the new image. -/
theorem commit_stale {a : Act} (h : Inv s) (hC : ¬ CommitsReset s a) (hst : s.Step a t) :
    ¬ Registered t := by
  cases a with
  | run c st =>
    obtain ⟨p, hp, hs⟩ := Option.bind_eq_some_iff.mp hst
    cases st with
    | execCommit entry sp =>
      obtain ⟨q, hq⟩ := not_forall.mp hC
      obtain ⟨hq, hne⟩ := Classical.not_imp.mp hq
      obtain rfl := Option.some.inj (hp.symm.trans hq)
      unfold Sys.stmt at hs
      split at hs <;> try contradiction
      rename_i he hpl
      cases he
      obtain rfl := Option.some.inj hs
      intro hreg
      have hown := hreg p
      rw [modify_self] at hown
      have hmem := hown (by simp [h.running c p hp]) hne
      exact absurd hmem List.not_mem_nil
    | user | yield | sleep | uthread_init | kill | fork | forkKstack | forkCopy | forkRun | exec
    | execFail | execEip | exit | exitZombie | wait | waitScan => exact absurd trivial hC
  | pick | timer | wakeup => exact absurd trivial hC

end Steps

/-- What the process registered itself is all a forced call can use. -/
theorem forces_own {s : Sys} (h : Inv s) (a : Act) : ForcesOwn s a := by
  rintro c p - hp hf
  exact h.owned p (by simp [h.running c p hp]) hf.1

/-- In every run from boot each process has registered addresses of its running image only, and no
    timer interrupt uses another one, exactly if each `exec` commits with the field reset. -/
theorem registered_iff {l : List (Sys × Act)} {u : Sys} (hrun : Run Sys.Step Sys.boot l u) :
    (Throughout Registered l u ∧ Along ForcesOwn l) ↔ Along CommitsReset l := by
  have hstep : ∀ s a t, Inv s → CommitsReset s a → s.Step a t → Inv t :=
    fun _ _ _ h hC => inv_step h hC
  have hiff : Throughout Registered l u ↔ Along CommitsReset l :=
    hrun.throughout_iff hstep (fun _ h => h.owned) (fun _ _ _ h hC => commit_stale h hC) inv_boot
  refine ⟨fun h => hiff.mp h.1, fun hC => ⟨hiff.mpr hC, ?_⟩⟩
  have hinv := hrun.invariant hstep inv_boot hC
  exact fun x hx => forces_own (hinv.1 x hx) x.2

/-- `initcode` starts `init`, which makes a child that registers a scheduler and is interrupted. -/
def registers : List Act :=
  [.pick 0 0, .run 0 .exec, .run 0 (.execCommit 0x10 0x3000), .run 0 .execEip, .run 0 .fork,
    .run 0 (.forkKstack true), .run 0 (.forkCopy true), .run 0 .forkRun, .pick 1 1,
    .run 1 (.uthread_init 0x40), .timer 1]

instance (s : Sys) : (a : Act) → Decidable (CommitsReset s a)
  | .run c (.execCommit _ _) =>
    match h : s.cpu c with
    | none => isTrue fun p hp => absurd (h.symm.trans hp) (by simp)
    | some q => decidable_of_iff ((s.proc q).scheduler = -1)
        ⟨fun hq p hp => Option.some.inj (h.symm.trans hp) ▸ hq, fun hC => hC q h⟩
  | .run _ (.user _) | .run _ .yield | .run _ (.sleep _) | .run _ (.uthread_init _)
  | .run _ (.kill _) | .run _ .fork | .run _ (.forkKstack _) | .run _ (.forkCopy _)
  | .run _ .forkRun | .run _ .exec | .run _ .execFail | .run _ .execEip | .run _ .exit
  | .run _ .exitZombie | .run _ .wait | .run _ .waitScan | .pick _ _ | .timer _
  | .wakeup _ => isTrue trivial

/-- `registered_iff` along `registers`: the child is sent to the address it registered. -/
theorem registers_own :
    ∃ u l, Run Sys.Step Sys.boot l u ∧ (u.proc 1).tf.eip = 0x40 ∧ Throughout Registered l u := by
  have h : ((exec Sys.next Sys.boot registers).any fun u => (u.proc 1).tf.eip = 0x40) = true := by
    decide +kernel
  obtain ⟨u, hu, heip⟩ := (Option.any_eq_true _ _).mp h
  refine ⟨u, _, Run.of_exec hu, of_decide_eq_true heip, ((registered_iff (Run.of_exec hu)).mpr ?_).1⟩
  unfold Along
  decide +kernel

/-- The child executes another program, and is sent to the address it registered before. -/
theorem exec_keeps_scheduler :
    ∃ u l, Run Sys.Step Sys.boot l u ∧ (u.proc 1).tf.eip = 0x40 ∧ (u.proc 1).passed = [] ∧
      ¬ Registered u := by
  obtain ⟨u, l, hrun, hu⟩ := Run.of_exec_any Sys.next
    (registers ++ [.run 1 .exec, .run 1 (.execCommit 0x10 0x3000), .run 1 .execEip, .timer 1])
    Sys.boot (fun u => (u.proc 1).tf.eip = 0x40 ∧ (u.proc 1).passed = [] ∧ ¬ Registered u)
    (by decide +kernel)
  exact ⟨u, l, hrun, of_decide_eq_true hu⟩

end Xv6.Process
