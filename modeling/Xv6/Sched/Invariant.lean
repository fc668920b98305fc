import Xv6.Sched.Threads
import Mathlib.Data.Finset.Card

/-! @src proc.c spinlock.c | name:Threads and locks | layer:proof

    What a thread still has to execute tells whether it holds `ptable.lock`, and whether it is on
    its way out of the processor. A process is `RUNNING` exactly while it has a processor and is
    not on its way out, which takes the lock; a process without a processor has the statements of
    someone who is about to get the lock with it. -/

namespace Xv6.Sched
open Xv6.Schemes.X86 (Word)
open Xv6.Process (NPROC Slot ProcState Chan)

/-- What a thread is doing with `ptable.lock`; `leaving` is right before `swtch`. -/
inductive Phase where
  | free
  | held
  | leaving
  deriving DecidableEq

/-- The phase of a thread with these statements to execute. -/
def phase : List Stmt → Phase
  | [] => .free
  | .release (.other _) :: rest => phase rest
  | .acquire _ :: _ | .fault :: _ | .kstack _ :: _ | .unalloc _ :: _ | .copyuvm _ :: _
  | .inherit _ :: _ => .free
  | .swtch :: _ => .leaving
  | .release .ptable :: _ | .setChan _ :: _ | .setState _ :: _ | .clearChan :: _ | .wakeup1 _ :: _
  | .kill _ :: _ | .wakeParent :: _ | .abandon :: _ | .waitLoop :: _ | .allocproc :: _
  | .runnable _ :: _ | .scan _ :: _ | .back _ :: _ => .held

/-- The slot that a `fork` is filling, and whether its kernel thread is set up. -/
def child : List Stmt → Option (Slot × Bool)
  | [] => none
  | .kstack np :: _ | .unalloc np :: _ => some (np, false)
  | .copyuvm np :: _ | .inherit np :: _ | .runnable np :: _ => some (np, true)
  | .acquire _ :: rest | .release _ :: rest | .setChan _ :: rest | .setState _ :: rest
  | .swtch :: rest | .clearChan :: rest | .wakeup1 _ :: rest | .kill _ :: rest | .fault :: rest
  | .wakeParent :: rest | .abandon :: rest | .waitLoop :: rest | .allocproc :: rest
  | .scan _ :: rest | .back _ :: rest => child rest

/-- Each statement leads from its phase to the phase of the next one. -/
def Wf : List Stmt → Prop
  | [] => True
  | .acquire .ptable :: rest => phase rest = .held ∧ Wf rest
  | .acquire (.other _) :: rest => phase rest = .free ∧ Wf rest
  | .release .ptable :: rest => phase rest = .free ∧ Wf rest
  | .release (.other _) :: rest => phase rest ≠ .leaving ∧ Wf rest
  | .setState st :: rest =>
    phase rest = .leaving ∧ Wf rest ∧
      (st = .ZOMBIE ∧ rest = [.swtch] ∨ (st = .RUNNABLE ∨ st = .SLEEPING) ∧ rest ≠ [.swtch])
  | .swtch :: rest => (rest = [] ∨ phase rest = .held) ∧ Wf rest
  | .fault :: rest => phase rest = .free ∧ Wf rest
  | .kstack np :: rest | .copyuvm np :: rest | .inherit np :: rest =>
    phase rest = .free ∧ Wf rest ∧ child rest = some (np, true)
  | .unalloc _ :: rest => phase rest = .free ∧ Wf rest ∧ child rest = none
  | .runnable _ :: rest => phase rest = .held ∧ Wf rest ∧ child rest = none
  | .setChan _ :: rest | .clearChan :: rest | .wakeup1 _ :: rest | .kill _ :: rest
  | .wakeParent :: rest | .abandon :: rest => phase rest = .held ∧ Wf rest
  | .waitLoop :: rest | .allocproc :: rest | .scan _ :: rest | .back _ :: rest => rest = []

theorem code_wf (f : Call) : Wf f.code ∧ phase f.code ≠ .leaving ∧ child f.code = none := by
  cases f <;> simp [Call.code, Wf, phase, child]

theorem call_free {f : Call} : phase f.code = .free := by
  cases f <;> rfl

theorem handler_wf {l : List Stmt} (h : Handler) (hf : phase l = .free) (hl : Wf l) :
    Wf (h.code ++ l) ∧ phase (h.code ++ l) = .free ∧ child (h.code ++ l) = child l := by
  cases h <;> simp [Handler.code, Wf, phase, child, hf, hl]

/-- States in which a process has left its processor. -/
def Left (st : ProcState) : Prop := st = .RUNNABLE ∨ st = .SLEEPING ∨ st = .ZOMBIE

/-- The record of a process that has a processor; only `exit` never comes back from `swtch`. -/
def On (r : Proc) : Prop :=
  if phase r.todo = .leaving then Left r.state ∧ (r.state = .ZOMBIE ↔ r.todo = [.swtch])
  else r.state = .RUNNING

/-- The record of a process that has no processor. -/
def Rest (r : Proc) : Prop :=
  match r.state with
  | .RUNNABLE | .SLEEPING => phase r.todo = .held
  | .UNUSED | .EMBRYO => r.todo = [] ∨ r.todo = forkret
  | .ZOMBIE => r.todo = []
  | .RUNNING => False

variable {κ : Type}

/-- `ncli` counts the spinlocks that a processor holds. -/
def Locks (s : Sys κ) : Prop :=
  ∃ held : κ → Finset Lock, (∀ lk c, s.lock lk = some c ↔ lk ∈ held c) ∧
    ∀ c, (s.cpu c).ncli = (held c).card

/-- A processor holds `ptable.lock` exactly while its thread is in a phase that needs it. -/
def Holds (s : Sys κ) : Prop := ∀ c, s.lock .ptable = some c ↔ phase (s.todo c) ≠ .free

/-- The scheduler has just been switched to from the process. -/
def Back (s : Sys κ) (c : κ) (p : Slot) : Prop :=
  (s.cpu c).todo = [.back p] ∧ (s.cpu c).proc = some p ∧ (s.cpu c).cr3 = some p ∧
    Left (s.proc p).state

/-- The scheduler has no process. -/
def Idle (k : Cpu) : Prop := (∀ p, .back p ∉ k.todo) ∧ k.proc = none ∧ k.cr3 = none

/-- Processors, processes and their threads fit together. -/
structure Threads (s : Sys κ) : Prop where
  wf : ∀ p, Wf (s.proc p).todo
  wfSched : ∀ c, Wf (s.cpu c).todo
  current : ∀ c p, (s.cpu c).thread = some p →
    (s.cpu c).proc = some p ∧ (s.cpu c).cr3 = some p ∧ (s.cpu c).todo = [.back p]
  sched : ∀ c, (s.cpu c).thread = none → (∃ p, Back s c p) ∨ Idle (s.cpu c)
  inj : ∀ c d p, (s.cpu c).proc = some p → (s.cpu d).proc = some p → c = d
  on : ∀ c p, (s.cpu c).thread = some p → On (s.proc p)
  off : ∀ p, (∀ c, (s.cpu c).thread ≠ some p) → Rest (s.proc p)
  embryo : ∀ p np b, child (s.proc p).todo = some (np, b) →
    (s.proc np).state = .EMBRYO ∧ (b = true → (s.proc np).todo = forkret)
  forker : ∀ p q np b b', child (s.proc p).todo = some (np, b) →
    child (s.proc q).todo = some (np, b') → p = q

structure Inv (s : Sys κ) : Prop where
  locks : Locks s
  holds : Holds s
  threads : Threads s

/-! ### Threads -/

section

variable {s t : Sys κ} {c d : κ} {p q np : Slot} {f : Proc → Proc} {l : List Stmt}

@[simp] theorem modify_cpu : (s.modify p f).cpu = s.cpu := rfl

@[simp] theorem modify_lock : (s.modify p f).lock = s.lock := rfl

@[simp] theorem note_proc {e : Event} : (s.note e).proc = s.proc := rfl

@[simp] theorem modify_self : (s.modify p f).proc p = f (s.proc p) := by simp [Sys.modify]

@[simp] theorem modify_of_ne (h : q ≠ p) : (s.modify p f).proc q = s.proc q := by
  simp [Sys.modify, h]

theorem todo_some (h : (s.cpu c).thread = some p) : s.todo c = (s.proc p).todo := by
  simp [Sys.todo, h]

theorem todo_none (h : (s.cpu c).thread = none) : s.todo c = (s.cpu c).todo := by
  simp [Sys.todo, h]

/-- Only processors and the table matter. -/
theorem Threads.congr (h : Threads s) (hc : ∀ d, ∃ n, t.cpu d = { s.cpu d with ncli := n })
    (hp : t.proc = s.proc) : Threads t := by
  have hthread : ∀ d, (t.cpu d).thread = (s.cpu d).thread := fun d => by
    obtain ⟨n, hd⟩ := hc d
    rw [hd]
  have hproc : ∀ d, (t.cpu d).proc = (s.cpu d).proc := fun d => by
    obtain ⟨n, hd⟩ := hc d
    rw [hd]
  have hcr3 : ∀ d, (t.cpu d).cr3 = (s.cpu d).cr3 := fun d => by
    obtain ⟨n, hd⟩ := hc d
    rw [hd]
  have htodo : ∀ d, (t.cpu d).todo = (s.cpu d).todo := fun d => by
    obtain ⟨n, hd⟩ := hc d
    rw [hd]
  constructor
  · exact hp ▸ h.wf
  · exact fun d => htodo d ▸ h.wfSched d
  · intro d q hq
    rw [hthread] at hq
    rw [hproc, hcr3, htodo]
    exact h.current d q hq
  · intro d hn
    rw [hthread] at hn
    rcases h.sched d hn with ⟨q, hb⟩ | hi
    · refine Or.inl ⟨q, ?_⟩
      unfold Back at hb ⊢
      rwa [hproc, hcr3, htodo, hp]
    · refine Or.inr ?_
      unfold Idle at hi ⊢
      rwa [hproc, hcr3, htodo]
  · intro d e q hd he
    rw [hproc] at hd he
    exact h.inj d e q hd he
  · intro d q hq
    rw [hthread] at hq
    exact hp ▸ h.on d q hq
  · intro q hq
    rw [hp]
    exact h.off q fun d => hthread d ▸ hq d
  · exact hp ▸ h.embryo
  · exact hp ▸ h.forker

/-- A process with a processor is current there, on no other one, and its scheduler waits. -/
theorem Threads.thread_inj (h : Threads s) (hc : (s.cpu c).thread = some p)
    (hd : (s.cpu d).thread = some p) : c = d :=
  h.inj c d p (h.current c p hc).1 (h.current d p hd).1

/-- A process that no processor has as its current one is off. -/
theorem Threads.thread_ne (h : Threads s) (hq : ∀ c, (s.cpu c).proc ≠ some q) (c : κ) :
    (s.cpu c).thread ≠ some q :=
  fun hc => hq c (h.current c q hc).1

theorem Threads.running (h : Threads s) (hc : (s.cpu c).thread = some p)
    (hph : phase (s.proc p).todo ≠ .leaving) : (s.proc p).state = .RUNNING := by
  have := h.on c p hc
  rwa [On, if_neg hph] at this

/-- A process in a state without a thread is no processor's. -/
theorem Threads.dormant (h : Threads s)
    (hq : (s.proc q).state = .UNUSED ∨ (s.proc q).state = .EMBRYO) (c : κ) :
    (s.cpu c).proc ≠ some q := by
  intro hc
  have hleft : ¬ Left (s.proc q).state ∧ (s.proc q).state ≠ .RUNNING := by
    rcases hq with hq | hq <;> simp [Left, hq]
  cases ht : (s.cpu c).thread with
  | some p =>
    obtain rfl : p = q := Option.some.inj ((h.current c p ht).1.symm.trans hc)
    have := h.on c p ht
    unfold On at this
    split at this
    · exact hleft.1 this.1
    · exact hleft.2 this
  | none =>
    rcases h.sched c ht with ⟨p, -, hp, -, hl⟩ | hi
    · obtain rfl : p = q := Option.some.inj (hp.symm.trans hc)
      exact hleft.1 hl
    · exact absurd (hi.2.1.symm.trans hc) (by simp)

/-- What the kernel may do to the record of a process that is not concerned: wake it up. -/
def Soft (r r' : Proc) : Prop :=
  r'.todo = r.todo ∧ (r'.state = r.state ∨ r.state = .SLEEPING ∧ r'.state = .RUNNABLE)

theorem Soft.rfl' (r : Proc) : Soft r r := ⟨rfl, Or.inl rfl⟩

theorem Soft.left {r r' : Proc} (h : Soft r r') (hl : Left r.state) : Left r'.state := by
  rcases h.2 with he | ⟨-, he⟩
  · rwa [he]
  · exact Or.inl he

theorem Soft.on {r r' : Proc} (h : Soft r r') (hr : On r) : On r' := by
  unfold On at hr ⊢
  rw [h.1]
  split
  · rename_i hph
    rw [if_pos hph] at hr
    refine ⟨h.left hr.1, Iff.trans ?_ hr.2⟩
    rcases h.2 with he | ⟨hs, he⟩
    · rw [he]
    · simp [hs, he]
  · rename_i hph
    rw [if_neg hph] at hr
    rcases h.2 with he | ⟨hs, -⟩
    · exact he.trans hr
    · exact absurd (hr.symm.trans hs) (by decide)

theorem Soft.rest {r r' : Proc} (h : Soft r r') (hr : Rest r) : Rest r' := by
  unfold Rest at hr ⊢
  rw [h.1]
  rcases h.2 with he | ⟨hs, he⟩
  · rwa [he]
  · rw [hs] at hr
    rwa [he]

theorem Soft.embryo {r r' : Proc} (h : Soft r r') (hr : r.state = .EMBRYO) :
    r'.state = .EMBRYO := by
  rcases h.2 with he | ⟨hs, -⟩
  · exact he.trans hr
  · exact absurd (hr.symm.trans hs) (by decide)

/-- A process goes on, keeping its processor, and wakes others up. -/
theorem Threads.advance (h : Threads s) (hp : (s.cpu c).thread = some p)
    (hold : phase (s.proc p).todo ≠ .leaving) (hcpu : t.cpu = s.cpu)
    (hstate : (t.proc p).state = (s.proc p).state) (hto : (t.proc p).todo = l)
    (hnew : phase l ≠ .leaving) (hwf : Wf l)
    (hchild : ∀ np b, child l = some (np, b) → ((s.proc np).state = .EMBRYO ∧
      (b = true → (s.proc np).todo = forkret)) ∧
      ∀ q b', q ≠ p → child (s.proc q).todo ≠ some (np, b'))
    (hothers : ∀ q, q ≠ p → Soft (s.proc q) (t.proc q)) : Threads t := by
  have hrun := h.running hp hold
  have hpe : ∀ np, (s.proc np).state = .EMBRYO → np ≠ p := by
    rintro np he rfl
    exact absurd (hrun.symm.trans he) (by decide)
  have hembryo : ∀ np (b : Bool), ((s.proc np).state = .EMBRYO ∧
      (b = true → (s.proc np).todo = forkret)) → (t.proc np).state = .EMBRYO ∧
      (b = true → (t.proc np).todo = forkret) := by
    rintro np b ⟨he, ht⟩
    have hs := hothers np (hpe np he)
    exact ⟨hs.embryo he, fun hb => hs.1.trans (ht hb)⟩
  have hch : ∀ q np b, child (t.proc q).todo = some (np, b) →
      (q = p ∧ child l = some (np, b)) ∨ (q ≠ p ∧ child (s.proc q).todo = some (np, b)) := by
    intro q np b hq
    rcases eq_or_ne q p with rfl | hne
    · exact Or.inl ⟨rfl, hto ▸ hq⟩
    · exact Or.inr ⟨hne, (hothers q hne).1 ▸ hq⟩
  constructor
  · intro q
    rcases eq_or_ne q p with rfl | hne
    · exact hto ▸ hwf
    · exact (hothers q hne).1 ▸ h.wf q
  · exact hcpu ▸ h.wfSched
  · exact hcpu ▸ h.current
  · intro d hd
    rw [hcpu] at hd ⊢
    rcases h.sched d hd with ⟨q, ht, hq, hr, hl⟩ | hi
    · refine Or.inl ⟨q, hcpu ▸ ht, hcpu ▸ hq, hcpu ▸ hr, ?_⟩
      have hne : q ≠ p := by
        rintro rfl
        rw [hrun] at hl
        simp [Left] at hl
      exact (hothers q hne).left hl
    · exact Or.inr hi
  · exact hcpu ▸ h.inj
  · intro d q hq
    rw [hcpu] at hq
    rcases eq_or_ne q p with rfl | hne
    · rw [On, hto, if_neg hnew, hstate]
      exact hrun
    · exact (hothers q hne).on (h.on d q hq)
  · intro q hq
    rw [hcpu] at hq
    have hne : q ≠ p := by
      rintro rfl
      exact hq c hp
    exact (hothers q hne).rest (h.off q hq)
  · intro q np b hq
    rcases hch q np b hq with ⟨-, hl⟩ | ⟨-, hq'⟩
    · exact hembryo np b (hchild np b hl).1
    · exact hembryo np b (h.embryo q np b hq')
  · intro q r np b b' hq hr
    rcases hch q np b hq with ⟨rfl, hl⟩ | ⟨hqp, hq'⟩ <;>
      rcases hch r np b' hr with ⟨hrp, hl'⟩ | ⟨hrp, hr'⟩
    · exact hrp.symm
    · exact absurd hr' ((hchild np b hl).2 r b' hrp)
    · exact absurd hq' ((hchild np b' hl').2 q b hqp)
    · exact h.forker q r np b b' hq' hr'

/-- The same, when what is left of a `fork` is what was left of it before. -/
theorem Threads.advance' (h : Threads s) (hp : (s.cpu c).thread = some p)
    (hold : phase (s.proc p).todo ≠ .leaving) (hcpu : t.cpu = s.cpu)
    (hstate : (t.proc p).state = (s.proc p).state) (hto : (t.proc p).todo = l)
    (hnew : phase l ≠ .leaving) (hwf : Wf l)
    (hchild : ∀ np b, child l = some (np, b) → child (s.proc p).todo = some (np, b) ∨
      b = false ∧ child (s.proc p).todo = some (np, true))
    (hothers : ∀ q, q ≠ p → Soft (s.proc q) (t.proc q)) : Threads t := by
  refine h.advance hp hold hcpu hstate hto hnew hwf (fun np b hl => ?_) hothers
  rcases hchild np b hl with hc | ⟨rfl, hc⟩
  · exact ⟨h.embryo p np b hc, fun q b' hne hq => hne (h.forker q p np b' b hq hc)⟩
  · refine ⟨⟨(h.embryo p np true hc).1, fun hb => absurd hb (by simp)⟩, ?_⟩
    exact fun q b' hne hq => hne (h.forker q p np b' true hq hc)

/-- Changing the record of a process that is on no processor and has no statements of its own. -/
theorem Threads.idle (h : Threads s) (hq : ∀ c, (s.cpu c).proc ≠ some q)
    (hrest : Rest (f (s.proc q)))
    (hto : (f (s.proc q)).todo = [] ∨ (f (s.proc q)).todo = forkret)
    (hchild : ∀ p b, child (s.proc p).todo = some (q, b) → (f (s.proc q)).state = .EMBRYO ∧
      (b = true → (f (s.proc q)).todo = forkret)) : Threads (s.modify q f) := by
  have hoff := h.thread_ne hq
  have hch : ∀ p x, child ((s.modify q f).proc p).todo = some x →
      p ≠ q ∧ child (s.proc p).todo = some x := by
    intro p x hp
    rcases eq_or_ne p q with rfl | hne
    · rw [modify_self] at hp
      rcases hto with he | he <;> simp [he, forkret, child] at hp
    · exact ⟨hne, by rwa [modify_of_ne hne] at hp⟩
  constructor
  · intro p
    rcases eq_or_ne p q with rfl | hne
    · rw [modify_self]
      rcases hto with he | he <;> simp [he, forkret, Wf, phase]
    · rw [modify_of_ne hne]
      exact h.wf p
  · exact h.wfSched
  · exact h.current
  · intro d hd
    rcases h.sched d hd with ⟨p, ht, hp, hr, hl⟩ | hi
    · have hne : p ≠ q := by
        rintro rfl
        exact hq d hp
      exact Or.inl ⟨p, ht, hp, hr, by rwa [modify_of_ne hne]⟩
    · exact Or.inr hi
  · exact h.inj
  · intro d p hp
    have hne : p ≠ q := by
      rintro rfl
      exact hoff d hp
    rw [modify_of_ne hne]
    exact h.on d p hp
  · intro p hp
    rcases eq_or_ne p q with rfl | hne
    · rwa [modify_self]
    · rw [modify_of_ne hne]
      exact h.off p hp
  · intro p np b hp
    obtain ⟨-, hp'⟩ := hch p _ hp
    rcases eq_or_ne np q with rfl | hne
    · rw [modify_self]
      exact hchild p b hp'
    · rw [modify_of_ne hne]
      exact h.embryo p np b hp'
  · exact fun p r np b b' hp hr => h.forker p r np b b' (hch p _ hp).2 (hch r _ hr).2

/-! ### The lock -/

/-- While one processor has the lock, the others are in a phase that does not need it. -/
theorem Holds.alone (h : Holds s) (hc : s.lock .ptable = some c) (hd : d ≠ c) :
    phase (s.todo d) = .free := by
  by_contra hn
  exact hd (Option.some.inj (((h d).mpr hn).symm.trans hc))

/-- Changes that neither move the lock nor the phases. -/
theorem Holds.keep (h : Holds s) (hlock : t.lock = s.lock)
    (hph : ∀ d, phase (t.todo d) = .free ↔ phase (s.todo d) = .free) : Holds t := by
  intro d
  rw [hlock, h d, Ne, Ne, hph d]

theorem Locks.keep (h : Locks s) (hlock : t.lock = s.lock)
    (hncli : ∀ d, (t.cpu d).ncli = (s.cpu d).ncli) : Locks t := by
  obtain ⟨held, hheld, hcard⟩ := h
  exact ⟨held, fun lk d => by rw [hlock, hheld], fun d => by rw [hncli, hcard]⟩

/-- With interrupts on, no lock is held. -/
theorem Locks.none_held (h : Locks s) (hc : (s.cpu c).ncli = 0) (lk : Lock) :
    s.lock lk ≠ some c := by
  obtain ⟨held, hheld, hcard⟩ := h
  intro hl
  have hmem := (hheld lk c).mp hl
  rw [Finset.card_eq_zero.mp ((hcard c).symm.trans hc)] at hmem
  exact Finset.notMem_empty lk hmem

/-- A process goes on in the phase it is in, and wakes others up. -/
theorem Inv.advance (h : Inv s) (hp : (s.cpu c).thread = some p)
    (hold : phase (s.proc p).todo ≠ .leaving) (hnew : phase l = phase (s.proc p).todo)
    (hcpu : t.cpu = s.cpu) (hlock : t.lock = s.lock)
    (hstate : (t.proc p).state = (s.proc p).state) (hto : (t.proc p).todo = l) (hwf : Wf l)
    (hchild : ∀ np b, child l = some (np, b) → ((s.proc np).state = .EMBRYO ∧
      (b = true → (s.proc np).todo = forkret)) ∧
      ∀ q b', q ≠ p → child (s.proc q).todo ≠ some (np, b'))
    (hothers : ∀ q, q ≠ p → Soft (s.proc q) (t.proc q)) : Inv t where
  locks := h.locks.keep hlock fun d => by rw [hcpu]
  holds := h.holds.keep hlock fun d => by
    cases hd : (s.cpu d).thread with
    | some q =>
      rw [todo_some (p := q) hd, todo_some (p := q) (by rwa [hcpu])]
      rcases eq_or_ne q p with rfl | hne
      · rw [hto, hnew]
      · rw [(hothers q hne).1]
    | none => rw [todo_none hd, todo_none (by rwa [hcpu]), hcpu]
  threads := h.threads.advance hp hold hcpu hstate hto (hnew ▸ hold) hwf hchild hothers

/-- The same, when what is left of a `fork` was left of it before. -/
theorem Inv.advance' (h : Inv s) (hp : (s.cpu c).thread = some p)
    (hold : phase (s.proc p).todo ≠ .leaving) (hnew : phase l = phase (s.proc p).todo)
    (hcpu : t.cpu = s.cpu) (hlock : t.lock = s.lock)
    (hstate : (t.proc p).state = (s.proc p).state) (hto : (t.proc p).todo = l) (hwf : Wf l)
    (hchild : ∀ np b, child l = some (np, b) → child (s.proc p).todo = some (np, b) ∨
      b = false ∧ child (s.proc p).todo = some (np, true))
    (hothers : ∀ q, q ≠ p → Soft (s.proc q) (t.proc q)) : Inv t := by
  refine h.advance hp hold hnew hcpu hlock hstate hto hwf (fun np b hl => ?_) hothers
  rcases hchild np b hl with hc | ⟨rfl, hc⟩
  · exact ⟨h.threads.embryo p np b hc, fun q b' hne hq => hne (h.threads.forker q p np b' b hq hc)⟩
  · refine ⟨⟨(h.threads.embryo p np true hc).1, fun hb => absurd hb (by simp)⟩, ?_⟩
    exact fun q b' hne hq => hne (h.threads.forker q p np b' true hq hc)

/-- Changing the record of a process that is on no processor. -/
theorem Inv.idle (h : Inv s) (hq : ∀ c, (s.cpu c).proc ≠ some q)
    (hrest : Rest (f (s.proc q)))
    (hto : (f (s.proc q)).todo = [] ∨ (f (s.proc q)).todo = forkret)
    (hchild : ∀ p b, child (s.proc p).todo = some (q, b) → (f (s.proc q)).state = .EMBRYO ∧
      (b = true → (f (s.proc q)).todo = forkret)) : Inv (s.modify q f) where
  locks := h.locks.keep rfl fun _ => rfl
  holds := h.holds.keep rfl fun d => by
    cases hd : (s.cpu d).thread with
    | some p =>
      have hne : p ≠ q := by
        rintro rfl
        exact h.threads.thread_ne hq d hd
      rw [todo_some (p := p) hd, todo_some (p := p) (by simpa using hd), modify_of_ne hne]
    | none => rw [todo_none hd, todo_none (by simpa using hd), modify_cpu]
  threads := h.threads.idle hq hrest hto hchild

theorem Inv.congr (h : Inv s) (hc : t.cpu = s.cpu) (hl : t.lock = s.lock) (hp : t.proc = s.proc) :
    Inv t where
  locks := h.locks.keep hl fun d => by rw [hc]
  holds := h.holds.keep hl fun d => by unfold Sys.todo; rw [hc, hp]
  threads := h.threads.congr (fun d => ⟨_, by rw [hc]⟩) hp

theorem Inv.todo_wf (h : Inv s) (c : κ) : Wf (s.todo c) := by
  cases hc : (s.cpu c).thread with
  | some p => exact todo_some hc ▸ h.threads.wf p
  | none => exact todo_none hc ▸ h.threads.wfSched c

theorem soft_todo {tbl : Slot → Proc} (hs : ∀ q, Soft (s.proc q) (tbl q)) (d : κ) :
    Sys.todo { s with proc := tbl } d = s.todo d := by
  unfold Sys.todo
  dsimp only
  cases (s.cpu d).thread with
  | some q => exact (hs q).1
  | none => rfl

/-- Changing states only by waking processes up. -/
theorem Inv.soft {tbl : Slot → Proc} (h : Inv s) (hs : ∀ q, Soft (s.proc q) (tbl q)) :
    Inv { s with proc := tbl } where
  locks := h.locks.keep rfl fun _ => rfl
  holds := h.holds.keep rfl fun d => by rw [soft_todo hs]
  threads :=
    { h.threads with
      wf := fun q => (hs q).1 ▸ h.threads.wf q
      sched := fun d hd => by
        rcases h.threads.sched d hd with ⟨q, h₁, h₂, h₃, hl⟩ | hi
        · exact Or.inl ⟨q, h₁, h₂, h₃, (hs q).left hl⟩
        · exact Or.inr hi
      on := fun d q hq => (hs q).on (h.threads.on d q hq)
      off := fun q hq => (hs q).rest (h.threads.off q hq)
      embryo := fun q np b hq => by
        obtain ⟨he, hto⟩ := h.threads.embryo q np b ((hs q).1 ▸ hq)
        exact ⟨(hs np).embryo he, fun hb => (hs np).1.trans (hto hb)⟩
      forker := fun q r np b b' hq hr =>
        h.threads.forker q r np b b' ((hs q).1 ▸ hq) ((hs r).1 ▸ hr) }

/-- A statement that changes only the record of its process, and not its state. -/
theorem Inv.self (h : Inv s) (hp : (s.cpu c).thread = some p)
    (hold : phase (s.proc p).todo ≠ .leaving) (hto : (f (s.proc p)).todo = l)
    (hnew : phase l = phase (s.proc p).todo) (hstate : (f (s.proc p)).state = (s.proc p).state)
    (hwf : Wf l) (hchild : ∀ np b, child l = some (np, b) → child (s.proc p).todo = some (np, b) ∨
      b = false ∧ child (s.proc p).todo = some (np, true)) : Inv (s.modify p f) := by
  refine h.advance' hp hold hnew rfl rfl (by simpa using hstate) (by simpa using hto) hwf hchild ?_
  intro q hq
  rw [modify_of_ne hq]
  exact .rfl' _

/-- The thread of a statement in the phase `held` has the lock. -/
theorem Inv.has_lock (h : Inv s) (hp : (s.cpu c).thread = some p)
    (hph : phase (s.proc p).todo ≠ .free) : s.lock .ptable = some c :=
  (h.holds c).mpr (by rwa [todo_some hp])

/-- Under the lock of another process, a `ZOMBIE` has left its processor for good. -/
theorem Inv.zombie_gone (h : Inv s) (hp : (s.cpu c).thread = some p)
    (hph : phase (s.proc p).todo = .held) (hz : (s.proc q).state = .ZOMBIE) (d : κ) :
    (s.cpu d).proc ≠ some q := by
  have hlock := h.has_lock hp (by simp [hph])
  have hrun := h.threads.running hp (by simp [hph])
  intro hd
  cases ht : (s.cpu d).thread with
  | some r =>
    obtain rfl : r = q := Option.some.inj ((h.threads.current d r ht).1.symm.trans hd)
    have hon := h.threads.on d r ht
    unfold On at hon
    split at hon
    · rename_i hleaving
      have hdc := h.has_lock ht (by simp [hleaving])
      obtain rfl : d = c := Option.some.inj (hdc.symm.trans hlock)
      obtain rfl : r = p := Option.some.inj (ht.symm.trans hp)
      exact absurd (hrun.symm.trans hz) (by decide)
    · exact absurd (hon.symm.trans hz) (by decide)
  | none =>
    rcases h.threads.sched d ht with ⟨r, hto, -⟩ | hi
    · have hdc : s.lock .ptable = some d := (h.holds d).mpr (by rw [todo_none ht, hto]; simp [phase])
      obtain rfl : d = c := Option.some.inj (hdc.symm.trans hlock)
      exact absurd (ht.symm.trans hp) (by simp)
    · exact absurd (hi.2.1.symm.trans hd) (by simp)

theorem Threads.not_embryo (h : Threads s) (hq : (s.proc q).state ≠ .EMBRYO) (p : Slot) (b : Bool) :
    child (s.proc p).todo ≠ some (q, b) :=
  fun hc => hq (h.embryo p q b hc).1

/-- The process that `fork` fills, next to the one that fills it. -/
theorem Inv.child_of (h : Inv s) {b : Bool} (hp : (s.cpu c).thread = some p)
    (hold : phase (s.proc p).todo ≠ .leaving)
    (hc : child (s.proc p).todo = some (np, b)) :
    (s.proc np).state = .EMBRYO ∧ p ≠ np ∧ (∀ d, (s.cpu d).proc ≠ some np) ∧
      ((s.proc np).todo = [] ∨ (s.proc np).todo = forkret) := by
  have he := (h.threads.embryo p np b hc).1
  have hgone := h.threads.dormant (Or.inr he)
  have hrest := h.threads.off np (h.threads.thread_ne hgone)
  rw [Rest, he] at hrest
  refine ⟨he, ?_, hgone, hrest⟩
  rintro rfl
  exact absurd ((h.threads.running hp hold).symm.trans he) (by decide)

/-- A processor that executes the scheduler, at another place than after its `swtch`. -/
theorem Inv.idle_cpu {st : Stmt} {rest : List Stmt} (h : Inv s) (hc : (s.cpu c).thread = none)
    (hto : (s.cpu c).todo = st :: rest) (hst : ∀ p, st ≠ .back p) : Idle (s.cpu c) := by
  rcases h.threads.sched c hc with ⟨p, ht, -⟩ | hi
  · rw [hto] at ht
    exact absurd (List.cons.inj ht).1 (hst p)
  · exact hi

/-! ### The table -/

/-- `wakeup1` changes states only. -/
theorem wakeTable_eq (ch : Chan) (tbl : Slot → Proc) (q : Slot) :
    ∃ st, wakeTable ch tbl q = { tbl q with state := st } := by
  unfold wakeTable
  split
  · exact ⟨_, rfl⟩
  · exact ⟨_, rfl⟩

theorem soft_wakeTable (ch : Chan) (tbl : Slot → Proc) (q : Slot) :
    Soft (tbl q) (wakeTable ch tbl q) := by
  unfold wakeTable
  split
  · rename_i hs
    exact ⟨rfl, Or.inr ⟨hs.1, rfl⟩⟩
  · exact .rfl' _

theorem deadChild_some {tbl : Slot → Proc} (h : deadChild tbl p = some q) :
    (tbl q).parent = some p ∧ (tbl q).state = .ZOMBIE := by
  have hz : (tbl q).state = .ZOMBIE := by simpa using List.find?_some h
  have hm := List.mem_of_find?_eq_some h
  simp only [children, List.mem_filter] at hm
  exact ⟨by simpa using hm.2, hz⟩

/-- The loop of `exit` changes states and parents. -/
theorem abandon_eq (p : Slot) (tbl : Slot → Proc) (q : Slot) :
    ∃ st o, abandonTable p tbl q = { tbl q with state := st, parent := o } := by
  have horphan : ∃ o, orphans p tbl q = { tbl q with parent := o } := by
    unfold orphans
    split
    · exact ⟨_, rfl⟩
    · exact ⟨_, rfl⟩
  obtain ⟨o, ho⟩ := horphan
  unfold abandonTable
  split
  · obtain ⟨st, hst⟩ := wakeTable_eq (.proc initproc) (orphans p tbl) q
    exact ⟨st, o, by rw [hst, ho]⟩
  · exact ⟨_, o, ho⟩

theorem soft_abandonTable (p : Slot) (tbl : Slot → Proc) (q : Slot) :
    Soft (tbl q) (abandonTable p tbl q) := by
  have horphan : Soft (tbl q) (orphans p tbl q) := by
    unfold orphans
    split
    · exact ⟨rfl, Or.inl rfl⟩
    · exact .rfl' _
  unfold abandonTable
  split
  · have hw := soft_wakeTable (.proc initproc) (orphans p tbl) q
    refine ⟨hw.1.trans horphan.1, ?_⟩
    rcases hw.2 with he | ⟨hs, he⟩
    · rcases horphan.2 with ho | ⟨hs, ho⟩
      · exact Or.inl (he.trans ho)
      · exact Or.inr ⟨hs, he.trans ho⟩
    · rcases horphan.2 with ho | ⟨hs', -⟩
      · exact Or.inr ⟨ho ▸ hs, he⟩
      · exact Or.inr ⟨hs', he⟩
  · exact horphan

theorem findPid_some {tbl : Slot → Proc} {pid : Word} {q : Slot} (h : findPid tbl pid = some q) :
    (tbl q).pid = pid := by
  simpa using List.find?_some h

theorem findPid_none {tbl : Slot → Proc} {pid : Word} (h : findPid tbl pid = none) (q : Slot) :
    (tbl q).pid ≠ pid := by
  simpa using List.find?_eq_none.mp h q (List.mem_finRange q)

theorem killTable_some {tbl : Slot → Proc} {pid : Word} {q : Slot}
    (h : findPid tbl pid = some q) :
    killTable tbl pid = (0, Function.update tbl q (tbl q).kill) := by
  simp only [killTable, h]

theorem killTable_none {tbl : Slot → Proc} {pid : Word} (h : findPid tbl pid = none) :
    killTable tbl pid = (-1, tbl) := by
  simp only [killTable, h]

/-- `kill` changes states and the marks that it leaves. -/
theorem kill_eq (pid : Word) (tbl : Slot → Proc) (q : Slot) : ∃ st k m,
    mark pid (killTable tbl pid).2 q = { tbl q with state := st, killed := k, marked := m } := by
  have hmark : ∀ tbl' : Slot → Proc, (∃ st k, tbl' q = { tbl q with state := st, killed := k }) →
      ∃ st k m, mark pid tbl' q = { tbl q with state := st, killed := k, marked := m } := by
    rintro tbl' ⟨st, k, he⟩
    unfold mark
    rw [he]
    split
    · exact ⟨st, k, true, rfl⟩
    · exact ⟨st, k, (tbl q).marked, rfl⟩
  cases hf : findPid tbl pid with
  | some r =>
    rw [killTable_some hf]
    refine hmark _ ?_
    rcases eq_or_ne q r with rfl | hne
    · exact ⟨_, true, by simp [Proc.kill]; rfl⟩
    · exact ⟨_, _, by simp [hne]; rfl⟩
  | none =>
    rw [killTable_none hf]
    exact hmark tbl ⟨_, _, rfl⟩

theorem soft_killTable (pid : Word) (tbl : Slot → Proc) (q : Slot) :
    Soft (tbl q) (mark pid (killTable tbl pid).2 q) := by
  refine ⟨by obtain ⟨st, k, m, he⟩ := kill_eq pid tbl q; rw [he], ?_⟩
  have hmark : ∀ tbl' : Slot → Proc, (mark pid tbl' q).state = (tbl' q).state := by
    intro tbl'
    unfold mark
    split <;> rfl
  rw [hmark]
  cases hf : findPid tbl pid with
  | some r =>
    rw [killTable_some hf]
    rcases eq_or_ne q r with rfl | hne
    · by_cases hs : (tbl q).state = .SLEEPING
      · exact Or.inr ⟨hs, by simp [Proc.kill, hs]⟩
      · exact Or.inl (by simp [Proc.kill, hs])
    · exact Or.inl (by simp [hne])
  | none =>
    rw [killTable_none hf]
    exact Or.inl rfl

/-! ### The processor that executes -/

variable [DecidableEq κ]

theorem goto_some (h : (s.cpu c).thread = some p) :
    s.goto c l = s.modify p fun r => { r with todo := l } := by
  simp [Sys.goto, h]

theorem goto_none (h : (s.cpu c).thread = none) :
    s.goto c l = s.onCpu c fun k => { k with todo := l } := by
  simp [Sys.goto, h]

/-- The scheduler, without a process, goes on. -/
theorem Threads.schedule (h : Threads s) (hc : (s.cpu c).thread = none) (hi : Idle (s.cpu c))
    (hl : Wf l) (hb : ∀ p, .back p ∉ l) :
    Threads (s.onCpu c fun k => { k with todo := l }) := by
  have hne : ∀ d, d ≠ c → (s.onCpu c fun k => { k with todo := l }).cpu d = s.cpu d :=
    fun d hd => by simp [Sys.onCpu, hd]
  have hself : (s.onCpu c fun k => { k with todo := l }).cpu c = { s.cpu c with todo := l } := by
    simp [Sys.onCpu]
  have hthread : ∀ d, ((s.onCpu c fun k => { k with todo := l }).cpu d).thread =
      (s.cpu d).thread := by
    intro d
    rcases eq_or_ne d c with rfl | hd
    · rw [hself]
    · rw [hne d hd]
  have hproc : ∀ d, ((s.onCpu c fun k => { k with todo := l }).cpu d).proc = (s.cpu d).proc := by
    intro d
    rcases eq_or_ne d c with rfl | hd
    · rw [hself]
    · rw [hne d hd]
  refine ⟨h.wf, ?_, ?_, ?_, ?_, ?_, ?_, h.embryo, h.forker⟩
  · intro d
    rcases eq_or_ne d c with rfl | hd
    · rw [hself]
      exact hl
    · rw [hne d hd]
      exact h.wfSched d
  · intro d p hd
    rw [hthread] at hd
    have hdc : d ≠ c := by
      rintro rfl
      exact absurd (hc.symm.trans hd) (by simp)
    rw [hne d hdc]
    exact h.current d p hd
  · intro d hd
    rw [hthread] at hd
    rcases eq_or_ne d c with rfl | hdc
    · right
      rw [hself]
      exact ⟨hb, hi.2⟩
    · unfold Back
      rw [hne d hdc]
      exact h.sched d hd
  · intro d e p hd he
    rw [hproc] at hd he
    exact h.inj d e p hd he
  · intro d p hd
    rw [hthread] at hd
    exact h.on d p hd
  · exact fun p hp => h.off p fun d => hthread d ▸ hp d

theorem goto_todo (l : List Stmt) : (s.goto c l).todo c = l := by
  cases hc : (s.cpu c).thread with
  | some p =>
    rw [goto_some hc, todo_some (p := p) (by simpa using hc)]
    simp
  | none =>
    rw [goto_none hc]
    simp [Sys.todo, Sys.onCpu, hc]

theorem goto_cpu (h : d ≠ c) : (s.goto c l).cpu d = s.cpu d := by
  unfold Sys.goto
  split
  · rfl
  · simp [Sys.onCpu, h]

theorem goto_thread : ((s.goto c l).cpu d).thread = (s.cpu d).thread := by
  rcases eq_or_ne d c with rfl | hd
  · unfold Sys.goto
    split
    · rfl
    · simp [Sys.onCpu]
  · rw [goto_cpu hd]

theorem goto_todo_ne (h : Threads s) (hd : d ≠ c) : (s.goto c l).todo d = s.todo d := by
  cases hc : (s.cpu c).thread with
  | some p =>
    rw [goto_some hc]
    cases hq : (s.cpu d).thread with
    | some q =>
      have hne : q ≠ p := by
        rintro rfl
        exact hd (h.thread_inj hq hc)
      rw [todo_some (p := q) hq, todo_some (p := q) (by simpa using hq), modify_of_ne hne]
    | none => rw [todo_none hq, todo_none (by simpa using hq), modify_cpu]
  | none =>
    rw [goto_none hc]
    have he : (s.onCpu c fun k => { k with todo := l }).cpu d = s.cpu d := by
      simp [Sys.onCpu, hd]
    unfold Sys.todo
    rw [he]
    rfl

theorem Locks.take {lk : Lock} (h : Locks s) (hfree : s.lock lk = none)
    (hlock : t.lock = Function.update s.lock lk (some c))
    (hne : ∀ d, d ≠ c → (t.cpu d).ncli = (s.cpu d).ncli)
    (hself : (t.cpu c).ncli = (s.cpu c).ncli + 1) : Locks t := by
  obtain ⟨held, hheld, hcard⟩ := h
  have hnot : ∀ d, lk ∉ held d := fun d hd => by
    have := (hheld lk d).mpr hd
    rw [hfree] at this
    exact absurd this (by simp)
  refine ⟨Function.update held c (insert lk (held c)), fun lk' d => ?_, fun d => ?_⟩
  · rw [hlock]
    rcases eq_or_ne lk' lk with rfl | hl
    · rcases eq_or_ne d c with rfl | hd
      · simp
      · simp [hd, hnot d, hd.symm]
    · rw [Function.update_of_ne hl, hheld]
      rcases eq_or_ne d c with rfl | hd
      · simp [hl]
      · simp [hd]
  · rcases eq_or_ne d c with rfl | hd
    · rw [hself, Function.update_self, Finset.card_insert_of_notMem (hnot d), hcard]
    · rw [hne d hd, Function.update_of_ne hd, hcard]

theorem Locks.give {lk : Lock} (h : Locks s) (hmine : s.lock lk = some c)
    (hlock : t.lock = Function.update s.lock lk none)
    (hne : ∀ d, d ≠ c → (t.cpu d).ncli = (s.cpu d).ncli)
    (hself : (t.cpu c).ncli = (s.cpu c).ncli - 1) : Locks t := by
  obtain ⟨held, hheld, hcard⟩ := h
  have hin : lk ∈ held c := (hheld lk c).mp hmine
  have honly : ∀ d, lk ∈ held d → d = c := fun d hd =>
    Option.some.inj (((hheld lk d).mpr hd).symm.trans hmine)
  refine ⟨Function.update held c ((held c).erase lk), fun lk' d => ?_, fun d => ?_⟩
  · rw [hlock]
    rcases eq_or_ne lk' lk with rfl | hl
    · rcases eq_or_ne d c with rfl | hd
      · simp
      · simpa [hd] using fun hm => hd (honly d hm)
    · rw [Function.update_of_ne hl, hheld]
      rcases eq_or_ne d c with rfl | hd
      · simp [hl]
      · simp [hd]
  · rcases eq_or_ne d c with rfl | hd
    · rw [hself, Function.update_self, Finset.card_erase_of_mem hin, hcard]
    · rw [hne d hd, Function.update_of_ne hd, hcard]

/-! ### Statements -/

/-- Going on with the next statement, in the phase it is in, also in the scheduler. -/
theorem Threads.tail {st : Stmt} {rest : List Stmt} (h : Threads s) (hto : s.todo c = st :: rest)
    (hback : ∀ p, st ≠ .back p) (hold : phase (st :: rest) ≠ .leaving)
    (hnew : phase rest ≠ .leaving) (hwf : Wf rest) (hchild : child (st :: rest) = child rest) :
    Threads (s.goto c rest) := by
  cases hc : (s.cpu c).thread with
  | some p =>
    rw [todo_some hc] at hto
    rw [goto_some hc]
    refine h.advance' hc (hto ▸ hold) rfl (by simp) (by simp) hnew hwf (fun np b hl => ?_) ?_
    · exact Or.inl (by rw [hto, hchild, hl])
    · intro q hq
      rw [modify_of_ne hq]
      exact .rfl' _
  | none =>
    rw [todo_none hc] at hto
    rw [goto_none hc]
    have hi : Idle (s.cpu c) := by
      rcases h.sched c hc with ⟨p, ht, -⟩ | hi
      · rw [hto] at ht
        exact absurd (List.cons.inj ht).1 (hback p)
      · exact hi
    refine h.schedule hc hi hwf fun p hp => hi.1 p ?_
    rw [hto]
    exact List.mem_cons_of_mem st hp

theorem relock_threads {lk : Lock} {o : Option κ} {n : ℕ} (h : Threads s) :
    Threads (s.relock c lk o n) := by
  refine h.congr (fun d => ?_) rfl
  rcases eq_or_ne d c with rfl | hd
  · exact ⟨n, by simp [Sys.relock]⟩
  · exact ⟨(s.cpu d).ncli, by simp [Sys.relock, hd]⟩

theorem relock_todo {lk : Lock} {o : Option κ} {n : ℕ} (d : κ) :
    (s.relock c lk o n).todo d = s.todo d := by
  rcases eq_or_ne d c with rfl | hd
  · simp [Sys.todo, Sys.relock]
  · simp [Sys.todo, Sys.relock, hd]

theorem goto_ncli : ((s.goto c l).cpu d).ncli = (s.cpu d).ncli := by
  rcases eq_or_ne d c with rfl | hd
  · unfold Sys.goto
    split
    · rfl
    · simp [Sys.onCpu]
  · rw [goto_cpu hd]

theorem goto_lock : (s.goto c l).lock = s.lock := by
  unfold Sys.goto
  split <;> rfl

theorem inv_acquire {lk : Lock} {rest : List Stmt} (h : Inv s)
    (hto : s.todo c = .acquire lk :: rest) (ht : (s.goto c rest).acquire c lk = some t) :
    Inv t := by
  have hwf := hto ▸ h.todo_wf c
  obtain ⟨hfree, ht⟩ := Option.ite_none_right_eq_some.mp ht
  obtain rfl := Option.some.inj ht
  rw [goto_lock] at hfree
  have hthreads : Threads (s.goto c rest) := by
    cases lk with
    | ptable =>
      exact h.threads.tail hto (by simp) (by simp [phase]) (by simp [hwf.1]) hwf.2 rfl
    | other lk =>
      exact h.threads.tail hto (by simp) (by simp [phase]) (by simp [hwf.1]) hwf.2 rfl
  refine ⟨?_, ?_, relock_threads hthreads⟩
  · refine h.locks.take (c := c) hfree (by simp [Sys.relock, goto_lock]) (fun d hd => ?_) ?_
    · simp [Sys.relock, hd, goto_ncli]
    · simp [Sys.relock, goto_ncli]
  · intro d
    rw [relock_todo]
    simp only [Sys.relock, goto_lock]
    cases lk with
    | ptable =>
      rw [Function.update_self]
      rcases eq_or_ne d c with rfl | hd
      · rw [goto_todo, hwf.1]
        simp
      · rw [goto_todo_ne h.threads hd, Option.some.injEq, eq_comm (a := c)]
        refine iff_of_false hd ?_
        rw [← h.holds d, hfree]
        simp
    | other lk =>
      rw [Function.update_of_ne (by simp), h.holds d]
      rcases eq_or_ne d c with rfl | hd
      · rw [goto_todo, hto, hwf.1]
        simp [phase]
      · rw [goto_todo_ne h.threads hd]

theorem inv_release {lk : Lock} {rest : List Stmt} (h : Inv s)
    (hto : s.todo c = .release lk :: rest) (ht : (s.goto c rest).release c lk = some t) :
    Inv t := by
  have hwf := hto ▸ h.todo_wf c
  obtain ⟨hmine, ht⟩ := Option.ite_none_right_eq_some.mp ht
  obtain rfl := Option.some.inj ht
  rw [goto_lock] at hmine
  have hthreads : Threads (s.goto c rest) := by
    cases lk with
    | ptable =>
      exact h.threads.tail hto (by simp) (by simp [phase]) (by simp [hwf.1]) hwf.2 rfl
    | other lk =>
      exact h.threads.tail hto (by simp) (by simp [phase, hwf.1]) hwf.1 hwf.2 rfl
  refine ⟨?_, ?_, relock_threads hthreads⟩
  · refine h.locks.give (c := c) hmine (by simp [Sys.relock, goto_lock]) (fun d hd => ?_) ?_
    · simp [Sys.relock, hd, goto_ncli]
    · simp [Sys.relock, goto_ncli]
  · intro d
    rw [relock_todo]
    simp only [Sys.relock, goto_lock]
    cases lk with
    | ptable =>
      rw [Function.update_self]
      refine iff_of_false (by simp) (not_not.mpr ?_)
      rcases eq_or_ne d c with rfl | hd
      · rw [goto_todo, hwf.1]
      · rw [goto_todo_ne h.threads hd]
        exact h.holds.alone hmine hd
    | other lk =>
      rw [Function.update_of_ne (by simp), h.holds d]
      rcases eq_or_ne d c with rfl | hd
      · rw [goto_todo, hto]
        simp [phase]
      · rw [goto_todo_ne h.threads hd]

/-- Going on without changing the phase. -/
theorem Inv.tail {st : Stmt} {rest : List Stmt} (h : Inv s) (hto : s.todo c = st :: rest)
    (hback : ∀ p, st ≠ .back p) (hold : phase (st :: rest) ≠ .leaving)
    (hnew : phase rest = phase (st :: rest)) (hwf : Wf rest)
    (hchild : child (st :: rest) = child rest) : Inv (s.goto c rest) where
  locks := h.locks.keep goto_lock fun _ => goto_ncli
  holds := h.holds.keep goto_lock fun d => by
    rcases eq_or_ne d c with rfl | hd
    · rw [goto_todo, hto, hnew]
    · rw [goto_todo_ne h.threads hd]
  threads := h.threads.tail hto hback hold (hnew ▸ hold) hwf hchild

theorem inv_wakeup1 {ch : Chan} {rest : List Stmt} (h : Inv s)
    (hto : s.todo c = .wakeup1 ch :: rest) :
    Inv (Sys.goto { s with proc := wakeTable ch s.proc } c rest) := by
  have hwf := hto ▸ h.todo_wf c
  have hsoft := h.soft (soft_wakeTable ch s.proc)
  have hto' := (soft_todo (soft_wakeTable ch s.proc) c).trans hto
  exact hsoft.tail hto' (by simp) (by simp [phase]) (by simp [phase, hwf.1]) hwf.2 rfl

end

end Xv6.Sched
