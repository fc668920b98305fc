import Xv6.Sched.Settled
import Xv6.Sched.Sleeplock

/-! @src sleeplock.c proc.c | name:Sleep locks exclude and strand nobody | layer:proof

    Whoever is in the middle of a function of the lock, between two of its calls, has the spinlock.
    So the flag is set and cleared by one process at a time, a process that goes to sleep has seen
    it set, and who clears it keeps the spinlock until the sleepers are awake. -/

namespace Xv6.Sleep
open Xv6.Schemes
open Xv6.Schemes.X86 (Word)
open Xv6.Process (Slot ProcState)
open Xv6.Sched (Stmt Call Handler Sound Settled Dying Lives Alive InSleep Holding Going Calm Asleep)

variable {κ : Type} {a lk : ℕ} {p q : Slot} {c d : κ} {x : Point}

/-! ### Processes in the kernel -/

section Kernel

variable {k k' : Sched.Sys κ} {act : Sched.Act κ}

/-- The process has the spinlock of the lock. -/
def Has (lk : ℕ) (k : Sched.Sys κ) (p : Slot) : Prop :=
  ∃ c, (k.cpu c).thread = some p ∧ k.lock (.other lk) = some c

/-- The process is going to sleep on the lock, or is asleep on it. -/
def Bound (a lk : ℕ) (k : Sched.Sys κ) (p : Slot) : Prop :=
  Holding k p a lk (k.proc p).calls ∨ Going k p a lk (k.proc p).calls ∨ Asleep (k.proc p) a

/-- The process is going to sleep on the lock, or will not in this call. -/
def Decides (a lk : ℕ) (k : Sched.Sys κ) (p : Slot) : Prop :=
  Holding k p a lk (k.proc p).calls ∨ Going k p a lk (k.proc p).calls ∨ Calm (k.proc p).todo

/-- The action is not a call of the process. -/
def NoCall (k : Sched.Sys κ) (act : Sched.Act κ) (p : Slot) : Prop :=
  ∀ c f, act = .call c f → (k.cpu c).thread ≠ some p

variable [DecidableEq κ]

omit [DecidableEq κ] in
theorem Has.unique (hp : Has lk k p) (hq : Has lk k q) : p = q := by
  obtain ⟨c, hc, hl⟩ := hp
  obtain ⟨d, hd, hl'⟩ := hq
  obtain rfl := Option.some.inj (hl.symm.trans hl')
  exact Option.some.inj (hc.symm.trans hd)

/-- With the spinlock, a process is disturbed by nobody. -/
theorem Has.step (hi : Sched.Inv k) (h : Has lk k p) (hst : k.Step act k') (hno : NoCall k act p) :
    Has lk k' p ∧ (k'.proc p).todo = (k.proc p).todo ∨
      ∃ c ok st rest, (k.cpu c).thread = some p ∧ k.lock (.other lk) = some c ∧
        (k.proc p).todo = st :: rest ∧ k.procStmt c p ok rest st = some k' := by
  obtain ⟨c, hc, hl⟩ := h
  by_cases hcpu : act.cpu = c
  · subst hcpu
    right
    cases Sched.stepped hst with
    | @proc c ok q st rest hq hto ht =>
      obtain rfl : q = p := Option.some.inj (hq.symm.trans hc)
      exact ⟨c, ok, st, rest, hq, hl, hto, ht⟩
    | sched hnone _ _ => exact absurd (hc.symm.trans hnone) (by simp)
    | @call c q f hq _ _ _ => exact absurd hc (hno c f rfl)
    | intr hncli _ => exact absurd hl (hi.locks.none_held hncli _)
  · obtain ⟨-, hto, hthread⟩ := Sched.undisturbed hi hst hc hcpu
    exact Or.inl ⟨⟨c, hthread, (Sched.elsewhere_step hi hst).lock _ c (Ne.symm hcpu) hl⟩, hto⟩

theorem inSleep_step (hi : Sched.Inv k) (h : InSleep k p lk) (ha : Alive (k.proc p).state)
    (hst : k.Step act k') (hno : NoCall k act p) : InSleep k' p lk := by
  cases Sched.felt hi hst p with
  | run _ hp hto ht => exact h.run hi hp hto ht
  | call he hp _ _ => exact absurd hp (hno _ _ he)
  | intr _ hp hncli ht => exact ht ▸ h.intr hi hp hncli
  | away hme haway =>
    rcases haway.todo with ⟨hto, -⟩ | ⟨he, -, -⟩
    · exact h.away hi hst hme hto
    · exact absurd he ha.ne.2.1

/-- The calls of a process are counted when it makes them. -/
theorem calls_eq (hi : Sched.Inv k) (hst : k.Step act k') (hno : NoCall k act p) :
    (k'.proc p).calls = (k.proc p).calls := by
  cases Sched.felt hi hst p with
  | run _ hp hto ht => exact (Sched.procStep hi hp hto ht).own.calls
  | call he hp _ _ => exact absurd hp (hno _ _ he)
  | intr _ _ _ ht => rw [ht, Sched.modify_self]
  | away _ haway => exact haway.calls

/-- What the process is going to do about its sleep, and that nobody puts it to sleep. -/
theorem decides_step (hi : Sched.Inv k) (h : Decides a lk k p) (hst : k.Step act k')
    (hno : NoCall k act p) :
    Decides a lk k' p ∧ (Bound a lk k' p → Bound a lk k p) := by
  have hcalls := calls_eq hi hst hno
  have hgone : Sched.Gone k' p (k.proc p).calls → Calm (k'.proc p).todo := fun hg => by
    rcases hg with hlt | ⟨-, hcalm⟩
    · exact absurd hlt (by omega)
    · exact hcalm
  rcases h with hh | hg | hcalm
  · refine ⟨?_, fun _ => Or.inl hh⟩
    unfold Decides
    rw [hcalls]
    exact (hh.step hi hst).imp_right Or.inl
  · refine ⟨?_, fun _ => Or.inr (Or.inl hg)⟩
    unfold Decides
    rw [hcalls]
    exact Or.inr ((hg.step hi hst).imp_right hgone)
  · obtain ⟨-, hcalm', hback⟩ := (Sched.calm_step (a := a) hi hcalm hst).resolve_left (by omega)
    refine ⟨Or.inr (Or.inr hcalm'), ?_⟩
    rintro (⟨-, e, -, -, hto⟩ | ⟨-, e, -, hto⟩ | hs)
    · rcases hto with hto | hto <;>
        exact absurd rfl (hcalm' (.setState .SLEEPING) (by simp [hto, Sched.intoSleep])).1
    · rcases hto with hto | hto <;>
        exact absurd rfl (hcalm' (.setState .SLEEPING) (by simp [hto, Sched.intoSleep])).1
    · exact Or.inr (Or.inr (hback hs))

/-- The process has the channel `a`, or is about to. -/
def Toward (a : ℕ) (r : Sched.Proc) : Prop :=
  r.chan = some (.other a) ∨ .setChan (.other a) ∈ r.todo

theorem toward_step (hi : Sched.Inv k) (hst : k.Step act k') (hno : NoCall k act p)
    (h : Toward a (k'.proc p)) : Toward a (k.proc p) := by
  cases Sched.felt hi hst p with
  | @run _ _ st rest _ hp hto ht =>
    have hown := (Sched.procStep hi hp hto ht).own
    have hin : .setChan (.other a) ∈ rest → Toward a (k.proc p) := fun hm =>
      Or.inr (hto ▸ List.mem_cons_of_mem _ hm)
    rcases h with hchan | hmem
    · by_cases hset : ∃ ch, st = .setChan ch
      · obtain ⟨ch, rfl⟩ := hset
        obtain rfl := Option.some.inj ht
        rw [Sched.modify_self] at hchan
        obtain rfl := Option.some.inj hchan
        exact Or.inr (hto ▸ List.mem_cons_self)
      · rcases hown.chan fun ch hch => hset ⟨ch, hch⟩ with he | he
        · exact Or.inl (he ▸ hchan)
        · exact absurd (he.symm.trans hchan) (by simp)
    · rcases hown.todo with hrest | ⟨hleap, -⟩
      · exact hin (hrest ▸ hmem)
      · exact (Sched.leap_mem hp hleap ht hmem).elim hin fun h => absurd rfl (h.2 a)
  | call he hp _ _ => exact absurd hp (hno _ _ he)
  | @intr _ i _ _ _ ht =>
    subst ht
    rw [Sched.modify_self] at h
    rcases h with hchan | hmem
    · exact Or.inl hchan
    · rcases List.mem_append.mp hmem with hm | hm
      · cases i <;> simp [Handler.code] at hm
      · exact Or.inr hm
  | away _ haway =>
    rcases h with hchan | hmem
    · exact Or.inl (haway.chan ▸ hchan)
    · rcases haway.todo with ⟨hto, -⟩ | ⟨-, hto, -⟩
      · exact Or.inr (hto ▸ hmem)
      · simp [hto, Sched.forkret] at hmem

/-- The statements of `wakeup`, up to its loop. -/
def Waking (a : ℕ) (l : List Stmt) : Prop :=
  l = (Call.wakeup a).code ∨ l = [.wakeup1 (.other a), .release .ptable]

/-- `wakeup`, called with the spinlock, is executed to its end with it. -/
theorem wakeup_step (hi : Sched.Inv k) (h : Has lk k p)
    (hto : Waking a (k.proc p).todo ∨ (k.proc p).todo = [.release .ptable] ∨ (k.proc p).todo = [])
    (hst : k.Step act k') (hno : NoCall k act p) :
    Has lk k' p ∧ ((k'.proc p).todo = (k.proc p).todo ∨
      Waking a (k.proc p).todo ∧ Waking a (k'.proc p).todo ∨
      Waking a (k.proc p).todo ∧ (k'.proc p).todo = [.release .ptable] ∧
        (∀ q, ¬ Asleep (k'.proc q) a) ∨
      (k'.proc p).todo = [] ∧ (k.proc p).todo = [.release .ptable]) := by
  rcases h.step hi hst hno with ⟨hh, hsame⟩ | ⟨c, ok, st, rest, hc, hl, hcode, ht⟩
  · exact ⟨hh, Or.inl hsame⟩
  have hstep := Sched.procStep hi hc hcode ht
  rw [hcode] at hto ⊢
  rcases hto with (hto | hto) | hto | hto
  · obtain ⟨rfl, rfl⟩ := List.cons.inj hto
    have hrest := hstep.own.todo.resolve_right fun hleap => hleap.1
    exact ⟨⟨c, (hstep.thread (by simp)).trans hc, hstep.lock (by simp) _ hl⟩,
      Or.inr (Or.inl ⟨Or.inl rfl, Or.inr hrest⟩)⟩
  · obtain ⟨rfl, rfl⟩ := List.cons.inj hto
    have hrest := hstep.own.todo.resolve_right fun hleap => hleap.1
    refine ⟨⟨c, (hstep.thread (by simp)).trans hc, hstep.lock (by simp) _ hl⟩,
      Or.inr (Or.inr (Or.inl ⟨Or.inr rfl, hrest, fun q => ?_⟩))⟩
    obtain rfl := Option.some.inj ht
    rw [Sched.goto_some (p := p) (by exact hc)]
    by_cases hqp : q = p
    · subst hqp
      rw [Sched.modify_self]
      exact fun hs => Sched.not_asleep_wakeTable k.proc hs
    · rw [Sched.modify_of_ne hqp]
      exact Sched.not_asleep_wakeTable k.proc
  · obtain ⟨rfl, rfl⟩ := List.cons.inj hto
    have hrest := hstep.own.todo.resolve_right fun hleap => hleap.1
    refine ⟨⟨c, (hstep.thread (by simp)).trans hc, ?_⟩, Or.inr (Or.inr (Or.inr ⟨hrest, rfl⟩))⟩
    -- release(&ptable.lock) leaves the spinlock alone
    obtain ⟨-, ht⟩ := Option.ite_none_right_eq_some.mp ht
    obtain rfl := Option.some.inj ht
    simpa [Sched.Sys.relock, Sched.goto_lock] using hl
  · exact absurd hto (by simp)

end Kernel

/-! ### Where the processes stand -/

/-- What holds of a process before the statement at `x`, or on its way there. -/
def Stands (a lk : ℕ) (k : Sched.Sys κ) (locked inside : Bool) (p : Slot) : Point → Prop
  | .none => True
  | .loop => InSleep k p lk ∧ Decides a lk k p
  | .clearLocked => InSleep k p lk ∧ inside = false
  | .read => InSleep k p lk
  | .setLocked | .clearPid => (k.proc p).todo = [] ∧ Has lk k p ∧ locked = false
  | .setPid => (k.proc p).todo = [] ∧ Has lk k p
  | .release => Has lk k p ∧
      (Waking a (k.proc p).todo ∨ (k.proc p).todo = [.release .ptable] ∨ (k.proc p).todo = [])

/-- The process has set the flag, and not cleared it. -/
def Owns (x : Point) (inside : Bool) : Prop := inside = true ∨ x = .setPid ∨ x = .clearLocked

theorem Owns.inside {i : Bool} (h : Owns x i) (hx : x ≠ .setPid) (hx' : x ≠ .clearLocked) : i = true := by
  rcases h with h | h | h
  · exact h
  · exact absurd h hx
  · exact absurd h hx'

/-- The process has cleared the flag, and has not woken the others up yet. -/
def Wakes (a : ℕ) (k : Sched.Sys κ) (p : Slot) (x : Point) : Prop :=
  x = .clearPid ∨ x = .release ∧ Waking a (k.proc p).todo

/-- A process and the lock. -/
structure Each (a lk : ℕ) (k : Sched.Sys κ) (l : Sleeplock) (p : Slot) (x : Point)
    (inside : Bool) : Prop where
  stands : Stands a lk k l.locked inside p x
  toward : Toward a (k.proc p) → x = .loop
  lives : x ≠ .none ∨ inside = true → Alive (k.proc p).state ∧ (k.proc p).call ≠ some .exit
  locked : Owns x inside → l.locked = true
  pid : inside = true → l.pid = (k.proc p).pid

/-- What holds in every reachable state. -/
structure Good (a lk : ℕ) (s : Sys κ) : Prop where
  sound : Sound s.kernel
  settled : Settled s.kernel
  dying : Dying s.kernel
  each : ∀ p, Each a lk s.kernel s.lock p (s.point p) (s.inside p)
  owner : ∀ p q, Owns (s.point p) (s.inside p) → Owns (s.point q) (s.inside q) → p = q
  awake : ∀ p, s.point p = .loop → Bound a lk s.kernel p →
    s.lock.locked = true ∨ ∃ q, Wakes a s.kernel q (s.point q)

section Steps

variable [DecidableEq κ] {k k' : Sched.Sys κ} {act : Sched.Act κ} {l l' : Sleeplock} {i : Bool}
  {s t : Sys κ}

theorem stands_step (hs : Sound k) (hst : k.Step act k') (hno : NoCall k act p)
    (ha : x ≠ .none → Alive (k.proc p).state) (h : Stands a lk k l.locked i p x) :
    Stands a lk k' l.locked i p x := by
  have hquiet : (k.proc p).todo = [] → Has lk k p → (k'.proc p).todo = [] ∧ Has lk k' p :=
    fun hto hh => by
      rcases hh.step hs.1 hst hno with ⟨hh', hsame⟩ | ⟨_, _, _, _, _, _, hcode, _⟩
      · exact ⟨hsame.trans hto, hh'⟩
      · exact absurd (hto.symm.trans hcode) (by simp)
  cases x with
  | none => trivial
  | loop =>
    exact ⟨inSleep_step hs.1 h.1 (ha (by simp)) hst hno, (decides_step hs.1 h.2 hst hno).1⟩
  | clearLocked => exact ⟨inSleep_step hs.1 h.1 (ha (by simp)) hst hno, h.2⟩
  | read => exact inSleep_step hs.1 h (ha (by simp)) hst hno
  | setLocked | clearPid =>
    obtain ⟨hto, hh⟩ := hquiet h.1 h.2.1
    exact ⟨hto, hh, h.2.2⟩
  | setPid => exact hquiet h.1 h.2
  | release =>
    obtain ⟨hh, hto⟩ := wakeup_step hs.1 h.1 h.2 hst hno
    refine ⟨hh, ?_⟩
    rcases hto with hto | ⟨-, hto⟩ | ⟨-, hto, -⟩ | ⟨hto, -⟩
    · exact hto ▸ h.2
    · exact Or.inl hto
    · exact Or.inr (Or.inl hto)
    · exact Or.inr (Or.inr hto)

theorem Each.step (hs : Sound k) (hd : Dying k) (hst : k.Step act k') (hno : NoCall k act p)
    (h : Each a lk k l p x i) : Each a lk k' l p x i where
  stands := stands_step hs hst hno (fun hx => (h.lives (Or.inl hx)).1) h.stands
  toward := fun ht => h.toward (toward_step hs.1 hst hno ht)
  lives := fun hx => by
    obtain ⟨ha, hcall⟩ := h.lives hx
    refine ⟨(Sched.lives_step hs.1 hd hst hcall ha).2, ?_⟩
    cases Sched.felt hs.1 hst p with
    | run _ hp hto ht => rwa [(Sched.procStep hs.1 hp hto ht).own.call]
    | call he hp _ _ => exact absurd hp (hno _ _ he)
    | intr _ _ _ ht =>
      subst ht
      rwa [Sched.modify_self]
    | away _ haway =>
      rcases haway.todo with ⟨-, he⟩ | ⟨-, -, he⟩
      · rwa [he]
      · simp [he]
  locked := h.locked
  pid := fun hi => by
    obtain ⟨ha, hcall⟩ := h.lives (Or.inr hi)
    rw [(Sched.lives_step hs.1 hd hst hcall ha).1, h.pid hi]

/-! ### The kernel goes on -/

omit [DecidableEq κ] in
/-- Who has just executed the loop of `wakeup` has left nobody on the way to sleep. -/
theorem not_bound (hi : Sched.Inv k) (hq : Has lk k q) (hto : (k.proc q).todo = [.release .ptable])
    (hnone : ∀ r, ¬ Asleep (k.proc r) a) (hne : p ≠ q) : ¬ Bound a lk k p := by
  rintro (⟨-, c, hc, hl, -⟩ | ⟨-, c, hc, hgoing⟩ | hs)
  · exact hne (Has.unique ⟨c, hc, hl⟩ hq)
  · obtain ⟨d, hd, -⟩ := hq
    have hpl : k.lock .ptable = some c := hi.has_lock hc (by
      rcases hgoing with hgoing | hgoing <;> simp [hgoing, Sched.intoSleep, Sched.phase])
    have hql : k.lock .ptable = some d := hi.has_lock hd (by simp [hto, Sched.phase])
    obtain rfl := Option.some.inj (hpl.symm.trans hql)
    exact hne (Option.some.inj (hc.symm.trans hd))
  · exact hnone p hs

theorem Good.kernel (h : Good a lk s) (hst : s.kernel.Step act k')
    (hno : ∀ p, NoCall s.kernel act p) : Good a lk { s with kernel := k' } where
  sound := h.sound.step hst
  settled := Sched.settled_step h.sound.1 h.sound.2 h.settled hst
  dying := Sched.dying_step h.sound.1 h.dying hst
  each := fun p => (h.each p).step h.sound h.dying hst (hno p)
  owner := h.owner
  awake := fun p hp hb => by
    have hpoint : s.point p = .loop := hp
    have hdec : Decides a lk s.kernel p := by
      have := (h.each p).stands
      rw [hpoint] at this
      exact this.2
    rcases h.awake p hpoint ((decides_step h.sound.1 hdec hst (hno p)).2 hb) with hl | ⟨q, hq⟩
    · exact Or.inl hl
    rcases hq with hq | ⟨hq, hw⟩
    · exact Or.inr ⟨q, Or.inl hq⟩
    have hstands := (h.each q).stands
    rw [hq] at hstands
    obtain ⟨hh, hto⟩ := wakeup_step h.sound.1 hstands.1 hstands.2 hst (hno q)
    rcases hto with hto | ⟨-, hto⟩ | ⟨-, hto, hnone⟩ | ⟨-, hto⟩
    · exact Or.inr ⟨q, Or.inr ⟨hq, by rwa [hto]⟩⟩
    · exact Or.inr ⟨q, Or.inr ⟨hq, hto⟩⟩
    · have hne : p ≠ q := by
        rintro rfl
        exact absurd (hpoint.symm.trans hq) (by simp)
      exact absurd hb (not_bound (h.sound.step hst).1 hh hto hnone hne)
    · rw [hto] at hw
      rcases hw with hw | hw <;> exact absurd hw (by simp [Call.code])

/-! ### A process goes on -/

/-- What a process does between two calls: the call that it makes, if any, and what becomes of the
    lock, of the place where it is and of its being inside. -/
inductive Does (a lk : ℕ) (s : Sys κ) (p : Slot) : Option Call → Sleeplock → Point → Bool → Prop
  | other {f : Call} : s.point p = .none → sleepsOn f ≠ some a →
      Does a lk s p (some f) s.lock .none (if f = .exit then false else s.inside p)
  | acquiresleep : s.point p = .none →
      Does a lk s p (some (.acquire lk)) s.lock .loop (s.inside p)
  | releasesleep : s.point p = .none → s.inside p = true →
      Does a lk s p (some (.acquire lk)) s.lock .clearLocked false
  | holdingsleep : s.point p = .none →
      Does a lk s p (some (.acquire lk)) s.lock .read (s.inside p)
  | sleep : s.point p = .loop → s.lock.locked = true →
      Does a lk s p (some (.sleep a lk)) s.lock .loop (s.inside p)
  | pass : s.point p = .loop → s.lock.locked = false →
      Does a lk s p none s.lock .setLocked (s.inside p)
  | take : s.point p = .setLocked →
      Does a lk s p none { s.lock with locked := true } .setPid (s.inside p)
  | sign : s.point p = .setPid →
      Does a lk s p (some (.release lk)) { s.lock with pid := (s.kernel.proc p).pid } .none true
  | drop : s.point p = .clearLocked →
      Does a lk s p none { s.lock with locked := false } .clearPid (s.inside p)
  | unsign : s.point p = .clearPid →
      Does a lk s p (some (.wakeup a)) { s.lock with pid := 0 } .release (s.inside p)
  | done : s.point p = .release → Does a lk s p (some (.release lk)) s.lock .none (s.inside p)
  | read : s.point p = .read → Does a lk s p (some (.release lk)) s.lock .none (s.inside p)

/-- The kernel after the call, if there is one. -/
def after (k : Sched.Sys κ) (c : κ) : Option Call → Option (Sched.Sys κ)
  | none => some k
  | some f => k.call c f

/-- The process `p`, which runs on the processor `c`, does something between two calls. -/
structure Acts (a lk : ℕ) (s t : Sys κ) (c : κ) (p : Slot) (f : Option Call) (l : Sleeplock)
    (x : Point) (i : Bool) : Prop where
  thread : (s.kernel.cpu c).thread = some p
  todo : (s.kernel.proc p).todo = []
  does : Does a lk s p f l x i
  kernel : after s.kernel c f = some t.kernel
  lock : t.lock = l
  point : t.point = Function.update s.point p x
  inside : t.inside = Function.update s.inside p i

omit [DecidableEq κ] in
theorem acts_calls {u : Sys κ} {f : Call} (h : u.calls c p f x = some t)
    (hp : (s.kernel.cpu c).thread = some p) (hto : (s.kernel.proc p).todo = [])
    (hdoes : Does a lk s p (some f) u.lock x i) (hkernel : u.kernel = s.kernel)
    (hpoint : u.point = s.point) (hinside : u.inside = Function.update s.inside p i) :
    Acts a lk s t c p (some f) u.lock x i := by
  obtain ⟨k', hk', rfl⟩ := Option.map_eq_some_iff.mp h
  exact ⟨hp, hto, hdoes, hkernel ▸ hk', rfl, by simp [Sys.setPoint, hpoint], hinside⟩

/-- A step is one of the kernel, or a process does something. -/
theorem stepped {act : Act κ} (hst : s.Step a lk act t) :
    (∃ kact k', (∀ p, NoCall s.kernel kact p) ∧ s.kernel.Step kact k' ∧
      t = { s with kernel := k' }) ∨
    ∃ c p f l x i, Acts a lk s t c p f l x i := by
  have hbetween : ∀ {c : κ} {f : Slot → Option (Sys κ)}, s.between c f = some t →
      ∃ p, (s.kernel.cpu c).thread = some p ∧ (s.kernel.proc p).todo = [] ∧ f p = some t :=
    fun h => by
      obtain ⟨p, hp, h⟩ := Option.bind_eq_some_iff.mp h
      obtain ⟨hto, h⟩ := Option.ite_none_right_eq_some.mp h
      exact ⟨p, hp, hto, h⟩
  have hkernel : ∀ {kact : Sched.Act κ}, (∀ c f, kact ≠ .call c f) →
      (s.kernel.next kact).map (fun k => { s with kernel := k }) = some t →
      ∃ kact k', (∀ p, NoCall s.kernel kact p) ∧ s.kernel.Step kact k' ∧
        t = { s with kernel := k' } := fun hno h => by
    obtain ⟨k', hk', rfl⟩ := Option.map_eq_some_iff.mp h
    exact ⟨_, k', fun p c f he => absurd he (hno c f), hk', rfl⟩
  have hsame : ∀ p, s.inside = Function.update s.inside p (s.inside p) := fun p =>
    (Function.update_eq_self p s.inside).symm
  cases act with
  | kernel kact =>
    cases kact with
    | run c ok => exact Or.inl (hkernel (by simp) hst)
    | intr c i => exact Or.inl (hkernel (by simp) hst)
    | call c f =>
      right
      obtain ⟨p, hp, hto, h⟩ := hbetween hst
      obtain ⟨⟨hnone, hsleeps⟩, h⟩ := Option.ite_none_right_eq_some.mp h
      have hdoes : Does a lk s p (some f) s.lock .none (if f = .exit then false else s.inside p) :=
        .other hnone hsleeps
      by_cases he : f = .exit
      · rw [if_pos he] at h hdoes
        exact ⟨c, p, _, _, _, _, acts_calls h hp hto hdoes rfl rfl rfl⟩
      · rw [if_neg he] at h hdoes
        exact ⟨c, p, _, _, _, _, acts_calls h hp hto hdoes rfl rfl (hsame p)⟩
  | acquiresleep c =>
    right
    obtain ⟨p, hp, hto, h⟩ := hbetween hst
    obtain ⟨hnone, h⟩ := Option.ite_none_right_eq_some.mp h
    exact ⟨c, p, _, _, _, _, acts_calls h hp hto (.acquiresleep hnone) rfl rfl (hsame p)⟩
  | releasesleep c =>
    right
    obtain ⟨p, hp, hto, h⟩ := hbetween hst
    obtain ⟨⟨hnone, hinside⟩, h⟩ := Option.ite_none_right_eq_some.mp h
    exact ⟨c, p, _, _, _, _, acts_calls h hp hto (.releasesleep hnone hinside) rfl rfl rfl⟩
  | holdingsleep c =>
    right
    obtain ⟨p, hp, hto, h⟩ := hbetween hst
    obtain ⟨hnone, h⟩ := Option.ite_none_right_eq_some.mp h
    exact ⟨c, p, _, _, _, _, acts_calls h hp hto (.holdingsleep hnone) rfl rfl (hsame p)⟩
  | go c =>
    right
    obtain ⟨p, hp, hto, h⟩ := hbetween hst
    cases hx : s.point p with
    | none => simp [Sys.stmt, hx] at h
    | loop =>
      simp only [Sys.stmt, hx] at h
      split at h
      · rename_i hl
        exact ⟨c, p, _, _, _, _, acts_calls h hp hto (.sleep hx hl) rfl rfl (hsame p)⟩
      · rename_i hl
        obtain rfl := Option.some.inj h
        exact ⟨c, p, _, _, _, _, hp, hto, .pass hx (by simpa using hl), rfl, rfl, rfl, hsame p⟩
    | setLocked =>
      simp only [Sys.stmt, hx] at h
      obtain rfl := Option.some.inj h
      exact ⟨c, p, _, _, _, _, hp, hto, .take hx, rfl, rfl, rfl, hsame p⟩
    | setPid =>
      simp only [Sys.stmt, hx] at h
      exact ⟨c, p, _, _, _, _, acts_calls h hp hto (.sign hx) rfl rfl rfl⟩
    | clearLocked =>
      simp only [Sys.stmt, hx] at h
      obtain rfl := Option.some.inj h
      exact ⟨c, p, _, _, _, _, hp, hto, .drop hx, rfl, rfl, rfl, hsame p⟩
    | clearPid =>
      simp only [Sys.stmt, hx] at h
      exact ⟨c, p, _, _, _, _, acts_calls h hp hto (.unsign hx) rfl rfl (hsame p)⟩
    | release =>
      simp only [Sys.stmt, hx] at h
      exact ⟨c, p, _, _, _, _, acts_calls h hp hto (.done hx) rfl rfl (hsame p)⟩
    | read =>
      simp only [Sys.stmt, hx] at h
      exact ⟨c, p, _, _, _, _, acts_calls h hp hto (.read hx) rfl rfl (hsame p)⟩

/-- A call of the process that runs on the processor. -/
theorem called {f : Call} (hp : (k.cpu c).thread = some p) (h : k.call c f = some k') :
    k.Step (.call c f) k' ∧ k' = k.modify p fun r =>
      { r with todo := f.code, call := some f, calls := r.calls + 1 } := by
  have hst : k.Step (.call c f) k' := h
  refine ⟨hst, ?_⟩
  cases Sched.stepped hst with
  | call hq _ _ ht =>
    obtain rfl := Option.some.inj (hp.symm.trans hq)
    exact ht

/-- The other processes, while the process `p` does something. -/
theorem after_others {f : Option Call} (h : Good a lk s) (hp : (s.kernel.cpu c).thread = some p)
    (hk : after s.kernel c f = some k') (hq : q ≠ p) :
    Each a lk k' s.lock q (s.point q) (s.inside q) ∧
      (s.point q = .loop → Bound a lk k' q → Bound a lk s.kernel q) ∧
      k'.proc q = s.kernel.proc q := by
  cases f with
  | none =>
    obtain rfl := Option.some.inj hk
    exact ⟨h.each q, fun _ hb => hb, rfl⟩
  | some f =>
    obtain ⟨hst, hk'⟩ := called hp hk
    have hno : NoCall s.kernel (.call c f) q := fun d g he hd => by
      obtain ⟨rfl, rfl⟩ := Sched.Act.call.inj he
      exact hq (Option.some.inj (hd.symm.trans hp))
    refine ⟨(h.each q).step h.sound h.dying hst hno, fun hpoint => ?_, ?_⟩
    · have hstands := (h.each q).stands
      rw [hpoint] at hstands
      exact (decides_step h.sound.1 hstands.2 hst hno).2
    · rw [hk', Sched.modify_of_ne hq]

omit [DecidableEq κ] in
/-- What the process has called leads to the spinlock. -/
theorem inSleep_call {f : Call} (h : Good a lk s) (hto : (s.kernel.proc p).todo = [])
    (hf : f = .acquire lk ∨ f = .sleep a lk) :
    InSleep (s.kernel.modify p fun r =>
      { r with todo := f.code, call := some f, calls := r.calls + 1 }) p lk := by
  have hnone : (s.kernel.proc p).chan = none := by
    simpa [hto, Sched.lastChan] using h.settled p
  constructor <;> rw [Sched.modify_self]
  · rcases hf with rfl | rfl <;> simp [Call.code, Sched.Leaps]
  · exact hnone ▸ Sched.lastChan_code f
  · rcases hf with rfl | rfl <;> exact Or.inl rfl

/-- The process that has called `f`, when it goes on at `x`. -/
theorem each_call {f : Call} (h : Good a lk s) (hp : (s.kernel.cpu c).thread = some p)
    (hto : (s.kernel.proc p).todo = []) (hk : s.kernel.call c f = some k')
    (hchan : .setChan (.other a) ∈ f.code → x = .loop)
    (hexit : f = .exit → x = .none ∧ i = false) (hstands : Stands a lk k' l.locked i p x)
    (hlocked : Owns x i → l.locked = true) (hpid : i = true → l.pid = (s.kernel.proc p).pid) :
    Each a lk k' l p x i := by
  have hnone : (s.kernel.proc p).chan = none := by
    simpa [hto, Sched.lastChan] using h.settled p
  have hrun := h.sound.1.threads.running hp (by simp [hto, Sched.phase])
  obtain ⟨-, rfl⟩ := called hp hk
  refine ⟨hstands, fun ht => ?_, fun hx => ?_, hlocked, fun hi => ?_⟩
  · rw [Sched.modify_self] at ht
    rcases ht with ht | ht
    · exact absurd (hnone.symm.trans ht) (by simp)
    · exact hchan ht
  · rw [Sched.modify_self]
    refine ⟨Sched.alive_of_running hrun, fun he => ?_⟩
    obtain ⟨rfl, rfl⟩ := hexit (Option.some.inj he)
    rcases hx with hx | hx <;> exact absurd hx (by simp)
  · rw [Sched.modify_self]
    exact hpid hi

omit [DecidableEq κ] in
/-- The process that only assigns something, when it goes on at `x`. -/
theorem each_assign (h : Good a lk s) (hto : (s.kernel.proc p).todo = [])
    (hpoint : s.point p ≠ .none) (hstands : Stands a lk s.kernel l.locked i p x)
    (hlocked : Owns x i → l.locked = true) (hpid : i = true → l.pid = (s.kernel.proc p).pid) :
    Each a lk s.kernel l p x i where
  stands := hstands
  toward := fun ht => by
    have hnone : (s.kernel.proc p).chan = none := by
      simpa [hto, Sched.lastChan] using h.settled p
    rcases ht with ht | ht
    · exact absurd (hnone.symm.trans ht) (by simp)
    · simp [hto] at ht
  lives := fun _ => (h.each p).lives (Or.inl hpoint)
  locked := hlocked
  pid := hpid

omit [DecidableEq κ] in
/-- Whoever comes back from the call has the spinlock. -/
theorem inSleep_has (h : InSleep k p lk) (hto : (k.proc p).todo = []) : Has lk k p := by
  rcases h.last with hl | ⟨-, hh⟩
  · simp [hto] at hl
  · exact hh

/-- The process itself. -/
theorem each_does {f : Option Call} (h : Good a lk s) (hp : (s.kernel.cpu c).thread = some p)
    (hto : (s.kernel.proc p).todo = []) (hd : Does a lk s p f l x i)
    (hk : after s.kernel c f = some k') : Each a lk k' l p x i := by
  have hstands := (h.each p).stands
  have hlocked := (h.each p).locked
  have hpid := (h.each p).pid
  have hcalled : ∀ {g : Call}, s.kernel.call c g = some k' → k' = s.kernel.modify p fun r =>
      { r with todo := g.code, call := some g, calls := r.calls + 1 } := fun hk => (called hp hk).2
  have hinside : ∀ {x : Point}, x ≠ .setPid → x ≠ .clearLocked → Owns x (s.inside p) →
      s.lock.locked = true := fun hx hx' ho => hlocked (Or.inl (ho.inside hx hx'))
  cases hd with
  | @other f hx hf =>
    have hkept : (if f = .exit then false else s.inside p) = true → s.inside p = true := fun hi => by
      split at hi
      · exact absurd hi (by simp)
      · exact hi
    refine each_call h hp hto hk (fun hm => ?_) (fun he => ⟨rfl, if_pos he⟩) trivial (fun ho => ?_)
      fun hi => hpid (hkept hi)
    · cases f <;> simp [Call.code] at hm
      exact absurd (by simp [sleepsOn, hm]) hf
    · exact hlocked (Or.inl (hkept (ho.inside (by simp) (by simp))))
  | acquiresleep hx =>
    refine each_call h hp hto hk (by simp [Call.code]) (by simp) ?_ (hinside (by simp) (by simp)) hpid
    refine ⟨hcalled hk ▸ inSleep_call h hto (Or.inl rfl), Or.inr (Or.inr ?_)⟩
    rw [hcalled hk, Sched.modify_self]
    simp [Calm, Call.code]
  | releasesleep hx hi =>
    refine each_call h hp hto hk (by simp [Call.code]) (by simp) ⟨?_, rfl⟩
      (fun _ => hlocked (Or.inl hi)) (by simp)
    exact hcalled hk ▸ inSleep_call h hto (Or.inl rfl)
  | holdingsleep hx =>
    refine each_call h hp hto hk (by simp [Call.code]) (by simp) ?_ (hinside (by simp) (by simp)) hpid
    exact hcalled hk ▸ inSleep_call h hto (Or.inl rfl)
  | sleep hx hl =>
    rw [hx] at hstands
    obtain ⟨d, hd, hlk⟩ := inSleep_has hstands.1 hto
    refine each_call h hp hto hk (fun _ => rfl) (by simp) ?_ (fun _ => hl) hpid
    refine ⟨hcalled hk ▸ inSleep_call h hto (Or.inr rfl), Or.inl ⟨rfl, d, ?_⟩⟩
    rw [hcalled hk, Sched.modify_self]
    exact ⟨hd, hlk, Or.inl rfl⟩
  | pass hx hl =>
    rw [hx] at hstands
    obtain rfl := Option.some.inj hk
    exact each_assign h hto (by simp [hx]) ⟨hto, inSleep_has hstands.1 hto, hl⟩
      (hinside (by simp) (by simp)) hpid
  | take hx =>
    rw [hx] at hstands
    obtain rfl := Option.some.inj hk
    exact each_assign h hto (by simp [hx]) ⟨hto, hstands.2.1⟩ (fun _ => rfl) hpid
  | sign hx =>
    exact each_call h hp hto hk (by simp [Call.code]) (by simp) trivial
      (fun _ => hlocked (Or.inr (Or.inl hx))) fun _ => rfl
  | drop hx =>
    rw [hx] at hstands
    obtain rfl := Option.some.inj hk
    have hout : s.inside p ≠ true := by simp [hstands.2]
    exact each_assign h hto (by simp [hx]) ⟨hto, inSleep_has hstands.1 hto, rfl⟩
      (fun ho => absurd (ho.inside (by simp) (by simp)) hout) fun hi => absurd hi hout
  | unsign hx =>
    rw [hx] at hstands
    obtain ⟨-, ⟨d, hd, hlk⟩, hl⟩ := hstands
    have hout : s.inside p ≠ true := fun hi => by simp [hlocked (Or.inl hi)] at hl
    refine each_call h hp hto hk (by simp [Call.code]) (by simp) ⟨⟨d, ?_, ?_⟩, Or.inl (Or.inl ?_)⟩
      (fun ho => absurd (ho.inside (by simp) (by simp)) hout) fun hi => absurd hi hout
    · rwa [hcalled hk]
    · rwa [hcalled hk]
    · rw [hcalled hk, Sched.modify_self]
  | done hx | read hx =>
    exact each_call h hp hto hk (by simp [Call.code]) (by simp) trivial
      (hinside (by simp) (by simp)) hpid

omit [DecidableEq κ] in
theorem Stands.relock {b b' : Bool} (h : Stands a lk k b i p x)
    (hb : x = .setLocked ∨ x = .clearPid → b' = b) : Stands a lk k b' i p x := by
  cases x with
  | setLocked => exact hb (Or.inl rfl) ▸ h
  | clearPid => exact hb (Or.inr rfl) ▸ h
  | _ => exact h

omit [DecidableEq κ] in
/-- What a process does to the lock leaves the others where they stand. -/
theorem Each.relock {f : Option Call} (h : Good a lk s) (hd : Does a lk s p f l x i) (hq : q ≠ p)
    (he : Each a lk k s.lock q (s.point q) (s.inside q)) :
    Each a lk k l q (s.point q) (s.inside q) := by
  have hstands := (h.each p).stands
  cases hd with
  | take hx =>
    rw [hx] at hstands
    have hout : ∀ {y : Point}, y = .setLocked ∨ y = .clearPid → s.point q ≠ y := by
      rintro y hy rfl
      have hother := (h.each q).stands
      rcases hy with hy | hy <;> rw [hy] at hother <;>
        exact hq (Has.unique hother.2.1 hstands.2.1)
    refine ⟨he.stands.relock fun hy => absurd rfl (hout hy), he.toward, he.lives, fun _ => rfl,
      he.pid⟩
  | sign hx =>
    refine ⟨he.stands, he.toward, he.lives, he.locked, fun hi => ?_⟩
    exact absurd (h.owner q p (Or.inl hi) (Or.inr (Or.inl hx))) hq
  | drop hx =>
    have hout : ¬ Owns (s.point q) (s.inside q) := fun ho =>
      hq (h.owner q p ho (Or.inr (Or.inr hx)))
    refine ⟨he.stands.relock fun hy => ?_, he.toward, he.lives, fun ho => absurd ho hout,
      fun hi => absurd (Or.inl hi) hout⟩
    have hother := he.stands
    rcases hy with hy | hy <;> rw [hy] at hother <;> exact hother.2.2.symm
  | unsign hx =>
    rw [hx] at hstands
    refine ⟨he.stands, he.toward, he.lives, he.locked, fun hi => ?_⟩
    exact absurd ((he.locked (Or.inl hi)).symm.trans hstands.2.2) (by simp)
  | _ => exact he

omit [DecidableEq κ] in
/-- Who owns the lock has owned it before, or takes it while it is free. -/
theorem Does.owns {f : Option Call} (h : Good a lk s) (hd : Does a lk s p f l x i)
    (ho : Owns x i) : Owns (s.point p) (s.inside p) ∨ s.lock.locked = false := by
  cases hd with
  | other =>
    have hi := ho.inside (by simp) (by simp)
    split at hi
    · exact absurd hi (by simp)
    · exact Or.inl (Or.inl hi)
  | releasesleep _ hi => exact Or.inl (Or.inl hi)
  | take hx =>
    have hstands := (h.each p).stands
    rw [hx] at hstands
    exact Or.inr hstands.2.2
  | sign hx => exact Or.inl (Or.inr (Or.inl hx))
  | _ => exact Or.inl (Or.inl (ho.inside (by simp) (by simp)))

omit [DecidableEq κ] in
/-- The flag stays set, unless the process clears it. -/
theorem Does.locked {f : Option Call} (hd : Does a lk s p f l x i) (hl : s.lock.locked = true) :
    l.locked = true ∨ x = .clearPid := by
  cases hd with
  | take => exact Or.inl rfl
  | drop => exact Or.inr rfl
  | _ => exact Or.inl hl

/-- A process that goes on in `acquiresleep` is on its way to sleep only if the flag is set. -/
theorem Does.bound {f : Option Call} (h : Good a lk s) (hp : (s.kernel.cpu c).thread = some p)
    (hto : (s.kernel.proc p).todo = []) (hd : Does a lk s p f l .loop i)
    (hk : after s.kernel c f = some k') (hb : Bound a lk k' p) : l.locked = true := by
  have hrun := h.sound.1.threads.running hp (by simp [hto, Sched.phase])
  cases hd with
  | acquiresleep =>
    obtain ⟨-, rfl⟩ := called hp hk
    rcases hb with ⟨-, e, -, -, he⟩ | ⟨-, e, -, he⟩ | ⟨hs, -⟩ <;>
      rw [Sched.modify_self] at *
    · simp [Call.code] at he
    · simp [Call.code, Sched.intoSleep] at he
    · exact absurd (hrun.symm.trans hs) (by simp)
  | sleep _ hl => exact hl

theorem Good.acts {f : Option Call} (h : Good a lk s) (ha : Acts a lk s t c p f l x i) :
    Good a lk t := by
  obtain ⟨hp, hto, hd, hk, hl, hpoint, hinside⟩ := ha
  have hself : t.point p = x ∧ t.inside p = i := by simp [hpoint, hinside]
  have hother : ∀ q, q ≠ p → t.point q = s.point q ∧ t.inside q = s.inside q := fun q hq => by
    simp [hpoint, hinside, hq]
  have hkeep : ∀ {J : Sched.Sys κ → Prop}, J s.kernel →
      (∀ g, s.kernel.Step (.call c g) t.kernel → J t.kernel) → J t.kernel := fun {J} hj hstep => by
    cases f with
    | none => exact Option.some.inj hk ▸ hj
    | some g => exact hstep g (called hp hk).1
  refine ⟨hkeep h.sound fun _ => h.sound.step,
    hkeep h.settled fun _ => Sched.settled_step h.sound.1 h.sound.2 h.settled,
    hkeep h.dying fun _ => Sched.dying_step h.sound.1 h.dying, fun q => ?_, ?_, ?_⟩
  · rw [hl]
    rcases eq_or_ne q p with rfl | hq
    · rw [hself.1, hself.2]
      exact each_does h hp hto hd hk
    · rw [(hother q hq).1, (hother q hq).2]
      exact (after_others h hp hk hq).1.relock h hd hq
  · have howns : ∀ q, Owns (t.point q) (t.inside q) →
        Owns (s.point q) (s.inside q) ∨ q = p ∧ s.lock.locked = false := fun q ho => by
      rcases eq_or_ne q p with rfl | hq
      · rw [hself.1, hself.2] at ho
        exact (hd.owns h ho).imp_right fun hl => ⟨rfl, hl⟩
      · rw [(hother q hq).1, (hother q hq).2] at ho
        exact Or.inl ho
    intro q r hq hr
    rcases howns q hq with hq | ⟨rfl, hfree⟩ <;> rcases howns r hr with hr | ⟨rfl, hfree'⟩
    · exact h.owner q r hq hr
    · exact absurd (((h.each q).locked hq).symm.trans hfree') (by simp)
    · exact absurd (((h.each r).locked hr).symm.trans hfree) (by simp)
    · rfl
  · intro q hq hb
    rw [hl]
    rcases eq_or_ne q p with rfl | hqp
    · obtain rfl := hself.1.symm.trans hq
      exact Or.inl (hd.bound h hp hto hk hb)
    · rw [(hother q hqp).1] at hq
      rcases h.awake q hq ((after_others h hp hk hqp).2.1 hq hb) with hlocked | ⟨r, hr⟩
      · refine (hd.locked hlocked).imp_right fun hx => ⟨p, Or.inl ?_⟩
        rw [hself.1, hx]
      · refine Or.inr ⟨r, ?_⟩
        rcases eq_or_ne r p with rfl | hrp
        · -- the one who wakes the others up goes on
          rw [hself.1]
          rcases hr with hr | ⟨hr, hw⟩
          · cases hd with
            | unsign =>
              rw [(called hp hk).2]
              exact Or.inr ⟨rfl, Or.inl (by rw [Sched.modify_self])⟩
            | other hx | acquiresleep hx | releasesleep hx | holdingsleep hx | sleep hx | pass hx
            | take hx | sign hx | drop hx | done hx | read hx =>
              exact absurd (hr.symm.trans hx) (by simp)
          · rcases hw with hw | hw <;> exact absurd (hto.symm.trans hw) (by simp [Call.code])
        · rw [(hother r hrp).1]
          unfold Wakes
          rwa [(after_others h hp hk hrp).2.2]

/-- Every step keeps the invariant. -/
theorem Good.step {act : Act κ} (h : Good a lk s) (hst : s.Step a lk act t) : Good a lk t := by
  rcases stepped hst with ⟨kact, k', hno, hst', rfl⟩ | ⟨c, p, f, l, x, i, ha⟩
  · exact h.kernel hst' hno
  · exact h.acts ha

omit [DecidableEq κ] in
theorem good_boot : Good a lk (Sys.boot : Sys κ) where
  sound := ⟨Sched.inv_boot, Sched.family_boot⟩
  settled := Sched.settled_boot
  dying := Sched.dying_boot
  each := fun p => by
    refine ⟨trivial, fun ht => ?_, by simp [Sys.boot], by simp [Sys.boot, Owns], by simp [Sys.boot]⟩
    by_cases hp : p = Sched.initproc
    · subst hp
      simp [Toward, Sys.boot, Sched.Sys.boot, Sched.Sys.zero, Sched.forkret] at ht
    · simp [Toward, Sys.boot, Sched.Sys.boot, Sched.Sys.zero, hp] at ht
  owner := fun p q hp _ => by simp [Sys.boot, Owns] at hp
  awake := fun p hp _ => by simp [Sys.boot] at hp

/-! ### Every run -/

/-- One process at a time is inside, and the lock has its pid; with the spinlock free, nobody is
    asleep on a lock that is not locked. -/
structure Safe (a lk : ℕ) (s : Sys κ) : Prop where
  alone : ∀ p q, s.inside p = true → s.inside q = true → p = q
  signed : ∀ p, s.inside p = true → s.lock.pid = (s.kernel.proc p).pid
  awake : s.kernel.lock (.other lk) = none → ∀ p, Asleep (s.kernel.proc p) a →
    s.lock.locked = true

/-- The process has got past the loop of `acquiresleep`, and not called `releasesleep`. -/
def Entered (s : Sys κ) (p : Slot) : Prop :=
  s.point p = .setLocked ∨ s.point p = .setPid ∨ s.inside p = true

/-- Whoever gets past the loop in the step, killed or not, finds the flag clear, and nobody past
    the loop. -/
def Orderly (s t : Sys κ) : Prop :=
  ∀ p, ¬ Entered s p → Entered t p →
    s.point p = .loop ∧ s.lock.locked = false ∧ ∀ q, ¬ Entered s q

omit [DecidableEq κ] in
theorem Good.safe (h : Good a lk s) : Safe a lk s where
  alone := fun p q hp hq => h.owner p q (Or.inl hp) (Or.inl hq)
  signed := fun p hp => (h.each p).pid hp
  awake := fun hfree p hs => by
    have hx := (h.each p).toward (Or.inl hs.2)
    refine (h.awake p hx (Or.inr (Or.inr hs))).resolve_right fun ⟨q, hq⟩ => ?_
    -- who wakes the others up has the spinlock
    have hstands := (h.each q).stands
    have hh : Has lk s.kernel q := by
      rcases hq with hq | ⟨hq, -⟩
      · rw [hq] at hstands
        exact hstands.2.1
      · rw [hq] at hstands
        exact hstands.1
    obtain ⟨c, -, hl⟩ := hh
    exact absurd (hfree.symm.trans hl) (by simp)

omit [DecidableEq κ] in
/-- Nobody is past the loop while another process, with the spinlock, finds the flag clear. -/
theorem Good.none_entered (h : Good a lk s) (hh : Has lk s.kernel p) (hx : s.point p = .loop)
    (hl : s.lock.locked = false) (q : Slot) : ¬ Entered s q := by
  have hstands := (h.each q).stands
  have hsame : Has lk s.kernel q → s.point q = .loop := fun hq => by rwa [Has.unique hq hh]
  rintro (hq | hq | hq)
  · rw [hq] at hstands
    exact absurd (hq.symm.trans (hsame hstands.2.1)) (by simp)
  · rw [hq] at hstands
    exact absurd (hq.symm.trans (hsame hstands.2)) (by simp)
  · exact absurd (((h.each q).locked (Or.inl hq)).symm.trans hl) (by simp)

theorem Good.orderly {act : Act κ} (h : Good a lk s) (hst : s.Step a lk act t) : Orderly s t := by
  intro p hout hin
  rcases stepped hst with ⟨kact, k', hno, hst', rfl⟩ | ⟨c, r, f, l, x, i, ha⟩
  · exact absurd hin hout
  obtain ⟨hp, hto, hd, -, -, hpoint, hinside⟩ := ha
  rcases eq_or_ne p r with rfl | hne
  · unfold Entered at hin
    rw [hpoint, hinside, Function.update_self, Function.update_self] at hin
    have hnot : s.inside p ≠ true := fun hi => hout (Or.inr (Or.inr hi))
    cases hd with
    | pass hx hl =>
      have hstands := (h.each p).stands
      rw [hx] at hstands
      exact ⟨hx, hl, h.none_entered (inSleep_has hstands.1 hto) hx hl⟩
    | take hx => exact absurd (Or.inl hx) hout
    | sign hx => exact absurd (Or.inr (Or.inl hx)) hout
    | other =>
      rcases hin with hin | hin | hin
      · exact absurd hin (by simp)
      · exact absurd hin (by simp)
      · split at hin
        · exact absurd hin (by simp)
        · exact absurd hin hnot
    | _ => simp [hnot] at hin
  · unfold Entered at hin
    rw [hpoint, hinside, Function.update_of_ne hne, Function.update_of_ne hne] at hin
    exact absurd hin hout

/-- In every run, one process at a time is inside, with its pid in the lock; nobody is asleep on it
    while it is free; and whoever gets in, killed or not, finds it free. -/
theorem sleeplock_safe {κ : Type} [DecidableEq κ] (a lk : ℕ) {l : List (Sys κ × Act κ)} {u : Sys κ}
    (hrun : Run (Sys.Step a lk) Sys.boot l u) :
    Throughout (Safe a lk) l u ∧ Along (fun s act => ∀ t, s.Step a lk act t → Orderly s t) l := by
  have hgood := hrun.invariant (I := Good a lk) (C := fun _ _ => True)
    (fun s act t h _ hst => h.step hst) good_boot fun _ _ => trivial
  exact ⟨hgood.mono fun s h => h.safe, fun x hx t hst => (hgood.1 x hx).orderly hst⟩

end Steps

/-- Init acquires the lock and makes a child; the child calls `acquiresleep` on another processor,
    goes to sleep, is killed, and goes to sleep again. -/
def killedWaiter : List (Act Bool) :=
  let run (c : Bool) (n : ℕ) : List (Act Bool) := List.replicate n (.kernel (.run c true))
  run false 3 ++ [.acquiresleep false] ++ run false 1 ++ [.go false, .go false, .go false] ++
    run false 1 ++ [.kernel (.call false .fork)] ++ run false 9 ++ run true 4 ++
    [.acquiresleep true] ++ run true 1 ++ [.go true] ++ run true 70 ++
    [.kernel (.call false (.kill 2))] ++ run false 3 ++ run true 6 ++ [.go true] ++ run true 5

/-- `sleeplock_safe` along `killedWaiter`. -/
theorem killed_waiter_waits :
    ∃ l u, Run (Sys.Step 5 7) (Sys.boot : Sys Bool) l u ∧ u.inside Sched.initproc = true ∧
      (u.kernel.proc 1).killed = true ∧ Asleep (u.kernel.proc 1) 5 ∧
      Throughout (Safe 5 7) l u ∧ Along (fun s act => ∀ t, s.Step 5 7 act t → Orderly s t) l := by
  have hend : ((exec (Sys.next 5 7) Sys.boot killedWaiter).any fun u => u.inside Sched.initproc ∧
      (u.kernel.proc 1).killed ∧ (u.kernel.proc 1).state = .SLEEPING ∧
      (u.kernel.proc 1).chan = some (.other 5)) = true := by
    decide +kernel
  obtain ⟨u, hu, hend⟩ := (Option.any_eq_true _ _).mp hend
  obtain ⟨hinside, hkilled, hs, hchan⟩ := of_decide_eq_true hend
  have hsafe := sleeplock_safe 5 7 (Run.of_exec hu)
  exact ⟨_, u, Run.of_exec hu, hinside, hkilled, ⟨hs, hchan⟩, hsafe.1, hsafe.2⟩

end Xv6.Sleep
