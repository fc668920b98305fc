import Xv6.Sched.Effects
import Xv6.Sched.Family

/-! @src proc.c sleep1.p | name:No wakeup is lost | layer:proof

    A process that calls `sleep` gives its lock up only once it has `ptable.lock`, which it keeps
    until it is `SLEEPING`. So whoever gets the lock later finds it asleep, or not going to sleep
    any more, when it gets to the loop of `wakeup`. -/

namespace Xv6.Sched
open Xv6.Schemes
open Xv6.Schemes.X86 (Word)
open Xv6.Process (NPROC Slot ProcState Chan)

/-! ### Threads -/

/-- Those who execute: a process, or the scheduler of a processor. -/
inductive Thread (κ : Type) where
  | proc (p : Slot)
  | sched (c : κ)

/-- The processor of an action. -/
def Act.cpu {κ : Type} : Act κ → κ
  | .run c _ | .call c _ | .intr c _ => c

variable {κ : Type} {s t : Sys κ} {c d : κ} {p q : Slot} {a lk n : ℕ} {act : Act κ}
  {w : Thread κ} {post : List Stmt}

/-- The thread that the processor executes. -/
def Sys.thread (s : Sys κ) (c : κ) : Thread κ :=
  match (s.cpu c).thread with
  | some p => .proc p
  | none => .sched c

/-- The statements that the thread still has to execute. -/
def Sys.code (s : Sys κ) : Thread κ → List Stmt
  | .proc p => (s.proc p).todo
  | .sched c => (s.cpu c).todo

theorem thread_some (h : (s.cpu c).thread = some p) : s.thread c = .proc p := by
  simp [Sys.thread, h]

theorem thread_none (h : (s.cpu c).thread = none) : s.thread c = .sched c := by
  simp [Sys.thread, h]

theorem todo_eq_code (c : κ) : s.todo c = s.code (s.thread c) := by
  cases h : (s.cpu c).thread with
  | some p => rw [todo_some h, thread_some h, Sys.code]
  | none => rw [todo_none h, thread_none h, Sys.code]

section Steps

variable [DecidableEq κ]

/-- Processes that do not execute. -/
theorem away_step (hi : Inv s) (hst : s.Step act t) (hne : s.thread act.cpu ≠ .proc p) :
    Away (s.proc p) (t.proc p) := by
  cases stepped hst with
  | @proc c _ q _ _ hq hto ht =>
    refine (procStep hi hq hto ht).away p ?_
    rintro rfl
    exact hne (thread_some hq)
  | sched hc hto ht => exact (schedStep hc ht).away p
  | @call c q f hq _ _ ht =>
    have hpq : p ≠ q := by
      rintro rfl
      exact hne (thread_some hq)
    rw [ht, modify_of_ne hpq]
    exact .rfl' _
  | @intr c i _ ht =>
    subst ht
    cases hc : (s.cpu c).thread with
    | none =>
      rw [goto_none hc]
      exact .rfl' _
    | some q =>
      have hpq : p ≠ q := by
        rintro rfl
        exact hne (thread_some hc)
      rw [goto_some hc, modify_of_ne hpq]
      exact .rfl' _

theorem elsewhere_step (hi : Inv s) (hst : s.Step act t) : Elsewhere s t act.cpu := by
  cases stepped hst with
  | proc hq hto ht => exact (procStep hi hq hto ht).elsewhere
  | sched hc hto ht => exact (schedStep hc ht).elsewhere
  | call _ _ _ ht =>
    subst ht
    exact .rfl' rfl rfl
  | intr _ ht =>
    subst ht
    exact ⟨fun d hd => goto_cpu hd, fun lk d _ hl => by rwa [goto_lock]⟩

/-- A process on a processor goes on only there. -/
theorem undisturbed (hi : Inv s) (hst : s.Step act t) (hc : (s.cpu c).thread = some p)
    (hne : act.cpu ≠ c) : Away (s.proc p) (t.proc p) ∧ (t.proc p).todo = (s.proc p).todo ∧
      (t.cpu c).thread = some p := by
  have haway : Away (s.proc p) (t.proc p) := by
    refine away_step hi hst fun hth => hne ?_
    cases hd : (s.cpu act.cpu).thread with
    | none =>
      rw [thread_none hd] at hth
      exact absurd hth (by simp)
    | some q =>
      rw [thread_some hd] at hth
      obtain rfl := Thread.proc.inj hth
      exact hi.threads.thread_inj hd hc
  refine ⟨haway, ?_, ?_⟩
  · rcases haway.todo with ⟨hto, -⟩ | ⟨he, -, -⟩
    · exact hto
    · exact absurd (hi.threads.current c p hc).1 (hi.threads.dormant (Or.inr he) c)
  · rw [(elsewhere_step hi hst).cpu c (Ne.symm hne), hc]

/-- What a step is to the process `p`: a statement of its own, a call that it makes, an interrupt on
    its processor, or something elsewhere. -/
inductive Felt (s t : Sys κ) (act : Act κ) (p : Slot) : Prop
  | run {c : κ} {ok : Bool} {st : Stmt} {rest : List Stmt} :
      act = .run c ok → (s.cpu c).thread = some p → (s.proc p).todo = st :: rest →
      s.procStmt c p ok rest st = some t → Felt s t act p
  | call {c : κ} {f : Call} :
      act = .call c f → (s.cpu c).thread = some p → (s.proc p).todo = [] →
      t = (s.modify p fun r => { r with todo := f.code, call := some f, calls := r.calls + 1 }) →
      Felt s t act p
  | intr {c : κ} {i : Handler} :
      act = .intr c i → (s.cpu c).thread = some p → (s.cpu c).ncli = 0 →
      t = (s.modify p fun r => { r with todo := i.code ++ (s.proc p).todo }) → Felt s t act p
  | away : s.thread act.cpu ≠ .proc p → Away (s.proc p) (t.proc p) → Felt s t act p

theorem felt (hi : Inv s) (hst : s.Step act t) (p : Slot) : Felt s t act p := by
  by_cases hme : s.thread act.cpu = .proc p
  · cases stepped hst with
    | proc hq hto ht =>
      obtain rfl := Thread.proc.inj ((thread_some hq).symm.trans hme)
      exact .run rfl hq hto ht
    | sched hnone _ _ => exact absurd ((thread_none hnone).symm.trans hme) (by simp)
    | call hq hto _ ht =>
      obtain rfl := Thread.proc.inj ((thread_some hq).symm.trans hme)
      exact .call rfl hq hto ht
    | @intr c i hncli ht =>
      cases hc : (s.cpu c).thread with
      | none => exact absurd ((thread_none hc).symm.trans hme) (by simp)
      | some q =>
        obtain rfl := Thread.proc.inj ((thread_some hc).symm.trans hme)
        exact .intr rfl hc hncli (by rw [ht, goto_some hc, todo_some hc])
  · exact .away hme (away_step hi hst hme)

/-- The statements of a thread that does not execute, unless it is about to be born. -/
theorem code_elsewhere (hi : Inv s) (hst : s.Step act t) (hne : s.thread act.cpu ≠ w) :
    t.code w = s.code w ∨ s.code w = [] ∨ s.code w = forkret := by
  cases w with
  | proc q =>
    rcases (away_step hi hst hne).todo with ⟨hto, -⟩ | ⟨he, -, -⟩
    · exact Or.inl hto
    · have hrest := hi.threads.off q (hi.threads.thread_ne (hi.threads.dormant (Or.inr he)))
      simp only [Rest, he] at hrest
      exact Or.inr hrest
  | sched d =>
    left
    change (t.cpu d).todo = (s.cpu d).todo
    by_cases hd : d = act.cpu
    · subst hd
      obtain ⟨q, hc⟩ : ∃ q, (s.cpu act.cpu).thread = some q := by
        by_contra hnone
        exact hne (thread_none (Option.eq_none_iff_forall_ne_some.mpr fun q hq => hnone ⟨q, hq⟩))
      cases stepped hst with
      | proc hq hto ht => exact (procStep hi hq hto ht).sched
      | sched hnone _ _ => exact absurd (hnone.symm.trans hc) (by simp)
      | call _ _ _ ht => rw [ht, modify_cpu]
      | @intr c i _ ht =>
        rw [ht, goto_some (c := c) hc]
        rfl
    · rw [(elsewhere_step hi hst).cpu d hd]

/-! ### Falling asleep -/

/-- The statements of `sleep` after it has given up `lk`. -/
def intoSleep (a lk : ℕ) : List Stmt :=
  [.setChan (.other a), .setState .SLEEPING, .swtch, .clearChan, .release .ptable,
    .acquire (.other lk)]

/-- In its call number `n` the process still holds `lk`. -/
def Holding (s : Sys κ) (p : Slot) (a lk n : ℕ) : Prop :=
  (s.proc p).calls = n ∧ ∃ c, (s.cpu c).thread = some p ∧ s.lock (.other lk) = some c ∧
    ((s.proc p).todo = .acquire .ptable :: .release (.other lk) :: intoSleep a lk ∨
      (s.proc p).todo = .release (.other lk) :: intoSleep a lk)

/-- In its call number `n` the process is going to sleep, with `ptable.lock`. -/
def Going (s : Sys κ) (p : Slot) (a lk n : ℕ) : Prop :=
  (s.proc p).calls = n ∧ ∃ c, (s.cpu c).thread = some p ∧
    ((s.proc p).todo = intoSleep a lk ∨ (s.proc p).todo = (intoSleep a lk).tail)

/-- The process will not go to sleep in its call number `n` any more. -/
def Gone (s : Sys κ) (p : Slot) (n : ℕ) : Prop :=
  n < (s.proc p).calls ∨ (s.proc p).calls = n ∧ Calm (s.proc p).todo

/-- The process is `SLEEPING` on `a`. -/
def Asleep (r : Proc) (a : ℕ) : Prop := r.state = .SLEEPING ∧ r.chan = some (.other a)

/-- The process does not sleep, and will not, in its call number `n`. -/
def Awake (s : Sys κ) (p : Slot) (a n : ℕ) : Prop :=
  n < (s.proc p).calls ∨
    (s.proc p).calls = n ∧ Calm (s.proc p).todo ∧ ¬ Asleep (s.proc p) a

theorem Holding.step (hi : Inv s) (h : Holding s p a lk n) (hst : s.Step act t) :
    Holding t p a lk n ∨ Going t p a lk n := by
  obtain ⟨hn, c, hc, hl, hto⟩ := h
  by_cases hcpu : act.cpu = c
  · subst hcpu
    cases stepped hst with
    | @proc c _ q st rest hq hto' ht =>
      obtain rfl : q = p := Option.some.inj (hq.symm.trans hc)
      have hstep := procStep hi hq hto' ht
      have hcalls := hstep.own.calls.trans hn
      rw [hto'] at hto
      rcases hto with hto | hto <;> obtain ⟨rfl, rfl⟩ := List.cons.inj hto
      · have hrest := hstep.own.todo.resolve_right fun hleap => hleap.1
        refine Or.inl ⟨hcalls, c, ?_, hstep.lock (by simp) _ hl, Or.inr hrest⟩
        exact (hstep.thread (by simp)).trans hq
      · have hrest := hstep.own.todo.resolve_right fun hleap => hleap.1
        exact Or.inr ⟨hcalls, c, (hstep.thread (by simp)).trans hq, Or.inl hrest⟩
    | sched hnone _ _ => exact absurd (hc.symm.trans hnone) (by simp)
    | @call c q f hq hempty _ _ =>
      obtain rfl : q = p := Option.some.inj (hq.symm.trans hc)
      rcases hto with hto | hto <;> exact absurd (hto.symm.trans hempty) (by simp)
    | intr hncli _ => exact absurd hl (hi.locks.none_held hncli _)
  · obtain ⟨haway, hsame, hthread⟩ := undisturbed hi hst hc hcpu
    refine Or.inl ⟨haway.calls.trans hn, c, hthread, ?_, hsame.symm ▸ hto⟩
    exact (elsewhere_step hi hst).lock _ c (Ne.symm hcpu) hl

theorem Going.step (hi : Inv s) (h : Going s p a lk n) (hst : s.Step act t) :
    Going t p a lk n ∨ Gone t p n := by
  obtain ⟨hn, c, hc, hto⟩ := h
  by_cases hcpu : act.cpu = c
  · subst hcpu
    cases stepped hst with
    | @proc c _ q st rest hq hto' ht =>
      obtain rfl : q = p := Option.some.inj (hq.symm.trans hc)
      have hstep := procStep hi hq hto' ht
      have hcalls := hstep.own.calls.trans hn
      rw [hto'] at hto
      rcases hto with hto | hto <;> obtain ⟨rfl, rfl⟩ := List.cons.inj hto
      · have hrest := hstep.own.todo.resolve_right fun hleap => hleap.1
        exact Or.inl ⟨hcalls, c, (hstep.thread (by simp)).trans hq, Or.inr hrest⟩
      · have hrest := hstep.own.todo.resolve_right fun hleap => hleap.1
        refine Or.inr (Or.inr ⟨hcalls, ?_⟩)
        rw [hrest]
        simp [Calm]
    | sched hnone _ _ => exact absurd (hc.symm.trans hnone) (by simp)
    | @call c q f hq hempty _ _ =>
      obtain rfl : q = p := Option.some.inj (hq.symm.trans hc)
      rcases hto with hto | hto <;> exact absurd (hto.symm.trans hempty) (by simp [intoSleep])
    | @intr c i hncli _ =>
      have hfree := hi.intr_free hncli
      have hc' : (s.cpu c).thread = some p := hc
      rw [todo_some hc'] at hfree
      rcases hto with hto | hto <;> rw [hto] at hfree <;> exact absurd hfree (by simp [intoSleep, phase])
  · obtain ⟨haway, hsame, hthread⟩ := undisturbed hi hst hc hcpu
    exact Or.inl ⟨haway.calls.trans hn, c, hthread, hsame.symm ▸ hto⟩

/-- A process that does not go to sleep, and is not asleep, stays so until its next call. -/
theorem calm_step (hi : Inv s) (hcalm : Calm (s.proc p).todo) (hst : s.Step act t) :
    (s.proc p).calls < (t.proc p).calls ∨ (t.proc p).calls = (s.proc p).calls ∧
      Calm (t.proc p).todo ∧ (Asleep (t.proc p) a → Asleep (s.proc p) a) := by
  cases felt hi hst p with
  | run _ hp hto ht =>
    have hown := (procStep hi hp hto ht).own
    rw [hto] at hcalm
    obtain ⟨hset, hwait, hchan⟩ := hcalm _ List.mem_cons_self
    refine Or.inr ⟨hown.calls, ?_, fun hs => ⟨?_, ?_⟩⟩
    · rcases hown.todo with hrest | ⟨-, hleap⟩
      · rw [hrest]
        exact fun x hx => hcalm x (List.mem_cons_of_mem _ hx)
      · exact hleap hwait
    · exact (hown.state hs.1).resolve_right hset
    · rcases hown.chan hchan with he | he
      · exact he ▸ hs.2
      · exact absurd (he.symm.trans hs.2) (by simp)
  | call _ _ _ ht =>
    left
    rw [ht, modify_self]
    exact Nat.lt_succ_self _
  | @intr c i _ _ _ ht =>
    right
    rw [ht, modify_self]
    refine ⟨rfl, fun x hx => ?_, id⟩
    rcases List.mem_append.mp hx with hx | hx
    · cases i <;> simp only [Handler.code, List.mem_cons, List.not_mem_nil, or_false] at hx <;>
        rcases hx with rfl | rfl | rfl | rfl | rfl <;> simp
    · exact hcalm x hx
  | away _ h =>
    refine Or.inr ⟨h.calls, ?_, fun hs => ⟨h.state hs.1, h.chan ▸ hs.2⟩⟩
    rcases h.todo with ⟨hto, -⟩ | ⟨-, hto, -⟩
    · rwa [hto]
    · rw [hto]
      simp [Calm, forkret]

theorem calls_step (hi : Inv s) (hst : s.Step act t) : (s.proc p).calls ≤ (t.proc p).calls := by
  cases felt hi hst p with
  | run _ hp hto ht => exact (procStep hi hp hto ht).own.calls.ge
  | call _ _ _ ht =>
    rw [ht, modify_self]
    exact Nat.le_succ _
  | intr _ _ _ ht => rw [ht, modify_self]
  | away _ h => exact h.calls.ge

theorem Gone.step (hi : Inv s) (h : Gone s p n) (hst : s.Step act t) : Gone t p n := by
  rcases h with hlt | ⟨heq, hcalm⟩
  · exact Or.inl (hlt.trans_le (calls_step hi hst))
  · rcases calm_step (a := 0) hi hcalm hst with hlt | ⟨hsame, hcalm', -⟩
    · exact Or.inl (heq ▸ hlt)
    · exact Or.inr ⟨hsame.trans heq, hcalm'⟩

theorem Awake.step (hi : Inv s) (h : Awake s p a n) (hst : s.Step act t) : Awake t p a n := by
  rcases h with hlt | ⟨heq, hcalm, hs⟩
  · exact Or.inl (hlt.trans_le (calls_step hi hst))
  · rcases calm_step hi hcalm hst with hlt | ⟨hsame, hcalm', hs'⟩
    · exact Or.inl (heq ▸ hlt)
    · exact Or.inr ⟨hsame.trans heq, hcalm', fun h => hs (hs' h)⟩

/-! ### Waking up -/

/-- The thread has the loop of `wakeup` still to execute, and then `post`. -/
def Pending (s : Sys κ) (w : Thread κ) (a : ℕ) (post : List Stmt) : Prop :=
  ∃ pre, s.code w = pre ++ .wakeup1 (.other a) :: post

/-- The thread executes the loop of `wakeup`. -/
def Wakes (s t : Sys κ) (act : Act κ) (w : Thread κ) (a : ℕ) : Prop :=
  s.thread act.cpu = w ∧ s.lock .ptable = some act.cpu ∧ ∀ q, ¬ Asleep (t.proc q) a

theorem not_asleep_wakeTable (tbl : Slot → Proc) : ¬ Asleep (wakeTable (.other a) tbl q) a := by
  unfold wakeTable Asleep
  split
  · simp
  · assumption

/-- A statement that leaps is the last one, or `wakeup` does not come after it. -/
theorem leap_post {st : Stmt} {rest pre : List Stmt} (hwf : Wf (st :: rest))
    (hshape : Shape p (st :: rest)) (hleap : Leaps st) :
    rest ≠ pre ++ .wakeup1 (.other a) :: post := by
  have hmem : ∀ {l : List Stmt}, (.wakeup1 (.other a)) ∉ l → l ≠ pre ++ .wakeup1 (.other a) :: post :=
    fun h he => h (by simp [he])
  cases st with
  | waitLoop | allocproc =>
    obtain rfl : rest = [] := hwf
    exact hmem (by simp)
  | kstack np | copyuvm np =>
    obtain rfl := hshape.1
    exact hmem (by simp)
  | _ => exact hleap.elim

/-- One step on the way to the loop of `wakeup`. -/
theorem Pending.step (hi : Inv s) (hf : Family s) (h : Pending s w a post)
    (hst : s.Step act t) : Pending t w a post ∨ Wakes s t act w a := by
  obtain ⟨pre, hcode⟩ := h
  by_cases hme : s.thread act.cpu = w
  · subst hme
    have hlock : s.todo act.cpu = .wakeup1 (.other a) :: post → s.lock .ptable = some act.cpu :=
      fun h => (hi.holds _).mpr (by simp [h, phase])
    cases stepped hst with
    | @proc c ok p st rest hp hto ht =>
      have hstep := procStep hi hp hto ht
      have hwf : Wf (st :: rest) := hto ▸ hi.threads.wf p
      have hshape : Shape p (st :: rest) := hto ▸ hf.code.shape p
      have hthread : s.thread c = .proc p := thread_some hp
      change s.code (s.thread c) = _ at hcode
      rw [hthread, Sys.code, hto] at hcode
      cases pre with
      | nil =>
        obtain ⟨rfl, rfl⟩ := List.cons.inj hcode
        refine Or.inr ⟨rfl, hlock ?_, fun q => ?_⟩
        · exact (todo_some hp).trans hto
        · obtain rfl := Option.some.inj ht
          rw [goto_some (p := p) (by exact hp)]
          by_cases hqp : q = p
          · subst hqp
            rw [modify_self]
            exact fun hs => not_asleep_wakeTable s.proc hs
          · rw [modify_of_ne hqp]
            exact not_asleep_wakeTable s.proc
      | cons st' pre =>
        obtain ⟨rfl, hrest⟩ := List.cons.inj hcode
        left
        refine ⟨pre, ?_⟩
        change t.code (s.thread c) = _
        rw [hthread]
        exact (hstep.own.todo.resolve_right fun hl => leap_post hwf hshape hl.1 hrest).trans hrest
    | @sched c ok st rest hc hto ht =>
      have hstep := schedStep hc ht
      have hthread : s.thread c = .sched c := thread_none hc
      change s.code (s.thread c) = _ at hcode
      rw [hthread, Sys.code, hto] at hcode
      cases pre with
      | nil =>
        obtain ⟨rfl, rfl⟩ := List.cons.inj hcode
        refine Or.inr ⟨rfl, hlock ?_, fun q => ?_⟩
        · exact (todo_none hc).trans hto
        · obtain rfl := Option.some.inj ht
          rw [goto_none (by exact hc)]
          exact not_asleep_wakeTable s.proc
      | cons st' pre =>
        obtain ⟨rfl, hrest⟩ := List.cons.inj hcode
        left
        refine ⟨pre, ?_⟩
        change t.code (s.thread c) = _
        rw [hthread]
        have hwf : Wf (st :: rest) := hto ▸ hi.threads.wfSched c
        refine (hstep.todo.resolve_right ?_).trans hrest
        rintro (⟨i, rfl⟩ | ⟨q, rfl⟩)
        · exact absurd (hwf.symm.trans hrest) (by simp)
        · exact absurd (hwf.symm.trans hrest) (by simp)
    | @call c p f hp hto _ _ =>
      have hthread : s.thread c = .proc p := thread_some hp
      change s.code (s.thread c) = _ at hcode
      rw [hthread, Sys.code, hto] at hcode
      exact absurd hcode (by simp)
    | @intr c i _ ht =>
      left
      refine ⟨i.code ++ pre, ?_⟩
      change t.code (s.thread c) = _
      change s.code (s.thread c) = _ at hcode
      have hthread : t.thread c = s.thread c := by
        simp [Sys.thread, ht, goto_thread]
      rw [← hthread, ← todo_eq_code, ht, goto_todo, todo_eq_code, hcode, List.append_assoc]
  · left
    refine ⟨pre, ?_⟩
    rcases code_elsewhere hi hst hme with hsame | hempty | hret
    · rw [hsame, hcode]
    · exact absurd (hempty.symm.trans hcode) (by simp)
    · have hmem : Stmt.wakeup1 (.other a) ∈ forkret := by
        rw [← hret, hcode]
        simp
      exact absurd hmem (by simp [forkret])

/-! ### Coming back -/

/-- The channel of a process after it has executed these statements. -/
def lastChan : Option Chan → List Stmt → Option Chan
  | ch, [] => ch
  | _, .setChan ch :: rest => lastChan (some ch) rest
  | _, .clearChan :: rest => lastChan none rest
  | ch, _ :: rest => lastChan ch rest

omit [DecidableEq κ] in
theorem lastChan_none {ch : Option Chan} {l : List Stmt} (h : lastChan ch l = none) :
    lastChan none l = none := by
  induction l generalizing ch with
  | nil => rfl
  | cons st rest ih =>
    cases st with
    | setChan | clearChan => exact h
    | _ => exact ih h

/-- The process `p` is in its call of `sleep` with `lk`, or has just come back from it. -/
structure InSleep (s : Sys κ) (p : Slot) (lk : ℕ) : Prop where
  straight : ∀ st ∈ (s.proc p).todo, ¬ Leaps st
  chan : lastChan (s.proc p).chan (s.proc p).todo = none
  last : (s.proc p).todo.getLast? = some (.acquire (.other lk)) ∨
    (s.proc p).todo = [] ∧ ∃ c, (s.cpu c).thread = some p ∧ s.lock (.other lk) = some c

/-- Every process in a call of `sleep` is on its way back with the lock. -/
def Sleeps (s : Sys κ) : Prop :=
  ∀ p a lk, (s.proc p).call = some (.sleep a lk) → InSleep s p lk

/-- The channel that is left does not depend on when it is asked for. -/
theorem lastChan_run {ok : Bool} {st : Stmt} {rest : List Stmt} (hi : Inv s)
    (hp : (s.cpu c).thread = some p) (hto : (s.proc p).todo = st :: rest)
    (ht : s.procStmt c p ok rest st = some t) (hlast : lastChan (s.proc p).chan (st :: rest) = none) :
    lastChan (t.proc p).chan rest = none := by
  have hstep := procStep hi hp hto ht
  by_cases hset : ∃ ch, st = .setChan ch
  · obtain ⟨ch, rfl⟩ := hset
    obtain rfl := Option.some.inj ht
    rw [modify_self]
    exact hlast
  · by_cases hclear : st = .clearChan
    · subst hclear
      rw [hstep.own.clear rfl]
      exact hlast
    · have hskip : lastChan (s.proc p).chan rest = none := by
        cases st with
        | setChan ch => exact absurd ⟨ch, rfl⟩ hset
        | clearChan => exact absurd rfl hclear
        | _ => exact hlast
      rcases hstep.own.chan fun ch hch => hset ⟨ch, hch⟩ with he | he
      · rw [he, hskip]
      · rw [he, lastChan_none hskip]

/-- The process that executes `sleep`. -/
theorem InSleep.run {ok : Bool} {st : Stmt} {rest : List Stmt} (hi : Inv s) (h : InSleep s p lk)
    (hp : (s.cpu c).thread = some p) (hto : (s.proc p).todo = st :: rest)
    (ht : s.procStmt c p ok rest st = some t) : InSleep t p lk := by
  have hstep := procStep hi hp hto ht
  have hrest : (t.proc p).todo = rest := hstep.own.todo.resolve_right fun hleap =>
    h.straight st (hto ▸ List.mem_cons_self) hleap.1
  have hlast : rest.getLast? = some (.acquire (.other lk)) ∨
      rest = [] ∧ st = .acquire (.other lk) := by
    rcases h.last with hl | ⟨hempty, -⟩
    · rw [hto] at hl
      cases rest with
      | nil => exact Or.inr ⟨rfl, Option.some.inj hl⟩
      | cons => exact Or.inl hl
    · exact absurd (hto.symm.trans hempty) (by simp)
  constructor
  · intro x hx
    exact h.straight x (hto ▸ List.mem_cons_of_mem _ (hrest ▸ hx))
  · rw [hrest]
    exact lastChan_run hi hp hto ht (hto ▸ h.chan)
  · rw [hrest]
    rcases hlast with hl | ⟨rfl, rfl⟩
    · exact Or.inl hl
    · exact Or.inr ⟨rfl, c, (hstep.thread (by simp)).trans hp, hstep.taken _ rfl⟩

omit [DecidableEq κ] in
/-- An interrupt in `sleep`; it cannot come after the lock has been taken again. -/
theorem InSleep.intr {i : Handler} (hi : Inv s) (h : InSleep s p lk)
    (hp : (s.cpu c).thread = some p) (hncli : (s.cpu c).ncli = 0) :
    InSleep (s.modify p fun r => { r with todo := i.code ++ (s.proc p).todo }) p lk := by
  constructor <;> rw [modify_self]
  · intro x hx
    rcases List.mem_append.mp hx with hx | hx
    · cases i <;> simp only [Handler.code, List.mem_cons, List.not_mem_nil, or_false] at hx <;>
        rcases hx with rfl | rfl | rfl | rfl | rfl <;> exact id
    · exact h.straight x hx
  · cases i <;> exact h.chan
  · rcases h.last with hl | ⟨-, d, hd, hlock⟩
    · left
      rw [List.getLast?_append, hl]
      rfl
    · obtain rfl := hi.threads.thread_inj hp hd
      exact absurd hlock (hi.locks.none_held hncli _)

/-- Others execute. -/
theorem InSleep.away (hi : Inv s) (h : InSleep s p lk) (hst : s.Step act t)
    (hne : s.thread act.cpu ≠ .proc p) (hto : (t.proc p).todo = (s.proc p).todo) :
    InSleep t p lk := by
  have haway := away_step hi hst hne
  refine ⟨fun x hx => h.straight x (hto ▸ hx), ?_, ?_⟩
  · rw [haway.chan, hto, h.chan]
  · rcases h.last with hl | ⟨hempty, c, hc, hlock⟩
    · exact Or.inl (hto ▸ hl)
    · have hcpu : act.cpu ≠ c := by
        rintro rfl
        exact hne (thread_some hc)
      obtain ⟨-, -, hthread⟩ := undisturbed hi hst hc hcpu
      exact Or.inr ⟨hto.trans hempty, c, hthread,
        (elsewhere_step hi hst).lock _ c (Ne.symm hcpu) hlock⟩

theorem sleeps_step (hi : Inv s) (h : Sleeps s) (hst : s.Step act t) : Sleeps t := by
  intro p a lk hcall
  cases felt hi hst p with
  | run _ hp hto ht =>
    exact (h p a lk ((procStep hi hp hto ht).own.call.symm.trans hcall)).run hi hp hto ht
  | call _ _ _ ht =>
    subst ht
    rw [modify_self] at hcall
    obtain rfl := Option.some.inj hcall
    constructor <;> rw [modify_self]
    · intro x hx
      simp only [Call.code, List.mem_cons, List.not_mem_nil, or_false] at hx
      rcases hx with rfl | rfl | rfl | rfl | rfl | rfl | rfl | rfl <;> exact id
    · rfl
    · exact Or.inl rfl
  | intr _ hp hncli ht =>
    subst ht
    rw [modify_self] at hcall
    exact (h p a lk hcall).intr hi hp hncli
  | away hme haway =>
    rcases haway.todo with ⟨hto, hsame⟩ | ⟨-, -, hnone⟩
    · exact (h p a lk (hsame.symm.trans hcall)).away hi hst hme hto
    · exact absurd (hnone.symm.trans hcall) (by simp)

omit [DecidableEq κ] in
theorem sleeps_boot : Sleeps (Sys.boot : Sys κ) := by
  intro p a lk hcall
  by_cases hp : p = initproc
  · subst hp
    simp [Sys.boot, Sys.zero] at hcall
  · simp [Sys.boot, Sys.zero, hp] at hcall

/-- `sleep` returns with the lock, and leaves no channel. -/
def SleepReturns (s : Sys κ) : Prop :=
  ∀ p a lk, (s.proc p).call = some (.sleep a lk) → (s.proc p).todo = [] →
    (s.proc p).chan = none ∧ ∃ c, (s.cpu c).thread = some p ∧ s.lock (.other lk) = some c

omit [DecidableEq κ] in
theorem Sleeps.returns (h : Sleeps s) : SleepReturns s := fun p a lk hcall hto => by
  have hp := h p a lk hcall
  refine ⟨?_, ?_⟩
  · have hchan := hp.chan
    rwa [hto] at hchan
  · rcases hp.last with hl | ⟨-, hlock⟩
    · rw [hto] at hl
      exact absurd hl (by simp)
    · exact hlock

/-! ### Every wakeup -/

/-- The process `p`, which holds `lk`, calls `sleep`, giving the state `t₁`; then another thread
    acquires `lk`, and later calls `wakeup`, which has returned in `u`. -/
inductive Woken (p : Slot) (a lk : ℕ) (t₁ u : Sys κ) : Prop
  | intro {s₁ s₂ t₂ s₃ : Sys κ} {l₁ l₂ l₃ l₄ : List (Sys κ × Act κ)} {c₁ c₂ : κ} {ok : Bool}
      {w : Thread κ} {rest post : List Stmt} :
      Run Sys.Step Sys.boot l₁ s₁ →
      (s₁.cpu c₁).thread = some p → s₁.lock (.other lk) = some c₁ →
      s₁.Step (.call c₁ (.sleep a lk)) t₁ →
      Run Sys.Step t₁ l₂ s₂ →
      w ≠ .proc p → s₂.thread c₂ = w → s₂.code w = .acquire (.other lk) :: rest →
      s₂.Step (.run c₂ ok) t₂ →
      Run Sys.Step t₂ l₃ s₃ →
      s₃.code w = (Call.wakeup a).code ++ post →
      Run Sys.Step s₃ l₄ u → u.code w = post → Woken p a lk t₁ u

/-- What holds in every reachable state. -/
def Sound (s : Sys κ) : Prop := Inv s ∧ Family s

theorem Sound.step (h : Sound s) (hst : s.Step act t) : Sound t :=
  ⟨inv_step h.1 hst, family_step h.1 h.2 hst⟩

/-- A property that every step from a sound state keeps is kept by runs. -/
theorem Sound.run {J : Sys κ → Prop} {l : List (Sys κ × Act κ)} (h : Sound s)
    (hstep : ∀ s a t, Sound s → J s → s.Step a t → J t) (hj : J s)
    (hrun : Run Sys.Step s l t) : Sound t ∧ J t :=
  (hrun.invariant (I := fun s => Sound s ∧ J s) (C := fun _ _ => True)
    (fun s a t hs _ hst => ⟨hs.1.step hst, hstep s a t hs.1 hs.2 hst⟩) ⟨h, hj⟩
    fun _ _ => trivial).2

/-- While a wakeup is on its way, the process is going to sleep or will not any more; it executes
    the loop only once the process has slept or turned away. -/
theorem woken_step (h : Sound s) (hne : w ≠ .proc p) (hst : s.Step act t)
    (hj : Pending s w a post ∧ (Going s p a lk n ∨ Gone s p n) ∨ Awake s p a n) :
    Pending t w a post ∧ (Going t p a lk n ∨ Gone t p n) ∨ Awake t p a n := by
  rcases hj with ⟨hpend, hp⟩ | hawake
  · have hp' : Going t p a lk n ∨ Gone t p n := by
      rcases hp with hgoing | hgone
      · exact hgoing.step h.1 hst
      · exact Or.inr (hgone.step h.1 hst)
    rcases hpend.step h.1 h.2 hst with hpend' | ⟨hw, hlock, hnone⟩
    · exact Or.inl ⟨hpend', hp'⟩
    · right
      rcases hp with ⟨-, c, hc, hto⟩ | hgone
      · -- the process and the thread that wakes it up would both have ptable.lock
        have hheld : s.lock .ptable = some c := by
          rw [h.1.holds, todo_some hc]
          rcases hto with hto | hto <;> simp [hto, intoSleep, phase]
        obtain rfl := Option.some.inj (hlock.symm.trans hheld)
        exact absurd (hw.symm.trans (thread_some hc)) hne
      · rcases hgone.step h.1 hst with hlt | ⟨heq, hcalm⟩
        · exact Or.inl hlt
        · exact Or.inr ⟨heq, hcalm, hnone p⟩
  · exact Or.inr (hawake.step h.1 hst)

/-- The process no longer sleeps because of the call. -/
theorem Woken.awake {t₁ u : Sys κ} (h : Woken p a lk t₁ u) : Awake u p a (t₁.proc p).calls := by
  obtain ⟨hboot, hc, hlock, hcall, hsleep, hne, hw, hcode, hacquire, hthen, hwakeup, hend, hret⟩ := h
  rename_i s₁ s₂ t₂ s₃ l₁ l₂ l₃ l₄ c₁ c₂ ok w rest post
  have hs₁ : Sound s₁ := (Sound.run (J := fun _ => True) ⟨inv_boot, family_boot⟩
    (fun _ _ _ _ _ _ => trivial) trivial hboot).1
  have hholding : Holding t₁ p a lk (t₁.proc p).calls := by
    cases stepped hcall with
    | @call _ q _ hq _ _ ht =>
      obtain rfl := Option.some.inj (hc.symm.trans hq)
      subst ht
      refine ⟨rfl, c₁, hc, hlock, Or.inl ?_⟩
      rw [modify_self]
      rfl
  have h₂ := (hs₁.step hcall).run
    (J := fun s => Holding s p a lk (t₁.proc p).calls ∨
      Going s p a lk (t₁.proc p).calls ∨ Gone s p (t₁.proc p).calls)
    (fun s b t hs hj hst => by
      rcases hj with hj | hj | hj
      · exact (hj.step hs.1 hst).imp_right Or.inl
      · exact Or.inr (hj.step hs.1 hst)
      · exact Or.inr (Or.inr (hj.step hs.1 hst)))
    (Or.inl hholding) hsleep
  -- with the lock free, the process has got past its release
  have hfree : s₂.lock (.other lk) = none := by
    cases stepped hacquire with
    | proc hp hto ht =>
      rw [← hw, thread_some hp, Sys.code, hto] at hcode
      obtain ⟨rfl, rfl⟩ := List.cons.inj hcode
      obtain ⟨hfree, -⟩ := Option.ite_none_right_eq_some.mp ht
      rwa [goto_lock] at hfree
    | sched hnone hto ht =>
      rw [← hw, thread_none hnone, Sys.code, hto] at hcode
      obtain ⟨rfl, rfl⟩ := List.cons.inj hcode
      obtain ⟨hfree, -⟩ := Option.ite_none_right_eq_some.mp ht
      rwa [goto_lock] at hfree
  have hpast : Going s₂ p a lk (t₁.proc p).calls ∨ Gone s₂ p (t₁.proc p).calls := by
    rcases h₂.2 with ⟨-, c, -, hl, -⟩ | hpast
    · exact absurd (hfree.symm.trans hl) (by simp)
    · exact hpast
  have hkeep : ∀ (s : Sys κ) b t, Sound s →
      Going s p a lk (t₁.proc p).calls ∨ Gone s p (t₁.proc p).calls → s.Step b t →
      Going t p a lk (t₁.proc p).calls ∨ Gone t p (t₁.proc p).calls := fun s b t hs hj hst => by
    rcases hj with hj | hj
    · exact hj.step hs.1 hst
    · exact Or.inr (hj.step hs.1 hst)
  have h₃ := (h₂.1.step hacquire).run hkeep (hkeep _ _ _ h₂.1 hpast hacquire) hthen
  have hpend : Pending s₃ w a (.release .ptable :: post) := ⟨[.acquire .ptable], hwakeup⟩
  have h₄ := h₃.1.run
    (J := fun s => Pending s w a (.release .ptable :: post) ∧
      (Going s p a lk (t₁.proc p).calls ∨ Gone s p (t₁.proc p).calls) ∨
      Awake s p a (t₁.proc p).calls)
    (fun s b t hs hj hst => woken_step hs hne hst hj)
    (Or.inl ⟨hpend, h₃.2⟩) hend
  rcases h₄.2 with ⟨⟨pre, hpre⟩, -⟩ | hawake
  · have hlen := congrArg List.length (hret.symm.trans hpre)
    simp only [List.length_append, List.length_cons] at hlen
    omega
  · exact hawake

/-- No wakeup is lost: one by a thread that has got the lock of the sleeper after it was given up
    finds the process, which is not asleep in that call when it returns. And whoever comes back
    from `sleep` has its lock again and no channel. -/
theorem no_lost_wakeup {κ : Type} [DecidableEq κ] (p : Slot) (a lk : ℕ) :
    (∀ t₁ u : Sys κ, Woken p a lk t₁ u →
      ¬ ((u.proc p).calls = (t₁.proc p).calls ∧ Asleep (u.proc p) a)) ∧
    ∀ (l : List (Sys κ × Act κ)) (u : Sys κ), Run Sys.Step Sys.boot l u →
      Throughout SleepReturns l u := by
  refine ⟨fun t₁ u h ⟨hsame, hasleep⟩ => ?_, fun l u hrun => ?_⟩
  · rcases h.awake with hlt | ⟨-, -, hno⟩
    · exact absurd hsame hlt.ne'
    · exact hno hasleep
  · have hinv := hrun.invariant (I := fun s => Inv s ∧ Sleeps s) (C := fun _ _ => True)
      (fun s b t hs _ hst => ⟨inv_step hs.1 hst, sleeps_step hs.1 hs.2 hst⟩)
      ⟨inv_boot, sleeps_boot⟩ fun _ _ => trivial
    exact hinv.mono fun s hs => hs.2.returns

end Steps

/-- Init makes a child, which another processor takes, and gets the lock 7; it goes to sleep; the
    child gets the lock; it calls `wakeup`; it returns. -/
def wokenByChild : List (List (Act Bool)) :=
  [ List.replicate 3 (.run false true) ++ [.call false .fork] ++
      List.replicate 9 (.run false true) ++ List.replicate 4 (.run true true) ++
      [.call false (.acquire 7), .run false true],
    [.call false (.sleep 5 7)],
    List.replicate 71 (.run false true) ++ [.call true (.acquire 7)],
    [.run true true],
    [.call true (.wakeup 5)],
    List.replicate 3 (.run true true)]

/-- The state after the first `n` parts of `wokenByChild`. -/
def sofar (n : ℕ) : Sys Bool :=
  (exec Sys.next Sys.boot (wokenByChild.take n).flatten).getD Sys.boot

theorem exec_sofar (n : ℕ) :
    exec Sys.next Sys.boot (wokenByChild.take n).flatten = some (sofar n) := by
  have hall : (exec Sys.next Sys.boot wokenByChild.flatten).isSome = true := by decide +kernel
  rw [← List.take_append_drop n wokenByChild, List.flatten_append, exec_append] at hall
  cases h : exec Sys.next Sys.boot (wokenByChild.take n).flatten with
  | none => simp [h] at hall
  | some s => simp [sofar, h]

theorem exec_part {n : ℕ} {part : List (Act Bool)}
    (hpart : wokenByChild[n]? = some part) :
    exec Sys.next (sofar n) part = some (sofar (n + 1)) := by
  have hnext := exec_sofar (n + 1)
  rw [List.take_add_one, hpart, List.flatten_append, exec_append,
    exec_sofar n] at hnext
  simpa using hnext

/-- `no_lost_wakeup` where a child on another processor wakes init up. -/
theorem wakeup_by_child : ∃ t₁ u : Sys Bool, Woken initproc 5 7 t₁ u ∧
    ¬ ((u.proc initproc).calls = (t₁.proc initproc).calls ∧ Asleep (u.proc initproc) 5) := by
  have hstep : ∀ {n : ℕ} {act : Act Bool}, wokenByChild[n]? = some [act] →
      (sofar n).Step act (sofar (n + 1)) := fun {n act} hpart => by
    simpa [exec, Sys.Step] using exec_part hpart
  have hchild : (.proc 1 : Thread Bool) ≠ .proc initproc := fun h =>
    absurd (Thread.proc.inj h) (by decide)
  have hw : Woken initproc 5 7 (sofar 2) (sofar 6) :=
    .intro (w := .proc 1) (Run.of_exec (exec_part (n := 0) rfl))
      (by decide +kernel : ((sofar 1).cpu false).thread = some initproc) (by decide +kernel)
      (hstep (n := 1) rfl)
      (Run.of_exec (exec_part (n := 2) rfl)) hchild
      (thread_some (by decide +kernel : ((sofar 3).cpu true).thread = some 1))
      (by decide +kernel : ((sofar 3).proc 1).todo = .acquire (.other 7) :: [])
      (hstep (n := 3) rfl) (Run.of_exec (exec_part (n := 4) rfl))
      (by decide +kernel : ((sofar 5).proc 1).todo = (Call.wakeup 5).code ++ [])
      (Run.of_exec (exec_part (n := 5) rfl))
      (by decide +kernel : ((sofar 6).proc 1).todo = [])
  exact ⟨_, _, hw, (no_lost_wakeup initproc 5 7).1 _ _ hw⟩

end Xv6.Sched
