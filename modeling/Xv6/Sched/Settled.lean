import Xv6.Sched.Wakeup

/-! @src proc.c | name:Channels and pids of living processes | layer:proof

    A process has a channel only in the middle of a call, and its pid is its own until it dies;
    only `exit` kills it. -/

namespace Xv6.Sched
open Xv6.Schemes
open Xv6.Schemes.X86 (Word)
open Xv6.Process (NPROC Slot ProcState Chan)

variable {κ : Type} {s t : Sys κ} {c : κ} {p q np : Slot} {act : Act κ} {st : Stmt}
  {rest : List Stmt} {ok : Bool} {f : Proc → Proc}

/-! ### Channels -/

/-- Every process has no channel any more once it has executed the statements that it has. -/
def Settled (s : Sys κ) : Prop := ∀ p, lastChan (s.proc p).chan (s.proc p).todo = none

/-- A handler has nothing to do with the channel of the process that it interrupts. -/
theorem lastChan_handler (i : Handler) (ch : Option Chan) (l : List Stmt) :
    lastChan ch (i.code ++ l) = lastChan ch l := by
  cases i <;> rfl

theorem lastChan_code (f : Call) : lastChan none f.code = none := by
  cases f <;> rfl

variable [DecidableEq κ]

/-- What a process goes on with instead of the statements that it had. -/
theorem leap_todo (hp : (s.cpu c).thread = some p) (hleap : Leaps st)
    (ht : s.procStmt c p ok rest st = some t) :
    (t.proc p).todo ∈ [rest, [.release .ptable], sleepInWait p] ∨
      ∃ np, (t.proc p).todo = forkInto np ∨ (t.proc p).todo = [.unalloc np] := by
  cases st with
  | waitLoop =>
    left
    simp only [Sys.procStmt] at ht
    split at ht
    · obtain rfl := Option.some.inj ht
      simp
    · split at ht
      · obtain rfl := Option.some.inj ht
        simp
      · obtain rfl := Option.some.inj ht
        simp
  | allocproc =>
    simp only [Sys.procStmt] at ht
    split at ht
    · rename_i np _
      obtain rfl := Option.some.inj ht
      rw [goto_some (p := p) (by exact hp), modify_self]
      exact Or.inr ⟨np, Or.inl rfl⟩
    · obtain rfl := Option.some.inj ht
      simp
  | kstack np =>
    simp only [Sys.procStmt] at ht
    split at ht
    · obtain rfl := Option.some.inj ht
      rw [goto_some (p := p) (by exact hp), modify_self]
      simp
    · obtain rfl := Option.some.inj ht
      rw [goto_some hp, modify_self]
      exact Or.inr ⟨np, Or.inr rfl⟩
  | copyuvm np =>
    obtain rfl := Option.some.inj ht
    rw [goto_some hp, modify_self]
    cases ok with
    | true => simp
    | false => exact Or.inr ⟨np, Or.inr rfl⟩
  | _ => exact hleap.elim

/-- What a process goes on with does not set the channel of others, and does not kill it. -/
theorem leap_mem (hp : (s.cpu c).thread = some p) (hleap : Leaps st)
    (ht : s.procStmt c p ok rest st = some t) {x : Stmt} (hx : x ∈ (t.proc p).todo) :
    x ∈ rest ∨ x ≠ .setState .ZOMBIE ∧ ∀ a, x ≠ .setChan (.other a) := by
  rcases leap_todo hp hleap ht with hl | ⟨np, hl | hl⟩
  · simp only [List.mem_cons, List.not_mem_nil, or_false] at hl
    rcases hl with hl | hl | hl <;> rw [hl] at hx
    · exact Or.inl hx
    · obtain rfl := List.mem_singleton.mp hx
      simp
    · simp only [sleepInWait, List.mem_cons, List.not_mem_nil, or_false] at hx
      rcases hx with rfl | rfl | rfl | rfl | rfl <;> simp
  · rw [hl] at hx
    simp only [forkInto, List.mem_cons, List.not_mem_nil, or_false] at hx
    rcases hx with rfl | rfl | rfl | rfl | rfl | rfl | rfl <;> simp
  · rw [hl] at hx
    obtain rfl := List.mem_singleton.mp hx
    simp

/-- A statement after which others follow than before is executed without a channel. -/
theorem settled_leap (hi : Inv s) (hf : Family s) (hp : (s.cpu c).thread = some p)
    (hto : (s.proc p).todo = st :: rest) (hleap : Leaps st) (hset : Settled s)
    (ht : s.procStmt c p ok rest st = some t) :
    lastChan (t.proc p).chan (t.proc p).todo = none := by
  have hwf : Wf (st :: rest) := hto ▸ hi.threads.wf p
  have hshape : Shape p (st :: rest) := hto ▸ hf.code.shape p
  have hlast : lastChan (s.proc p).chan (st :: rest) = none := hto ▸ hset p
  obtain ⟨hnone, hskip⟩ : (s.proc p).chan = none ∧ lastChan (s.proc p).chan rest = none := by
    cases st with
    | waitLoop | allocproc =>
      obtain rfl : rest = [] := hwf
      exact ⟨hlast, hlast⟩
    | kstack np | copyuvm np =>
      obtain rfl := hshape.1
      exact ⟨hlast, hlast⟩
    | _ => exact hleap.elim
  have hchan : (t.proc p).chan = none := by
    rcases (procStep hi hp hto ht).own.chan fun ch hch => by simp [hch, Leaps] at hleap with he | he
    · exact he.trans hnone
    · exact he
  rw [hchan]
  rcases leap_todo hp hleap ht with hl | ⟨np, hl | hl⟩
  · simp only [List.mem_cons, List.not_mem_nil, or_false] at hl
    rcases hl with hl | hl | hl <;> rw [hl]
    · exact lastChan_none (hnone ▸ hskip)
    · rfl
    · rfl
  · rw [hl]
    rfl
  · rw [hl]
    rfl

theorem settled_step (hi : Inv s) (hf : Family s) (h : Settled s) (hst : s.Step act t) :
    Settled t := by
  intro p
  cases felt hi hst p with
  | run _ hp hto ht =>
    rcases (procStep hi hp hto ht).own.todo with hrest | ⟨hleap, -⟩
    · rw [hrest]
      exact lastChan_run hi hp hto ht (hto ▸ h p)
    · exact settled_leap hi hf hp hto hleap h ht
  | @call _ f _ _ hto ht =>
    have hnone : (s.proc p).chan = none := by simpa [hto, lastChan] using h p
    subst ht
    rw [modify_self]
    exact hnone ▸ lastChan_code f
  | @intr _ i _ _ _ ht =>
    subst ht
    rw [modify_self]
    exact (lastChan_handler i _ _).trans (h p)
  | away _ haway =>
    rcases haway.todo with ⟨hto, -⟩ | ⟨he, hto, -⟩
    · rw [haway.chan, hto, h p]
    · have hrest := hi.threads.off p (hi.threads.thread_ne (hi.threads.dormant (Or.inr he)))
      simp only [Rest, he] at hrest
      have hnone : (s.proc p).chan = none := by
        rcases hrest with hr | hr <;> simpa [hr, forkret, lastChan] using h p
      rw [haway.chan, hto, hnone]
      rfl

omit [DecidableEq κ] in
theorem settled_boot : Settled (Sys.boot : Sys κ) := by
  intro p
  by_cases hp : p = initproc
  · subst hp
    rfl
  · simp [Sys.boot, Sys.zero, hp, lastChan]

/-! ### Life and death -/

/-- Only who has called `exit` is about to die. -/
def Dying (s : Sys κ) : Prop :=
  ∀ p, .setState .ZOMBIE ∈ (s.proc p).todo → (s.proc p).call = some .exit

theorem dying_step (hi : Inv s) (h : Dying s) (hst : s.Step act t) : Dying t := by
  intro p hmem
  cases felt hi hst p with
  | @run _ _ _ rest _ hp hto ht =>
    have hown := (procStep hi hp hto ht).own
    have hkeep : .setState .ZOMBIE ∈ rest → (s.proc p).call = some .exit := fun hm =>
      h p (hto ▸ List.mem_cons_of_mem _ hm)
    rw [hown.call]
    rcases hown.todo with hrest | ⟨hleap, -⟩
    · exact hkeep (hrest ▸ hmem)
    · exact (leap_mem hp hleap ht hmem).elim hkeep (by simp)
  | @call _ f _ _ _ ht =>
    subst ht
    rw [modify_self] at hmem ⊢
    cases f <;> simp [Call.code] at hmem ⊢
  | @intr _ i _ _ _ ht =>
    subst ht
    rw [modify_self] at hmem ⊢
    rcases List.mem_append.mp hmem with hm | hm
    · cases i <;> simp [Handler.code] at hm
    · exact h p hm
  | away _ haway =>
    rcases haway.todo with ⟨hto, hcall⟩ | ⟨-, hto, -⟩
    · exact hcall.trans (h p (hto ▸ hmem))
    · simp [hto, forkret] at hmem

omit [DecidableEq κ] in
theorem dying_boot : Dying (Sys.boot : Sys κ) := by
  intro p hmem
  by_cases hp : p = initproc
  · subst hp
    simp [Sys.boot, forkret] at hmem
  · simp [Sys.boot, Sys.zero, hp] at hmem

/-- A living process stays alive and keeps its pid. -/
def Lives (r r' : Proc) : Prop := Alive r.state → r'.pid = r.pid ∧ Alive r'.state

omit [DecidableEq κ] in
theorem Lives.rfl' (r : Proc) : Lives r r := fun h => ⟨rfl, h⟩

theorem Lives.trans {r r' r'' : Proc} (h : Lives r r') (h' : Lives r' r'') : Lives r r'' :=
  fun ha => ⟨(h' (h ha).2).1.trans (h ha).1, (h' (h ha).2).2⟩

theorem Soft.lives {r r' : Proc} (h : Soft r r') (hpid : r'.pid = r.pid) : Lives r r' :=
  fun ha => ⟨hpid, by
    rcases h.2 with he | ⟨-, he⟩
    · rwa [he]
    · exact Or.inr (Or.inl he)⟩

/-- A change of the state into that of a living process. -/
theorem lives_of {r r' : Proc} (hpid : r'.pid = r.pid) (ha : Alive r.state → Alive r'.state) :
    Lives r r' :=
  fun h => ⟨hpid, ha h⟩

theorem lives_of_dead {r r' : Proc} (h : ¬ Alive r.state) : Lives r r' := fun ha => absurd ha h

omit [DecidableEq κ] in
theorem lives_modify (h : Lives (s.proc p) (f (s.proc p))) (q : Slot) :
    Lives (s.proc q) ((s.modify p f).proc q) := by
  rcases eq_or_ne q p with rfl | hne
  · rwa [modify_self]
  · rw [modify_of_ne hne]
    exact .rfl' _

theorem lives_goto {l : List Stmt} (q : Slot) : Lives (s.proc q) ((s.goto c l).proc q) := by
  cases hc : (s.cpu c).thread with
  | some p =>
    rw [goto_some hc]
    exact lives_modify (fun ha => ⟨rfl, ha⟩) q
  | none =>
    rw [goto_none hc]
    exact .rfl' _

omit [DecidableEq κ] in
theorem lives_wakeTable (ch : Chan) (q : Slot) : Lives (s.proc q) (wakeTable ch s.proc q) := by
  obtain ⟨st, he⟩ := wakeTable_eq ch s.proc q
  exact (soft_wakeTable ch s.proc q).lives (by rw [he])

theorem lives_procStmt (hi : Inv s) (hp : (s.cpu c).thread = some p)
    (hto : (s.proc p).todo = st :: rest) (hst : st ≠ .setState .ZOMBIE)
    (ht : s.procStmt c p ok rest st = some t) (q : Slot) : Lives (s.proc q) (t.proc q) := by
  have hself : ∀ {u : Sys κ} {f : Proc → Proc}, (∀ r, (f r).pid = r.pid ∧ (f r).state = r.state) →
      Lives (u.proc q) ((u.modify p f).proc q) := fun hf =>
    lives_modify (lives_of (hf _).1 fun ha => by rwa [(hf _).2]) q
  cases st with
  | acquire lk =>
    obtain ⟨-, ht⟩ := Option.ite_none_right_eq_some.mp ht
    obtain rfl := Option.some.inj ht
    exact lives_goto q
  | release lk =>
    obtain ⟨-, ht⟩ := Option.ite_none_right_eq_some.mp ht
    obtain rfl := Option.some.inj ht
    exact lives_goto q
  | setChan | clearChan | fault =>
    obtain rfl := Option.some.inj ht
    exact hself fun r => ⟨rfl, rfl⟩
  | setState st =>
    obtain rfl := Option.some.inj ht
    have hwf : Wf (.setState st :: rest) := hto ▸ hi.threads.wf p
    have halive : Alive st := by
      rcases hwf.2.2 with ⟨rfl, -⟩ | ⟨rfl | rfl, -⟩
      · exact absurd rfl hst
      · exact Or.inr (Or.inl rfl)
      · exact Or.inl rfl
    rw [if_neg fun h => hst (congrArg Stmt.setState h)]
    exact lives_modify (lives_of rfl fun _ => halive) q
  | swtch =>
    obtain ⟨-, ht⟩ := Option.ite_none_right_eq_some.mp ht
    obtain rfl := Option.some.inj ht
    exact lives_goto q
  | wakeup1 ch =>
    obtain rfl := Option.some.inj ht
    exact (lives_wakeTable ch q).trans (lives_goto (s := { s with proc := wakeTable ch s.proc }) q)
  | kill pid =>
    obtain rfl := Option.some.inj ht
    obtain ⟨st, k, m, he⟩ := kill_eq pid s.proc q
    have hkill : Lives (s.proc q) (mark pid (killTable s.proc pid).2 q) :=
      (soft_killTable pid s.proc q).lives (by rw [he])
    exact hkill.trans (hself (u := { s with proc := mark pid (killTable s.proc pid).2 })
      fun r => ⟨rfl, rfl⟩)
  | wakeParent =>
    simp only [Sys.procStmt] at ht
    split at ht
    · rename_i r _
      obtain rfl := Option.some.inj ht
      exact (lives_wakeTable (.proc r) q).trans
        (lives_goto (s := { s with proc := wakeTable (.proc r) s.proc }) q)
    · obtain rfl := Option.some.inj ht
      exact lives_goto q
  | abandon =>
    obtain rfl := Option.some.inj ht
    obtain ⟨st, o, he⟩ := abandon_eq p s.proc q
    have habandon : Lives (s.proc q) (abandonTable p s.proc q) :=
      (soft_abandonTable p s.proc q).lives (by rw [he])
    exact habandon.trans (lives_goto (s := { s with proc := abandonTable p s.proc }) q)
  | waitLoop =>
    simp only [Sys.procStmt] at ht
    split at ht
    · rename_i r hr
      obtain rfl := Option.some.inj ht
      have hdead : ¬ Alive (s.proc r).state := (deadChild_some hr).2 ▸ not_alive_zombie
      refine Lives.trans (lives_modify (f := Proc.reap) (lives_of_dead hdead) q) ?_
      exact hself (u := (s.modify r Proc.reap).note _) fun r => ⟨rfl, rfl⟩
    · split at ht <;> obtain rfl := Option.some.inj ht <;> exact hself fun r => ⟨rfl, rfl⟩
  | allocproc =>
    simp only [Sys.procStmt] at ht
    split at ht
    · rename_i np hnp
      obtain rfl := Option.some.inj ht
      have hu : (s.proc np).state = .UNUSED := by simpa using List.find?_some hnp
      refine Lives.trans (lives_modify (f := fun r =>
        { r with state := .EMBRYO, pid := s.nextpid, num := s.born, marked := false })
        (lives_of_dead fun ha => ha.ne.1 hu) q) ?_
      exact lives_goto (s := { s.modify np fun r =>
        { r with state := .EMBRYO, pid := s.nextpid, num := s.born, marked := false } with
        nextpid := s.nextpid + 1, born := s.born + 1 }) q
    · obtain rfl := Option.some.inj ht
      exact hself fun r => ⟨rfl, rfl⟩
  | kstack np =>
    simp only [Sys.procStmt] at ht
    split at ht
    · obtain rfl := Option.some.inj ht
      exact (lives_modify (f := fun r => { r with todo := forkret, call := none })
        (lives_of rfl id) q).trans (lives_goto q)
    · obtain rfl := Option.some.inj ht
      exact lives_goto q
  | unalloc np =>
    obtain rfl := Option.some.inj ht
    have hchild : child (s.proc p).todo = some (np, false) := by
      rw [hto]
      rfl
    obtain ⟨he, -, -, -⟩ := hi.child_of hp (by simp [hto, phase]) hchild
    exact (lives_modify (f := fun r => { r with state := .UNUSED })
      (lives_of_dead fun ha => ha.ne.2.1 he) q).trans (hself fun r => ⟨rfl, rfl⟩)
  | copyuvm np =>
    obtain rfl := Option.some.inj ht
    exact lives_goto q
  | inherit np =>
    obtain rfl := Option.some.inj ht
    exact (lives_modify (f := fun r => { r with parent := some p, ret := 0 })
      (lives_of rfl id) q).trans (lives_goto q)
  | runnable np =>
    obtain rfl := Option.some.inj ht
    refine Lives.trans (lives_modify (s := s) (p := np) (f := fun r => { r with state := .RUNNABLE })
      (lives_of rfl fun _ => Or.inr (Or.inl rfl)) q) ?_
    exact hself (u := (s.modify np fun r => { r with state := .RUNNABLE }).note _)
      fun r => ⟨rfl, rfl⟩
  | scan | back => exact absurd ht (by simp [Sys.procStmt])

theorem lives_schedStmt (ht : s.schedStmt c rest st = some t) (q : Slot) :
    Lives (s.proc q) (t.proc q) := by
  cases st with
  | acquire lk =>
    obtain ⟨-, ht⟩ := Option.ite_none_right_eq_some.mp ht
    obtain rfl := Option.some.inj ht
    exact lives_goto q
  | release lk =>
    obtain ⟨-, ht⟩ := Option.ite_none_right_eq_some.mp ht
    obtain rfl := Option.some.inj ht
    exact lives_goto q
  | wakeup1 ch =>
    obtain rfl := Option.some.inj ht
    exact (lives_wakeTable ch q).trans (lives_goto (s := { s with proc := wakeTable ch s.proc }) q)
  | scan i =>
    simp only [Sys.schedStmt] at ht
    split at ht
    · split at ht
      · obtain rfl := Option.some.inj ht
        exact lives_modify (s := s) (f := fun r => { r with state := .RUNNING })
          (lives_of rfl fun _ => alive_of_running rfl) q
      · obtain rfl := Option.some.inj ht
        exact lives_goto q
    · obtain rfl := Option.some.inj ht
      exact lives_goto q
  | back p =>
    obtain rfl := Option.some.inj ht
    exact .rfl' _
  | setChan | setState | swtch | clearChan | kill | fault | wakeParent | abandon | waitLoop
  | allocproc | kstack | unalloc | copyuvm | inherit | runnable =>
    exact absurd ht (by simp [Sys.schedStmt])

/-- A living process that has not called `exit` stays alive and keeps its pid. -/
theorem lives_step (hi : Inv s) (hd : Dying s) (hst : s.Step act t)
    (hcall : (s.proc q).call ≠ some .exit) : Lives (s.proc q) (t.proc q) := by
  cases stepped hst with
  | @proc c ok p st rest hp hto ht =>
    by_cases hz : st = .setState .ZOMBIE
    · subst hz
      have hne : q ≠ p := by
        rintro rfl
        exact hcall (hd q (hto ▸ List.mem_cons_self))
      obtain rfl := Option.some.inj ht
      rw [if_pos rfl, note_proc, modify_of_ne hne]
      exact .rfl' _
    · exact lives_procStmt hi hp hto hz ht q
  | sched _ _ ht => exact lives_schedStmt ht q
  | call _ _ _ ht =>
    subst ht
    exact lives_modify (fun ha => ⟨rfl, ha⟩) q
  | intr _ ht =>
    subst ht
    exact lives_goto q

end Xv6.Sched
