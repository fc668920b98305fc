import Xv6.Sched.Handover

/-! @src proc.c | name:Who gets killed | layer:proof

    `kill` looks for a pid in every slot, used or not. The pid of a slot that is not in use is 0, or
    the one of a process whose `fork` has failed; a `killed` that is set there passes on to the next
    process in the slot, and so does one that is set before the `fork` fails. -/

namespace Xv6.Sched
open Xv6.Schemes
open Xv6.Schemes.X86 (Word)
open Xv6.Process (NPROC Slot ProcState Chan)

/-! ### The contract of kill -/

/-- `kill` says whether a process in use has the pid; if so it sets the `killed` of that process and
    gets it out of its sleep, and nothing else. -/
structure Kills (tbl : Slot → Proc) (pid : Word) : Prop where
  found : (killTable tbl pid).1 = 0 ↔ ∃ q, (tbl q).pid = pid ∧ (tbl q).state ≠ .UNUSED
  only : (killTable tbl pid).1 = 0 → ∃ q, (tbl q).pid = pid ∧ (tbl q).state ≠ .UNUSED ∧
    (killTable tbl pid).2 = Function.update tbl q (tbl q).kill
  nothing : (killTable tbl pid).1 ≠ 0 → (killTable tbl pid).1 = -1 ∧ (killTable tbl pid).2 = tbl

/-- The process that `kill` finds is in use. -/
def FindsLive (tbl : Slot → Proc) (pid : Word) : Prop :=
  ∀ q, findPid tbl pid = some q → (tbl q).state ≠ .UNUSED

theorem FindsLive.kills {tbl : Slot → Proc} {pid : Word} (h : FindsLive tbl pid) :
    Kills tbl pid := by
  cases hf : findPid tbl pid with
  | some q =>
    have hk := killTable_some hf
    have hq := findPid_some hf
    refine ⟨?_, fun _ => ⟨q, hq, h q hf, by rw [hk]⟩, fun hne => absurd (by rw [hk]) hne⟩
    exact iff_of_true (by rw [hk]) ⟨q, hq, h q hf⟩
  | none =>
    have hk := killTable_none hf
    have hret : (killTable tbl pid).1 ≠ 0 := by simp [hk]
    refine ⟨iff_of_false hret ?_, fun h0 => absurd h0 hret, fun _ => by rw [hk]; exact ⟨rfl, rfl⟩⟩
    rintro ⟨q, hq, -⟩
    exact findPid_none hf q hq

/-- While no unused slot has its `killed` set, `kill` meets its contract only so. -/
theorem kills_iff {tbl : Slot → Proc} {pid : Word}
    (hu : ∀ q, (tbl q).state = .UNUSED → (tbl q).killed = false) :
    Kills tbl pid ↔ FindsLive tbl pid := by
  refine ⟨fun h q hq hunused => ?_, FindsLive.kills⟩
  have hk := killTable_some hq
  obtain ⟨r, -, hr, htbl⟩ := h.only (by rw [hk])
  have hne : q ≠ r := by
    rintro rfl
    exact hr hunused
  -- the unused slot has changed, the process in use is another one
  have hkilled : ((killTable tbl pid).2 q).killed = true := by simp [hk, Proc.kill]
  rw [htbl, Function.update_of_ne hne, hu q hunused] at hkilled
  exact absurd hkilled (by simp)

/-! ### What the steps do -/

variable {κ : Type} {s t : Sys κ} {c : κ} {p : Slot}

/-- The statement of a process that an action executes. -/
def Sys.stmt (s : Sys κ) : Act κ → Option Stmt
  | .run c _ => (s.cpu c).thread.bind fun p => (s.proc p).todo.head?
  | .call _ _ | .intr _ _ => none

/-- Every `kill` meets its contract. -/
def KillOk (s : Sys κ) (a : Act κ) : Prop :=
  ∀ pid, s.stmt a = some (.kill pid) → Kills s.proc pid

/-- A process that becomes `RUNNABLE` in `fork` is not killed, unless someone has called `kill` with
    its pid since it was allocated. -/
def NewbornClean (s : Sys κ) (a : Act κ) : Prop :=
  ∀ np, s.stmt a = some (.runnable np) → (s.proc np).killed = true → (s.proc np).marked = true

/-- No `kill` finds a slot that is not in use. -/
def KillsLive (s : Sys κ) (a : Act κ) : Prop :=
  ∀ pid, s.stmt a = some (.kill pid) → FindsLive s.proc pid

/-- No `fork` gives up a process that has been killed already. -/
def FailsUnkilled (s : Sys κ) (a : Act κ) : Prop :=
  ∀ np, s.stmt a = some (.unalloc np) → (s.proc np).killed = false

/-- A record in which `killed` does not wait for the next process. -/
structure Fresh (r : Proc) : Prop where
  unused : r.state = .UNUSED → r.killed = false
  embryo : r.state = .EMBRYO → r.killed = true → r.marked = true

/-- The fields that matter here have not changed. -/
theorem Fresh.congr {r r' : Proc} (h : Fresh r) (hs : r'.state = r.state)
    (hk : r'.killed = r.killed) (hm : r'.marked = r.marked) : Fresh r' :=
  ⟨fun hu => hk ▸ h.unused (hs ▸ hu), fun he hr => hm ▸ h.embryo (hs ▸ he) (hk ▸ hr)⟩

/-- A process that has run at some time. -/
theorem Fresh.live {r : Proc} (hu : r.state ≠ .UNUSED) (he : r.state ≠ .EMBRYO) : Fresh r :=
  ⟨fun h => absurd h hu, fun h => absurd h he⟩

/-- All records of the table. -/
def AllFresh (s : Sys κ) : Prop := ∀ q, Fresh (s.proc q)

theorem AllFresh.modify {f : Proc → Proc} (h : AllFresh s) (hf : Fresh (f (s.proc p))) :
    AllFresh (s.modify p f) := by
  intro q
  rcases eq_or_ne q p with rfl | hq
  · rwa [modify_self]
  · rw [modify_of_ne hq]
    exact h q

theorem AllFresh.soft {f : Proc → Proc} (h : AllFresh s) (hs : ∀ r, (f r).state = r.state)
    (hk : ∀ r, (f r).killed = r.killed) (hm : ∀ r, (f r).marked = r.marked) :
    AllFresh (s.modify p f) :=
  h.modify ((h p).congr (hs _) (hk _) (hm _))

theorem fresh_wakeTable {ch : Chan} {tbl : Slot → Proc} {q : Slot} (h : Fresh (tbl q)) :
    Fresh (wakeTable ch tbl q) := by
  unfold wakeTable
  split
  · exact .live (by simp) (by simp)
  · exact h

theorem fresh_abandonTable {tbl : Slot → Proc} {q : Slot} (h : Fresh (tbl q)) :
    Fresh (abandonTable p tbl q) := by
  have horphan : Fresh (orphans p tbl q) := by
    unfold orphans
    split
    · exact h.congr rfl rfl rfl
    · exact h
  unfold abandonTable
  split
  · exact fresh_wakeTable horphan
  · exact horphan

theorem fresh_mark {tbl : Slot → Proc} {pid : Word} {q : Slot} (h : Fresh (tbl q)) :
    Fresh (mark pid tbl q) := by
  unfold mark
  split
  · exact ⟨h.unused, fun _ _ => rfl⟩
  · exact h

/-- `kill` sets `killed` only in a process that it also marks. -/
theorem fresh_kill {tbl : Slot → Proc} {pid : Word} {q : Slot} (hlive : FindsLive tbl pid)
    (h : Fresh (tbl q)) : Fresh (mark pid (killTable tbl pid).2 q) := by
  cases hf : findPid tbl pid with
  | some r =>
    rw [killTable_some hf]
    rcases eq_or_ne q r with rfl | hne
    · have hu : (tbl q).kill.state ≠ .UNUSED := by
        unfold Proc.kill
        dsimp only
        split
        · decide
        · exact hlive q hf
      have hm : mark pid (Function.update tbl q (tbl q).kill) q =
          { (tbl q).kill with marked := true } := by
        have hpid : (tbl q).kill.pid = pid := findPid_some hf
        simp only [mark, Function.update_self, hpid, true_and, if_pos hu]
      rw [hm]
      exact ⟨fun h0 => absurd h0 hu, fun _ _ => rfl⟩
    · refine fresh_mark ?_
      dsimp only
      rwa [Function.update_of_ne hne]
  | none =>
    rw [killTable_none hf]
    exact fresh_mark h

section

variable [DecidableEq κ] {l : List Stmt}

theorem AllFresh.goto (h : AllFresh s) : AllFresh (s.goto c l) := by
  cases hc : (s.cpu c).thread with
  | some p =>
    rw [goto_some hc]
    exact h.soft (fun _ => rfl) (fun _ => rfl) fun _ => rfl
  | none =>
    rw [goto_none hc]
    exact h

theorem AllFresh.acquire {lk : Lock} (h : AllFresh s) (ht : s.acquire c lk = some t) :
    AllFresh t := by
  obtain ⟨-, ht⟩ := Option.ite_none_right_eq_some.mp ht
  exact Option.some.inj ht ▸ h

theorem AllFresh.release {lk : Lock} (h : AllFresh s) (ht : s.release c lk = some t) :
    AllFresh t := by
  obtain ⟨-, ht⟩ := Option.ite_none_right_eq_some.mp ht
  exact Option.some.inj ht ▸ h

theorem fresh_waitLoop {ok : Bool} {rest : List Stmt} (h : AllFresh s)
    (ht : s.procStmt c p ok rest .waitLoop = some t) : AllFresh t := by
  have hret : ∀ {u : Sys κ} {v : Word} {l : List Stmt}, AllFresh u →
      AllFresh (u.modify p fun r => { r with ret := v, todo := l }) := fun hu =>
    hu.soft (fun _ => rfl) (fun _ => rfl) fun _ => rfl
  simp only [Sys.procStmt] at ht
  split at ht
  · rename_i q _
    obtain rfl := Option.some.inj ht
    have hreap : AllFresh (s.modify q Proc.reap) :=
      h.modify ⟨fun _ => rfl, fun he => absurd he (by simp [Proc.reap])⟩
    exact hret hreap
  · split at ht
    · obtain rfl := Option.some.inj ht
      exact hret h
    · obtain rfl := Option.some.inj ht
      exact h.soft (fun _ => rfl) (fun _ => rfl) fun _ => rfl

theorem fresh_allocproc {ok : Bool} {rest : List Stmt} (h : AllFresh s)
    (ht : s.procStmt c p ok rest .allocproc = some t) : AllFresh t := by
  simp only [Sys.procStmt] at ht
  split at ht
  · rename_i np hnp
    obtain rfl := Option.some.inj ht
    have hu : (s.proc np).state = .UNUSED := by simpa using List.find?_some hnp
    have halloc : AllFresh (s.modify np fun r =>
        { r with state := .EMBRYO, pid := s.nextpid, num := s.born, marked := false }) :=
      h.modify ⟨fun he => absurd he (by simp), fun _ hk => by simp [(h np).unused hu] at hk⟩
    exact AllFresh.goto (s := { s.modify np fun r => { r with
      state := .EMBRYO, pid := s.nextpid, num := s.born, marked := false } with
      nextpid := s.nextpid + 1, born := s.born + 1 }) halloc
  · obtain rfl := Option.some.inj ht
    exact h.soft (fun _ => rfl) (fun _ => rfl) fun _ => rfl

/-- The statements of a process keep the records fresh, if they do what the conditions say. -/
theorem fresh_procStmt {ok : Bool} {st : Stmt} {rest : List Stmt} (hi : Inv s) (h : AllFresh s)
    (hp : (s.cpu c).thread = some p) (hto : (s.proc p).todo = st :: rest)
    (hlive : ∀ pid, st = .kill pid → FindsLive s.proc pid)
    (hfail : ∀ np, st = .unalloc np → (s.proc np).killed = false)
    (ht : s.procStmt c p ok rest st = some t) : AllFresh t := by
  have hrun : phase (st :: rest) ≠ .leaving → (s.proc p).state = .RUNNING := fun hph =>
    hi.threads.running hp (hto ▸ hph)
  cases st with
  | acquire lk => exact h.goto.acquire ht
  | release lk => exact h.goto.release ht
  | setChan ch =>
    obtain rfl := Option.some.inj ht
    exact h.soft (fun _ => rfl) (fun _ => rfl) fun _ => rfl
  | setState st =>
    have hst : Left st := by
      obtain ⟨-, -, ⟨hz, -⟩ | ⟨hr | hr, -⟩⟩ := hto ▸ hi.threads.wf p
      · exact Or.inr (Or.inr hz)
      · exact Or.inl hr
      · exact Or.inr (Or.inl hr)
    have hset : AllFresh (s.modify p fun r => { r with state := st, todo := rest }) := by
      refine h.modify (.live ?_ ?_)
      · rcases hst with rfl | rfl | rfl <;> simp
      · rcases hst with rfl | rfl | rfl <;> simp
    obtain rfl := Option.some.inj ht
    split
    · exact hset
    · exact hset
  | swtch =>
    obtain ⟨-, ht⟩ := Option.ite_none_right_eq_some.mp ht
    obtain rfl := Option.some.inj ht
    exact h.goto
  | clearChan =>
    obtain rfl := Option.some.inj ht
    exact h.soft (fun _ => rfl) (fun _ => rfl) fun _ => rfl
  | wakeup1 ch =>
    obtain rfl := Option.some.inj ht
    exact AllFresh.goto (s := { s with proc := wakeTable ch s.proc }) fun q =>
      fresh_wakeTable (h q)
  | kill pid =>
    obtain rfl := Option.some.inj ht
    exact AllFresh.soft (s := { s with proc := mark pid (killTable s.proc pid).2 })
      (fun q => fresh_kill (hlive pid rfl) (h q)) (fun _ => rfl) (fun _ => rfl) fun _ => rfl
  | fault =>
    obtain rfl := Option.some.inj ht
    have hr := hrun (by simp [phase])
    exact h.modify (.live (by simp [hr]) (by simp [hr]))
  | wakeParent =>
    simp only [Sys.procStmt] at ht
    split at ht
    · rename_i q _
      obtain rfl := Option.some.inj ht
      exact AllFresh.goto (s := { s with proc := wakeTable (.proc q) s.proc }) fun q =>
        fresh_wakeTable (h q)
    · obtain rfl := Option.some.inj ht
      exact h.goto
  | abandon =>
    obtain rfl := Option.some.inj ht
    exact AllFresh.goto (s := { s with proc := abandonTable p s.proc }) fun q =>
      fresh_abandonTable (h q)
  | waitLoop => exact fresh_waitLoop h ht
  | allocproc => exact fresh_allocproc h ht
  | kstack np =>
    simp only [Sys.procStmt] at ht
    split at ht
    · obtain rfl := Option.some.inj ht
      refine AllFresh.goto ?_
      exact h.soft (fun _ => rfl) (fun _ => rfl) fun _ => rfl
    · obtain rfl := Option.some.inj ht
      exact h.goto
  | unalloc np =>
    obtain rfl := Option.some.inj ht
    have hgive : AllFresh (s.modify np fun r => { r with state := .UNUSED }) :=
      h.modify ⟨fun _ => hfail np rfl, fun he => absurd he (by simp)⟩
    exact hgive.soft (fun _ => rfl) (fun _ => rfl) fun _ => rfl
  | copyuvm np =>
    obtain rfl := Option.some.inj ht
    exact h.goto
  | inherit np =>
    obtain rfl := Option.some.inj ht
    refine AllFresh.goto ?_
    exact h.soft (fun _ => rfl) (fun _ => rfl) fun _ => rfl
  | runnable np =>
    obtain rfl := Option.some.inj ht
    have hset : AllFresh (s.modify np fun r => { r with state := .RUNNABLE }) :=
      h.modify (.live (by simp) (by simp))
    exact AllFresh.soft (s := (s.modify np fun r => { r with state := .RUNNABLE }).note
      (.forked (s.proc np).num)) hset (fun _ => rfl) (fun _ => rfl) fun _ => rfl
  | scan | back => exact absurd ht (by simp [Sys.procStmt])

theorem fresh_schedStmt {st : Stmt} {rest : List Stmt} (h : AllFresh s)
    (ht : s.schedStmt c rest st = some t) : AllFresh t := by
  cases st with
  | acquire lk => exact h.goto.acquire ht
  | release lk => exact h.goto.release ht
  | wakeup1 ch =>
    obtain rfl := Option.some.inj ht
    exact AllFresh.goto (s := { s with proc := wakeTable ch s.proc }) fun q =>
      fresh_wakeTable (h q)
  | scan i =>
    simp only [Sys.schedStmt] at ht
    split at ht
    · split at ht
      · obtain rfl := Option.some.inj ht
        exact h.modify (f := fun r => { r with state := .RUNNING }) (.live (by simp) (by simp))
      · obtain rfl := Option.some.inj ht
        exact h.goto
    · obtain rfl := Option.some.inj ht
      exact h.goto
  | back p =>
    obtain rfl := Option.some.inj ht
    exact h
  | setChan | setState | swtch | clearChan | kill | fault | wakeParent | abandon | waitLoop
  | allocproc | kstack | unalloc | copyuvm | inherit | runnable =>
    exact absurd ht (by simp [Sys.schedStmt])

theorem fresh_step {a : Act κ} (hi : Inv s) (h : AllFresh s) (hlive : KillsLive s a)
    (hfail : FailsUnkilled s a) (hst : s.Step a t) : AllFresh t := by
  cases stepped hst with
  | @proc c ok p st rest hp hto ht =>
    have hstmt : s.stmt (.run c ok) = some st := by simp [Sys.stmt, hp, hto]
    refine fresh_procStmt hi h hp hto ?_ ?_ ht
    · rintro pid rfl
      exact hlive pid hstmt
    · rintro np rfl
      exact hfail np hstmt
  | sched _ _ ht => exact fresh_schedStmt h ht
  | call _ _ _ ht =>
    subst ht
    exact h.soft (fun _ => rfl) (fun _ => rfl) fun _ => rfl
  | intr _ ht => exact ht ▸ h.goto

/-! ### Runs -/

omit [DecidableEq κ] in
theorem fresh_boot : AllFresh (Sys.boot : Sys κ) := by
  intro q
  rcases eq_or_ne q initproc with rfl | hne
  · exact .live (by simp [Sys.boot]) (by simp [Sys.boot])
  · exact ⟨fun _ => by simp [Sys.boot, hne, Sys.zero], fun he => by
      simp [Sys.boot, hne, Sys.zero] at he⟩

omit [DecidableEq κ] in
/-- The process that `fork` makes `RUNNABLE` has been an `EMBRYO` until then. -/
theorem AllFresh.newborn (hi : Inv s) (h : AllFresh s) (a : Act κ) : NewbornClean s a := by
  intro np hst
  cases a with
  | run c ok =>
    obtain ⟨p, -, hto⟩ := Option.bind_eq_some_iff.mp hst
    obtain ⟨rest, hto⟩ := List.head?_eq_some_iff.mp hto
    exact (h np).embryo (hi.threads.embryo p np true (by rw [hto]; rfl)).1
  | call c f => exact absurd hst (by simp [Sys.stmt])
  | intr c i => exact absurd hst (by simp [Sys.stmt])

omit [DecidableEq κ] in
theorem AllFresh.killOk_iff (h : AllFresh s) (a : Act κ) : KillOk s a ↔ KillsLive s a :=
  forall₂_congr fun _ _ => kills_iff fun q => (h q).unused

/-- In every run in which no `fork` gives up a process that has been killed, all calls of `kill`
    meet their contract iff none finds an unused slot, and then newborn processes are not killed. -/
theorem kill_touches_live {l : List (Sys κ × Act κ)} {u : Sys κ}
    (hrun : Run Sys.Step Sys.boot l u) (hfail : Along FailsUnkilled l) :
    (Along KillOk l ↔ Along KillsLive l) ∧ (Along KillsLive l → Along NewbornClean l) := by
  have hboot : Inv (Sys.boot : Sys κ) ∧ AllFresh (Sys.boot : Sys κ) := ⟨inv_boot, fresh_boot⟩
  have hstep : ∀ (s : Sys κ) a t, (Inv s ∧ AllFresh s) → KillsLive s a → (s.Step a t ∧ FailsUnkilled s a) →
      Inv t ∧ AllFresh t := by
    rintro s a t ⟨hi, h⟩ hlive ⟨hst, hf⟩
    exact ⟨inv_step hi hst, fresh_step hi h hlive hf hst⟩
  refine ⟨(hrun.restrict hfail).along_iff hstep (fun s a h => h.2.killOk_iff a) hboot, ?_⟩
  intro hlive x hx
  have hinv := ((hrun.restrict hfail).invariant hstep hboot hlive).1 x hx
  exact hinv.2.newborn hinv.1 x.2

end

/-- Init makes a child and kills it. -/
def killsChild : List (Act Unit) :=
  runs 3 ++ [.call () .fork] ++ runs 9 ++ [.call () (.kill 2)] ++ runs 3

/-- A call of `kill` in the action finds a record that is in use. -/
def findsLive (s : Sys Unit) (a : Act Unit) : Bool :=
  match s.stmt a with
  | some (.kill pid) => (findPid s.proc pid).all fun q => (s.proc q).state ≠ .UNUSED
  | _ => true

/-- `kill_touches_live` along `killsChild`. -/
theorem kill_touches_child :
    ∃ l u, Run Sys.Step (Sys.boot : Sys Unit) l u ∧ (u.proc 1).killed = true ∧
      Along KillOk l ∧ Along NewbornClean l := by
  have hend : ((exec Sys.next Sys.boot killsChild).any fun u => (u.proc 1).killed) = true := by
    decide +kernel
  obtain ⟨u, hu, hkilled⟩ := (Option.any_eq_true _ _).mp hend
  have hlive : ((visited Sys.next Sys.boot killsChild).all fun x => findsLive x.1 x.2) = true := by
    decide +kernel
  have hfail : Along FailsUnkilled (visited Sys.next Sys.boot killsChild) := by
    unfold Along FailsUnkilled
    decide +kernel
  have h := kill_touches_live (Run.of_exec hu) hfail
  have hkills : Along KillsLive (visited Sys.next Sys.boot killsChild) := by
    intro x hx pid hst q hq
    have := List.all_eq_true.mp hlive x hx
    simpa [findsLive, hst, hq] using this
  exact ⟨_, u, Run.of_exec hu, hkilled, h.1.mpr hkills, h.2 hkills⟩

/-- Init calls `kill(0)`, and then makes a child. -/
def killsZero : List (Act Unit) :=
  runs 3 ++ [.call () (.kill 0)] ++ runs 3 ++ [.call () .fork] ++ runs 9

/-- `kill(0)` finds a slot that has never been used; the child that `fork` puts there is killed
    before it runs, with nobody having named its pid. -/
theorem kill_touches_unused :
    ∃ l u, Run Sys.Step (Sys.boot : Sys Unit) l u ∧ ¬ Along KillOk l ∧ ¬ Along NewbornClean l := by
  have hend : ((exec Sys.next Sys.boot killsZero).any fun _ => true) = true := by decide +kernel
  obtain ⟨u, hu, -⟩ := (Option.any_eq_true _ _).mp hend
  refine ⟨_, u, Run.of_exec hu, fun hok => ?_, fun hclean => ?_⟩
  · have hbad : ((visited Sys.next Sys.boot killsZero).any fun x =>
        x.1.stmt x.2 = some (.kill 0) ∧ (killTable x.1.proc 0).1 = 0 ∧
          ∀ q, (x.1.proc q).pid = 0 → (x.1.proc q).state = .UNUSED) = true := by decide +kernel
    obtain ⟨x, hx, hbad⟩ := List.any_eq_true.mp hbad
    obtain ⟨hst, hret, hunused⟩ := of_decide_eq_true hbad
    obtain ⟨q, hq, hu⟩ := (hok x hx 0 hst).found.mp hret
    exact hu (hunused q hq)
  · have hbad : ((visited Sys.next Sys.boot killsZero).any fun x =>
        x.1.stmt x.2 = some (.runnable 1) ∧ (x.1.proc 1).killed = true ∧
          (x.1.proc 1).marked = false) = true := by decide +kernel
    obtain ⟨x, hx, hbad⟩ := List.any_eq_true.mp hbad
    obtain ⟨hst, hkilled, hmarked⟩ := of_decide_eq_true hbad
    exact absurd (hclean x hx 1 hst hkilled) (by simp [hmarked])

end Xv6.Sched
