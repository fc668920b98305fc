import Xv6.Sched.Cli

/-! @src spinlock.c proc.c TRICKS | name:Interrupts come back as they were | layer:proof

    What a thread has left to execute says how far its count will go down, and where the flag is
    that it has saved: in `eflags` or `intena` on the stack, or in `intena` of its processor. While
    it is off the processor it holds exactly `ptable.lock`, with the flag on its stack. -/

namespace Xv6.Cli
open Xv6.Schemes
open Xv6.Process (ProcState)
open Xv6.Sched (Lock)

variable {κ τ : Type}

/-! ### Statements -/

/-- The next statement asks nothing of the flags but that the saved one is kept. -/
def Plain : List Stmt → Prop
  | [] | .testIf :: _ | .take _ :: _ | .tests :: _ => True
  | _ => False

/-- The statements fit a thread with the count `d` and the locks `L`. -/
def Runs : List Stmt → ℕ → Finset Lock → Prop
  | [], _, _ => True
  | .readeflags :: rest, d, L => (∃ l, rest = .cli :: l) ∧ Runs rest d L
  | .cli :: rest, d, L => (∃ l, rest = .saveIntena :: l) ∧ Runs rest d L
  | .saveIntena :: rest, d, L => (∃ l, rest = .incNcli :: l) ∧ Runs rest d L
  | .incNcli :: rest, d, L => Plain rest ∧ Runs rest (d + 1) L
  | .testIf :: rest, d, L => L.card < d ∧ (∃ l, rest = .decNcli :: l) ∧ Runs rest d L
  | .decNcli :: rest, d, L => L.card < d ∧ (∃ l, rest = .sti :: l) ∧ Runs rest (d - 1) L
  | .sti :: rest, d, L => Plain rest ∧ Runs rest d L
  | .take lk :: rest, d, L => L.card < d ∧ lk ∉ L ∧ rest = []
  | .drop lk :: rest, d, L => L.card ≤ d ∧ lk ∈ L ∧ rest = popcli
  | .setState st :: rest, d, L => (st = .RUNNABLE ∨ st = .SLEEPING ∨ st = .ZOMBIE) ∧
      rest = myproc ++ [.tests, .getIntena, .swtch, .setIntena] ∧ d = 1 ∧ L = {.ptable}
  | .tests :: rest, d, L => rest = [.getIntena, .swtch, .setIntena] ∧ d = 1 ∧ L = {.ptable}
  | .getIntena :: rest, d, L => rest = [.swtch, .setIntena] ∧ d = 1 ∧ L = {.ptable}
  | .swtch :: rest, d, L => rest = [.setIntena] ∧ d = 1 ∧ L = {.ptable}
  | .setIntena :: rest, d, L => rest = [] ∧ d = 1 ∧ L = {.ptable}
  | .panic :: _, _, _ => False

/-- The processor has kept the flag `o` of a thread that has disabled interrupts. -/
def Keeps (d : ℕ) (i : Bool) (o : Option Bool) : Prop := 0 < d → ∀ b, o = some b → i = b

/-- Where the flags are before the next statement, with the flag `fl` and the `intena` `i` of the
    processor, if `o` is the flag to come back. -/
def At (f : Frame) (d : ℕ) (fl i : Bool) (o : Option Bool) : Prop :=
  match f.code with
  | .readeflags :: _ => (d = 0 → f.entry = fl) ∧ Keeps d i o
  | .cli :: _ => (d = 0 → f.entry = fl ∧ f.eflags = fl) ∧ Keeps d i o
  | .saveIntena :: _ => fl = false ∧ (d = 0 → f.eflags = f.entry) ∧ Keeps d i o
  | .incNcli :: _ => fl = false ∧ (d = 0 → i = f.entry) ∧ Keeps d i o
  | .sti :: _ => fl = false ∧ ∀ b, o = some b → i = b
  | .swtch :: _ => f.intena = i ∧ Keeps d i o
  | .setIntena :: _ => ∀ b, o = some b → f.intena = b
  | _ => Keeps d i o

/-- The thread is on its way to `swtch`, and no longer `RUNNING`. -/
def Leaving (l : List Stmt) : Prop := .swtch ∈ l ∧ ∀ st, .setState st ∉ l

/-- The state of a process on a processor, with these statements to execute. -/
structure Fits (st : ProcState) (l : List Stmt) : Prop where
  leaving : Leaving l → st = .RUNNABLE ∨ st = .SLEEPING ∨ st = .ZOMBIE
  running : ¬ Leaving l → st = .RUNNING

/-- The count and the locks after the statements. -/
def final : List Stmt → ℕ → Finset Lock → ℕ × Finset Lock
  | [], d, L => (d, L)
  | .incNcli :: rest, d, L => final rest (d + 1) L
  | .decNcli :: rest, d, L => final rest (d - 1) L
  | .take lk :: rest, d, L => final rest d (insert lk L)
  | .drop lk :: rest, d, L => final rest d (L.erase lk)
  | _ :: rest, d, L => final rest d L

theorem plain_at {f : Frame} {d : ℕ} {fl i : Bool} {o : Option Bool} (hp : Plain f.code)
    (h : Keeps d i o) : At f d fl i o := by
  unfold At
  cases hc : f.code with
  | nil => exact h
  | cons st rest =>
    rw [hc] at hp
    cases st <;> first | exact h | exact hp.elim

/-- `sched`, with `ptable.lock` alone. -/
theorem runs_sched : Runs (myproc ++ [.tests, .getIntena, .swtch, .setIntena]) 1 {.ptable} := by
  simp [Runs, Plain, myproc, pushcli, popcli]

/-- Only with `ptable.lock` alone does a thread get to `swtch`. -/
theorem Runs.locks {l : List Stmt} {d : ℕ} {L : Finset Lock} (h : Runs l d L) (hs : .swtch ∈ l) :
    L = {.ptable} := by
  induction l generalizing d with
  | nil => simp at hs
  | cons st rest ih =>
    have hin : st ≠ .swtch → .swtch ∈ rest := fun hne =>
      (List.mem_cons.mp hs).resolve_left (Ne.symm hne)
    cases st with
    | readeflags | cli | saveIntena | incNcli | sti => exact ih h.2 (hin (by simp))
    | testIf | decNcli => exact ih h.2.2 (hin (by simp))
    | take => simp [h.2.2] at hs
    | drop => simp [h.2.2, popcli] at hs
    | setState => exact h.2.2.2
    | tests | getIntena | swtch | setIntena => exact h.2.2
    | panic => exact h.elim

theorem Runs.no_panic {l : List Stmt} {d : ℕ} {L : Finset Lock} (h : Runs l d L) : .panic ∉ l := by
  induction l generalizing d with
  | nil => simp
  | cons st rest ih =>
    cases st with
    | readeflags | cli | saveIntena | incNcli | sti => simp [ih h.2]
    | testIf | decNcli => simp [ih h.2.2]
    | take | drop => simp [h.2.2, popcli]
    | setState => simp [h.2.1, myproc, pushcli, popcli]
    | tests | getIntena | swtch | setIntena => simp [h.1]
    | panic => exact h.elim

/-! ### Threads -/

/-- A function that has been interrupted can go on with interrupts enabled. -/
def Suspended (f : Frame) : Prop := Runs f.code 0 ∅ ∧ ∀ i o, At f 0 true i o

structure Tidy (r : Thread) : Prop where
  bound : r.locks.card ≤ r.depth
  frames : ∀ f ∈ r.frames, Suspended f

/-- The flag that the last `popcli` of a thread has to bring back, of a process that has come out
    of `forkret`. -/
def Thread.promise (r : Thread) : τ ⊕ κ → Option Bool
  | .inl _ => if r.started then some r.outer else none
  | .inr _ => none

/-- The count and the locks with which a scheduler comes back to its loop. -/
def Thread.ends (r : Thread) : ℕ × Finset Lock :=
  match r.frames.getLast? with
  | some f => final f.code 0 ∅
  | none => final r.now.code r.depth r.locks

/-- Only the function that was interrupted first counts. -/
theorem Thread.ends_eq {r q : Thread} (h : q.frames.getLast? = r.frames.getLast?)
    (hr : r.frames ≠ []) : q.ends = r.ends := by
  obtain ⟨f, hf⟩ := Option.ne_none_iff_exists'.mp fun he => hr (List.getLast?_eq_none_iff.mp he)
  simp [Thread.ends, h, hf]

/-- The count and the locks of a scheduler in its loop. -/
def Loop.wants : Loop τ → ℕ × Finset Lock
  | .enable | .lock => (0, ∅)
  | .scan | .run _ => (1, {.ptable})
  | .map _ => (2, {.ptable})

/-- The process for which the scheduler prepares the processor. -/
def Loop.picked : Loop τ → Option τ
  | .map p | .run p => some p
  | _ => none

/-- A thread that has been switched from, or a new one. -/
def Waits (r : Thread) : Prop :=
  r.depth = 1 ∧ r.locks = {.ptable} ∧
    (r.now.code = [.setIntena] ∧ (r.started = true → r.now.intena = r.outer) ∨
      r.now.code = release .ptable ∧ r.started = false)

/-- A processor and the thread that it executes. -/
structure Runner (k : Cpu τ) (x : τ ⊕ κ) (r : Thread) : Prop where
  count : k.ncli = r.depth
  off : 0 < r.depth → k.eflags = false
  runs : Runs r.now.code r.depth r.locks
  here : At r.now r.depth k.eflags k.intena (r.promise x)
  tidy : Tidy r

/-- A scheduler that has picked a process. -/
structure Picked (st : ProcState) (r : Thread) : Prop where
  state : st = .RUNNABLE
  lock : .ptable ∈ r.locks
  frames : r.frames = []
  code : ∀ x ∈ r.now.code, x ∈ myproc

/-- A processor, with its scheduler and the process that it executes. -/
structure Sound (s : Sys κ τ) (c : κ) : Prop where
  runner : Runner (s.cpu c) (s.who c) (s.current c)
  owns : ∀ lk, s.lock lk = some c ↔ lk ∈ (s.current c).locks
  state : ∀ p, (s.cpu c).thread = some p → Fits (s.state p) (s.current c).now.code
  idle : ∀ p, (s.cpu c).thread = some p → (s.thread (.inr c)).now.code = [] ∧
    (s.thread (.inr c)).frames = [] ∧ (s.cpu c).loop = .scan
  ends : (s.thread (.inr c)).ends = (s.cpu c).loop.wants
  picked : ∀ p, (s.cpu c).loop.picked = some p → Picked (s.state p) (s.thread (.inr c))

/-- What holds in every reachable state. -/
structure Good (s : Sys κ τ) : Prop where
  sound : ∀ c, Sound s c
  tidy : ∀ x, Tidy (s.thread x)
  inj : ∀ c d p, (s.cpu c).thread = some p → (s.cpu d).thread = some p → c = d
  waits : ∀ p, (∀ c, (s.cpu c).thread ≠ some p) →
    s.state p = .RUNNABLE ∨ s.state p = .SLEEPING → Waits (s.thread (.inl p))

section

variable {s t : Sys κ τ} {c d : κ} {p : τ} {x : τ ⊕ κ}

theorem who_some (h : (s.cpu c).thread = some p) : s.who c = .inl p := by
  simp [Sys.who, h]

theorem who_none (h : (s.cpu c).thread = none) : s.who c = .inr c := by
  simp [Sys.who, h]

/-- A process is not a scheduler. -/
theorem who_ne (h : (s.cpu c).thread ≠ some p) : s.who c ≠ .inl p := by
  cases hc : (s.cpu c).thread with
  | some q =>
    rw [who_some hc]
    rintro hq
    exact h (hc.trans (congrArg some (Sum.inl.inj hq)))
  | none =>
    rw [who_none hc]
    simp

/-- Nothing has changed for the processor. -/
theorem Sound.frame (h : Sound s d) (hcpu : t.cpu d = s.cpu d)
    (hmine : t.thread (s.who d) = s.thread (s.who d))
    (hsched : t.thread (.inr d) = s.thread (.inr d))
    (hlock : ∀ lk, t.lock lk = some d ↔ s.lock lk = some d)
    (hstate : ∀ q, (s.cpu d).thread = some q ∨ (s.cpu d).loop.picked = some q →
      t.state q = s.state q) : Sound t d := by
  have hwho : t.who d = s.who d := by
    unfold Sys.who
    rw [hcpu]
  have hcur : t.current d = s.current d := by
    rw [Sys.current, hwho, hmine]
    rfl
  constructor
  · rw [hcpu, hwho, hcur]
    exact h.runner
  · intro lk
    rw [hcur]
    exact (hlock lk).trans (h.owns lk)
  · intro q hq
    rw [hcpu] at hq
    rw [hcur, hstate q (Or.inl hq)]
    exact h.state q hq
  · intro q hq
    rw [hcpu] at hq
    rw [hsched, hcpu]
    exact h.idle q hq
  · rw [hsched, hcpu]
    exact h.ends
  · intro q hq
    rw [hcpu] at hq
    rw [hsched, hstate q (Or.inr hq)]
    exact h.picked q hq

/-- Every processor has a thread of its own. -/
theorem Good.who_inj (h : Good s) (hw : s.who c = s.who d) : c = d := by
  cases hc : (s.cpu c).thread with
  | some p =>
    cases hd : (s.cpu d).thread with
    | some q =>
      rw [who_some hc, who_some hd] at hw
      obtain rfl := Sum.inl.inj hw
      exact h.inj c d p hc hd
    | none =>
      rw [who_some hc, who_none hd] at hw
      exact absurd hw (by simp)
  | none =>
    cases hd : (s.cpu d).thread with
    | some q =>
      rw [who_none hc, who_some hd] at hw
      exact absurd hw (by simp)
    | none =>
      rw [who_none hc, who_none hd] at hw
      exact Sum.inr.inj hw

/-- A processor that has picked a process executes its scheduler. -/
theorem Good.scheduling (h : Good s) (hp : (s.cpu c).loop.picked = some p) :
    (s.cpu c).thread = none := by
  cases hc : (s.cpu c).thread with
  | none => rfl
  | some q =>
    rw [((h.sound c).idle q hc).2.2] at hp
    exact absurd hp (by simp [Loop.picked])

variable [DecidableEq κ] [DecidableEq τ] {f : Cpu τ → Cpu τ} {g : Thread → Thread}
  {L : Lock → Option κ} {S : τ → ProcState}

/-- What a processor may do, without a switch. -/
structure Moves (s : Sys κ τ) (c : κ) (k : Cpu τ) (r : Thread) (L : Lock → Option κ)
    (S : τ → ProcState) : Prop where
  thread : k.thread = (s.cpu c).thread
  runner : Runner k (s.who c) r
  owns : ∀ lk, L lk = some c ↔ lk ∈ r.locks
  others : ∀ lk d, d ≠ c → (L lk = some d ↔ s.lock lk = some d)
  fits : ∀ p, (s.cpu c).thread = some p → Fits (S p) r.now.code
  state : ∀ q, (s.cpu c).thread ≠ some q ∨ (∃ d, (s.cpu d).loop.picked = some q) → S q = s.state q
  loop : (s.cpu c).thread ≠ none → k.loop = (s.cpu c).loop
  ends : (s.cpu c).thread = none → r.ends = k.loop.wants
  picked : (s.cpu c).thread = none → ∀ p, k.loop.picked = some p → Picked (s.state p) r

theorem Good.on (h : Good s) (hm : Moves s c (f (s.cpu c)) (g (s.current c)) L S) :
    Good { s.on c f g with lock := L, state := S } := by
  set t : Sys κ τ := { s.on c f g with lock := L, state := S } with ht
  have hself : t.cpu c = f (s.cpu c) := by simp [ht, Sys.on]
  have hcpu : ∀ d, d ≠ c → t.cpu d = s.cpu d := fun d hd => by simp [ht, Sys.on, hd]
  have hthread : ∀ d, (t.cpu d).thread = (s.cpu d).thread := fun d => by
    rcases eq_or_ne d c with rfl | hd
    · rw [hself, hm.thread]
    · rw [hcpu d hd]
  have hwho : t.who c = s.who c := by
    unfold Sys.who
    rw [hthread]
  have hmine : t.thread (s.who c) = g (s.current c) := by simp [ht, Sys.on_thread]
  have hother : ∀ x, x ≠ s.who c → t.thread x = s.thread x := fun x hx => by
    simp [ht, Sys.on_thread, hx]
  have hcur : t.current c = g (s.current c) := by rw [Sys.current, hwho, hmine]
  refine ⟨fun d => ?_, fun x => ?_, fun d e q hd he => ?_, fun q hq hst => ?_⟩
  · rcases eq_or_ne d c with rfl | hd
    · constructor
      · rw [hself, hwho, hcur]
        exact hm.runner
      · rw [hcur]
        exact hm.owns
      · intro q hq
        rw [hcur]
        exact hm.fits q (hthread d ▸ hq)
      · intro q hq
        rw [hthread] at hq
        rw [hother _ (by simp [who_some hq]), hself, hm.loop (by simp [hq])]
        exact (h.sound d).idle q hq
      · cases hc : (s.cpu d).thread with
        | some q =>
          rw [hother _ (by simp [who_some hc]), hself, hm.loop (by simp [hc])]
          exact (h.sound d).ends
        | none =>
          rw [← who_none hc, hmine, hself]
          exact hm.ends hc
      · intro q hq
        cases hc : (s.cpu d).thread with
        | some r =>
          rw [hself, hm.loop (by simp [hc]), ((h.sound d).idle r hc).2.2] at hq
          exact absurd hq (by simp [Loop.picked])
        | none =>
          rw [hself] at hq
          have hsame : t.state q = s.state q := hm.state q (Or.inl (by simp [hc]))
          rw [← who_none hc, hmine, hsame]
          exact hm.picked hc q hq
    · refine (h.sound d).frame (hcpu d hd) (hother _ fun hw => hd (h.who_inj hw))
        (hother _ fun hw => ?_) (fun lk => hm.others lk d hd) fun q hq => hm.state q ?_
      · -- a scheduler is executed by its own processor
        cases hc : (s.cpu c).thread with
        | some p => exact absurd (hw.trans (who_some hc)) (by simp)
        | none => exact hd (Sum.inr.inj (hw.trans (who_none hc)))
      · exact hq.imp (fun hq hc => hd (h.inj d c q hq hc)) fun hq => ⟨d, hq⟩
  · rcases eq_or_ne x (s.who c) with rfl | hx
    · rw [hmine]
      exact hm.runner.tidy
    · rw [hother x hx]
      exact h.tidy x
  · rw [hthread] at hd he
    exact h.inj d e q hd he
  · have hq' : ∀ d, (s.cpu d).thread ≠ some q := fun d => hthread d ▸ hq d
    have hsame : t.state q = s.state q := hm.state q (Or.inl (hq' c))
    rw [hother (.inl q) (who_ne (hq' c)).symm]
    exact h.waits q hq' (hsame ▸ hst)

/-- The same, when neither locks nor states change. -/
theorem Good.goes (h : Good s) (hm : Moves s c (f (s.cpu c)) (g (s.current c)) s.lock s.state) :
    Good (s.on c f g) :=
  h.on hm

/-! ### Statements of a thread -/

variable {st : Stmt} {rest : List Stmt} {k : Cpu τ} {r : Thread}

omit [DecidableEq κ] [DecidableEq τ] in
theorem current_sched (h : (s.cpu c).thread = none) : s.current c = s.thread (.inr c) := by
  rw [Sys.current, who_none h]

omit [DecidableEq κ] [DecidableEq τ] in
/-- A statement that is no step towards `swtch`. -/
theorem Moves.stmt (h : Good s) (hcode : (s.current c).now.code = st :: rest)
    (hthread : k.thread = (s.cpu c).thread) (hloop : k.loop = (s.cpu c).loop)
    (hrest : r.now.code = rest) (hframes : r.frames = (s.current c).frames)
    (hswtch : st ≠ .swtch) (hset : ∀ x, st ≠ .setState x)
    (hfinal : final rest r.depth r.locks =
      final (st :: rest) (s.current c).depth (s.current c).locks)
    (hlocks : st ∈ myproc → r.locks = (s.current c).locks) (hrunner : Runner k (s.who c) r)
    (howns : ∀ lk, L lk = some c ↔ lk ∈ r.locks)
    (hothers : ∀ lk d, d ≠ c → (L lk = some d ↔ s.lock lk = some d)) :
    Moves s c k r L s.state where
  thread := hthread
  runner := hrunner
  owns := howns
  others := hothers
  fits := fun p hp => by
    have hleaving : Leaving r.now.code ↔ Leaving (s.current c).now.code := by
      simp [Leaving, hrest, hcode, hswtch.symm, fun x => (hset x).symm]
    obtain ⟨hl, hr⟩ := (h.sound c).state p hp
    exact ⟨fun hlv => hl (hleaving.mp hlv), fun hlv => hr fun h' => hlv (hleaving.mpr h')⟩
  state := fun _ _ => rfl
  loop := fun _ => hloop
  ends := fun hnone => by
    rw [hloop, ← (h.sound c).ends, ← current_sched hnone]
    unfold Thread.ends
    rw [hframes, hrest, hcode, hfinal]
  picked := fun hnone p hp => by
    rw [hloop] at hp
    obtain ⟨hst, hlock, hfr, hin⟩ := (h.sound c).picked p hp
    rw [← current_sched hnone] at hlock hfr hin
    rw [hcode] at hin
    refine ⟨hst, ?_, hframes.trans hfr, fun x hx => hin x (List.mem_cons_of_mem _ (hrest ▸ hx))⟩
    rwa [hlocks (hin st List.mem_cons_self)]

/-- A statement that leaves the locks alone. -/
theorem Good.stmt (h : Good s) (hcode : (s.current c).now.code = st :: rest)
    (hthread : ∀ k, (f k).thread = k.thread ∧ (f k).loop = k.loop)
    (hrest : ∀ r, (g r).now.code = rest ∧ (g r).frames = r.frames ∧ (g r).locks = r.locks)
    (hswtch : st ≠ .swtch) (hset : ∀ x, st ≠ .setState x)
    (hfinal : final rest (g (s.current c)).depth (s.current c).locks =
      final (st :: rest) (s.current c).depth (s.current c).locks)
    (hrunner : Runner (f (s.cpu c)) (s.who c) (g (s.current c))) : Good (s.on c f g) := by
  obtain ⟨hcode', hframes, hlocks⟩ := hrest (s.current c)
  refine h.goes (.stmt h hcode (hthread _).1 (hthread _).2 hcode' hframes hswtch hset
    (hlocks.symm ▸ hfinal) (fun _ => hlocks) hrunner (fun lk => ?_) fun _ _ _ => Iff.rfl)
  rw [hlocks]
  exact (h.sound c).owns lk

/-- The statements of `pushcli`. -/
theorem good_pushcli (h : Good s) (hcode : (s.current c).now.code = st :: rest)
    (hst : st ∈ pushcli) (ht : s.stmt c rest st = some t) : Good t := by
  obtain ⟨hcount, hoff, hruns, hhere, hbound, hframes⟩ := (h.sound c).runner
  unfold At at hhere
  rw [hcode] at hruns hhere
  simp only [pushcli, List.mem_cons, List.not_mem_nil, or_false] at hst
  rcases hst with rfl | rfl | rfl | rfl
  · obtain rfl := Option.some.inj ht
    obtain ⟨⟨l, rfl⟩, hruns⟩ := hruns
    refine h.stmt hcode (fun _ => ⟨rfl, rfl⟩) (fun _ => ⟨rfl, rfl, rfl⟩) (by simp) (by simp) rfl
      ⟨hcount, hoff, hruns, ⟨fun hd => ⟨hhere.1 hd, rfl⟩, hhere.2⟩, hbound, hframes⟩
  · obtain rfl := Option.some.inj ht
    obtain ⟨⟨l, rfl⟩, hruns⟩ := hruns
    refine h.stmt hcode (fun _ => ⟨rfl, rfl⟩) (fun _ => ⟨rfl, rfl, rfl⟩) (by simp) (by simp) rfl
      ⟨hcount, fun _ => rfl, hruns, ⟨rfl, fun hd => ?_, hhere.2⟩, hbound, hframes⟩
    exact (hhere.1 hd).2.trans (hhere.1 hd).1.symm
  · obtain rfl := Option.some.inj ht
    obtain ⟨⟨l, rfl⟩, hruns⟩ := hruns
    obtain ⟨hfl, heflags, hkeeps⟩ := hhere
    refine h.stmt hcode (fun _ => ⟨rfl, rfl⟩) (fun _ => ⟨rfl, rfl, rfl⟩) (by simp) (by simp) rfl
      ⟨hcount, hoff, hruns, ⟨hfl, fun hd => ?_, fun hd b hb => ?_⟩, hbound, hframes⟩
    · change (if _ then _ else _) = _
      rw [if_pos (by rw [hcount]; exact_mod_cast hd)]
      exact heflags hd
    · change (if _ then _ else _) = _
      rw [if_neg (by rw [hcount]; exact_mod_cast hd.ne')]
      exact hkeeps hd b hb
  · obtain rfl := Option.some.inj ht
    obtain ⟨hplain, hruns⟩ := hruns
    obtain ⟨hfl, hentry, hkeeps⟩ := hhere
    refine h.stmt hcode (fun _ => ⟨rfl, rfl⟩) (fun _ => ⟨rfl, rfl, rfl⟩) (by simp) (by simp) rfl
      ⟨?_, fun _ => hfl, hruns, plain_at hplain fun _ b hb => ?_, Nat.le_succ_of_le hbound, hframes⟩
    · change _ + 1 = ((_ + 1 : ℕ) : ℤ)
      rw [hcount]
      rfl
    · -- the flag that was read is the one to come back
      cases hw : s.who c with
      | inr d => rw [hw] at hb; exact absurd hb (by simp [Thread.promise])
      | inl p =>
        rw [hw] at hb hkeeps
        rcases Nat.eq_zero_or_pos (s.current c).depth with hd | hd
        · simp only [Thread.promise, Thread.goto, hd, if_true] at hb
          split at hb
          · exact (hentry hd).trans (Option.some.inj hb)
          · exact absurd hb (by simp)
        · refine hkeeps hd b ?_
          simpa [Thread.promise, Thread.goto, hd.ne'] using hb

/-- The statements of `popcli`. -/
theorem good_popcli (h : Good s) (hcode : (s.current c).now.code = st :: rest)
    (hst : st ∈ popcli) (ht : s.stmt c rest st = some t) : Good t := by
  obtain ⟨hcount, hoff, hruns, hhere, hbound, hframes⟩ := (h.sound c).runner
  unfold At at hhere
  rw [hcode] at hruns hhere
  simp only [popcli, List.mem_cons, List.not_mem_nil, or_false] at hst
  rcases hst with rfl | rfl | rfl
  · obtain ⟨hcard, ⟨l, rfl⟩, hruns⟩ := hruns
    have hfl := hoff (by omega)
    simp only [Sys.stmt, hfl, Bool.false_eq_true, if_false] at ht
    obtain rfl := Option.some.inj ht
    exact h.stmt hcode (fun _ => ⟨rfl, rfl⟩) (fun _ => ⟨rfl, rfl, rfl⟩) (by simp) (by simp) rfl
      ⟨hcount, hoff, hruns, hhere, hbound, hframes⟩
  · obtain ⟨hcard, ⟨l, rfl⟩, hruns⟩ := hruns
    have hpos : 0 < (s.current c).depth := by omega
    have hstays : ¬ (s.cpu c).ncli - 1 < 0 := by omega
    simp only [Sys.stmt, hstays, if_false] at ht
    obtain rfl := Option.some.inj ht
    refine h.stmt hcode (fun _ => ⟨rfl, rfl⟩) (fun _ => ⟨rfl, rfl, rfl⟩) (by simp) (by simp) rfl
      ⟨?_, fun _ => hoff hpos, hruns, ⟨hoff hpos, hhere hpos⟩, Nat.le_sub_one_of_lt hcard, hframes⟩
    change _ - 1 = ((_ - 1 : ℕ) : ℤ)
    omega
  · obtain rfl := Option.some.inj ht
    obtain ⟨hplain, hruns⟩ := hruns
    obtain ⟨hfl, hkeeps⟩ := hhere
    refine h.stmt hcode (fun _ => ⟨rfl, rfl⟩) (fun _ => ⟨rfl, rfl, rfl⟩) (by simp) (by simp) rfl
      ⟨hcount, fun hd => ?_, hruns, plain_at hplain fun hd b hb => ?_, hbound, hframes⟩
    · have hd : 0 < (s.current c).depth := hd
      have hne : (s.cpu c).ncli ≠ 0 := by omega
      simp [hfl, hne]
    · have hd : (s.current c).depth ≠ 0 := Nat.pos_iff_ne_zero.mp hd
      refine hkeeps b ?_
      cases hw : s.who c with
      | inr d => rw [hw] at hb; exact absurd hb (by simp [Thread.promise])
      | inl p =>
        rw [hw] at hb
        simpa [Thread.promise, Thread.goto, hd] using hb

/-- `acquire` gets the lock, and `release` gives it up. -/
theorem good_lock {lk : Lock} (h : Good s) (hcode : (s.current c).now.code = st :: rest)
    (hst : st = .take lk ∨ st = .drop lk) (ht : s.stmt c rest st = some t) : Good t := by
  obtain ⟨hcount, hoff, hruns, hhere, hbound, hframes⟩ := (h.sound c).runner
  unfold At at hhere
  rw [hcode] at hruns hhere
  rcases hst with rfl | rfl
  · obtain ⟨hcard, hnew, rfl⟩ := hruns
    have hfree : s.lock lk ≠ some c := fun hl => hnew (((h.sound c).owns lk).mp hl)
    simp only [Sys.stmt, hfree, if_false] at ht
    obtain ⟨hnone, ht⟩ := Option.ite_none_right_eq_some.mp ht
    obtain rfl := Option.some.inj ht
    refine h.on (L := Function.update s.lock lk (some c)) (S := s.state) (.stmt h hcode rfl rfl rfl rfl (by simp)
      (by simp) rfl (by simp [myproc, pushcli, popcli]) ⟨hcount, hoff, trivial, hhere, ?_, hframes⟩
      (fun lk' => ?_) fun lk' d hd => ?_)
    · change (insert lk (s.current c).locks).card ≤ _
      rw [Finset.card_insert_of_notMem hnew]
      exact hcard
    · rcases eq_or_ne lk' lk with rfl | hne
      · simp
      · simp [hne, (h.sound c).owns lk']
    · rcases eq_or_ne lk' lk with rfl | hne
      · simp [hnone, hd.symm]
      · simp [hne]
  · obtain ⟨-, hmem, rfl⟩ := hruns
    have hmine := ((h.sound c).owns lk).mpr hmem
    have hpos : 0 < (s.current c).locks.card := Finset.card_pos.mpr ⟨lk, hmem⟩
    have hcard : ((s.current c).locks.erase lk).card < (s.current c).depth := by
      rw [Finset.card_erase_of_mem hmem]
      omega
    simp only [Sys.stmt, hmine, if_true] at ht
    obtain rfl := Option.some.inj ht
    refine h.on (L := Function.update s.lock lk none) (S := s.state) (.stmt h hcode rfl rfl rfl rfl (by simp)
      (by simp) rfl (by simp [myproc, pushcli, popcli])
      ⟨hcount, hoff, ⟨hcard, ⟨_, rfl⟩, hcard, ⟨_, rfl⟩, trivial, trivial⟩, hhere, hcard.le, hframes⟩
      (fun lk' => ?_) fun lk' d hd => ?_)
    · rcases eq_or_ne lk' lk with rfl | hne
      · simp
      · simp [hne, (h.sound c).owns lk']
    · rcases eq_or_ne lk' lk with rfl | hne
      · simp [hmine, hd.symm]
      · simp [hne]

/-- The statements of `sched` around its `swtch`. -/
theorem good_sched (h : Good s) (hcode : (s.current c).now.code = st :: rest)
    (hst : st = .tests ∨ st = .getIntena ∨ st = .setIntena) (ht : s.stmt c rest st = some t) :
    Good t := by
  obtain ⟨hcount, hoff, hruns, hhere, hbound, hframes⟩ := (h.sound c).runner
  unfold At at hhere
  rw [hcode] at hruns hhere
  rcases hst with rfl | rfl | rfl
  · obtain ⟨rfl, hd, hL⟩ := hruns
    obtain ⟨p, hp, rfl⟩ := Option.map_eq_some_iff.mp ht
    have hstate : s.state p ≠ .RUNNING := by
      rcases ((h.sound c).state p hp).leaving ⟨by simp [hcode], by simp [hcode]⟩ with he | he | he <;>
        simp [he]
    have hpass : s.lock .ptable = some c ∧ (s.cpu c).ncli = 1 ∧ s.state p ≠ .RUNNING ∧
        (s.cpu c).eflags = false :=
      ⟨((h.sound c).owns _).mpr (by simp [hL]), by simp [hcount, hd], hstate, hoff (by omega)⟩
    rw [if_pos hpass]
    exact h.stmt hcode (fun _ => ⟨rfl, rfl⟩) (fun _ => ⟨rfl, rfl, rfl⟩) (by simp) (by simp) rfl
      ⟨hcount, hoff, ⟨rfl, hd, hL⟩, hhere, hbound, hframes⟩
  · obtain ⟨rfl, hd, hL⟩ := hruns
    obtain rfl := Option.some.inj ht
    exact h.stmt hcode (fun _ => ⟨rfl, rfl⟩) (fun _ => ⟨rfl, rfl, rfl⟩) (by simp) (by simp) rfl
      ⟨hcount, hoff, ⟨rfl, hd, hL⟩, ⟨rfl, hhere⟩, hbound, hframes⟩
  · obtain ⟨rfl, hd, hL⟩ := hruns
    obtain rfl := Option.some.inj ht
    exact h.stmt hcode (fun _ => ⟨rfl, rfl⟩) (fun _ => ⟨rfl, rfl, rfl⟩) (by simp) (by simp) rfl
      ⟨hcount, hoff, trivial, fun _ => hhere, hbound, hframes⟩

theorem good_setState {x : ProcState} (h : Good s)
    (hcode : (s.current c).now.code = .setState x :: rest)
    (ht : s.stmt c rest (.setState x) = some t) : Good t := by
  obtain ⟨hcount, hoff, hruns, hhere, hbound, hframes⟩ := (h.sound c).runner
  unfold At at hhere
  rw [hcode] at hruns hhere
  obtain ⟨hx, rfl, hd, hL⟩ := hruns
  obtain ⟨p, hp, rfl⟩ := Option.map_eq_some_iff.mp ht
  have hrun : s.state p = .RUNNING := ((h.sound c).state p hp).running fun hl => hl.2 x (by simp [hcode])
  refine h.on (L := s.lock) (S := Function.update s.state p x) ⟨rfl,
    ⟨hcount, hoff, ?_, ⟨fun h0 => absurd (hd.symm.trans h0) (by simp), hhere⟩, hbound, hframes⟩,
    (h.sound c).owns, fun _ _ _ => Iff.rfl, fun q hq => ?_, fun q hq => ?_, fun _ => rfl,
    fun hnone => absurd (hp.symm.trans hnone) (by simp),
    fun hnone => absurd (hp.symm.trans hnone) (by simp)⟩
  · change Runs (myproc ++ _) (s.current c).depth (s.current c).locks
    rw [hd, hL]
    exact runs_sched
  · obtain rfl := Option.some.inj (hp.symm.trans hq)
    rw [Function.update_self]
    refine ⟨fun _ => hx, fun hl => absurd ⟨?_, fun y => ?_⟩ hl⟩
    · simp [Thread.goto]
    · simp [Thread.goto, myproc, pushcli, popcli]
  · have hne : q ≠ p := by
      rintro rfl
      rcases hq with hq | ⟨d, hq⟩
      · exact hq hp
      · exact absurd (hrun.symm.trans ((h.sound d).picked q hq).state) (by simp)
    rw [Function.update_of_ne hne]

/-! ### Switches -/

omit [DecidableEq κ] [DecidableEq τ] in
/-- A process that is not `RUNNING` any more, on a processor, is there with `ptable.lock`. -/
theorem Good.leaves (h : Good s) (hp : (s.cpu c).thread = some p) (hst : s.state p ≠ .RUNNING) :
    Leaving (s.current c).now.code ∧ s.lock .ptable = some c := by
  have hl : Leaving (s.current c).now.code := by
    by_contra hn
    exact hst (((h.sound c).state p hp).running hn)
  exact ⟨hl, ((h.sound c).owns _).mpr (by simp [(h.sound c).runner.runs.locks hl.1])⟩

omit [DecidableEq κ] [DecidableEq τ] in
/-- A process that somebody else with `ptable.lock` finds not `RUNNING` has no processor. -/
theorem Good.parked (h : Good s) (hl : .ptable ∈ (s.current c).locks)
    (hc : ¬ Leaving (s.current c).now.code) (hst : s.state p ≠ .RUNNING) (d : κ) :
    (s.cpu d).thread ≠ some p := by
  intro hd
  obtain ⟨hleave, hlock⟩ := h.leaves hd hst
  obtain rfl := Option.some.inj (hlock.symm.trans (((h.sound c).owns _).mpr hl))
  exact hc hleave

omit [DecidableEq κ] [DecidableEq τ] in
/-- A scheduler whose process has a processor. -/
theorem Good.scheduler (h : Good s) (hp : (s.cpu c).thread = some p) :
    (s.thread (.inr c)).depth = 1 ∧ (s.thread (.inr c)).locks = {.ptable} := by
  obtain ⟨hcode, hframes, hloop⟩ := (h.sound c).idle p hp
  have hends := (h.sound c).ends
  simpa [Thread.ends, hframes, hcode, final, hloop, Loop.wants] using hends

/-- `swtch` in `sched`. -/
theorem good_swtch (h : Good s) (hcode : (s.current c).now.code = .swtch :: rest)
    (ht : s.stmt c rest .swtch = some t) : Good t := by
  obtain ⟨hcount, hoff, hruns, hhere, hbound, hframes⟩ := (h.sound c).runner
  unfold At at hhere
  rw [hcode] at hruns hhere
  obtain ⟨rfl, hd, hL⟩ := hruns
  obtain ⟨p, hp, rfl⟩ := Option.map_eq_some_iff.mp ht
  have hw := who_some hp
  have hcur : s.current c = s.thread (.inl p) := by rw [Sys.current, hw]
  obtain ⟨hdepth, hlocks⟩ := h.scheduler hp
  set t : Sys κ τ := s.on c (fun k => { k with thread := none }) (·.goto [.setIntena]) with ht
  have hself : t.cpu c = { s.cpu c with thread := none } := by simp [ht, Sys.on]
  have hcpu : ∀ d, d ≠ c → t.cpu d = s.cpu d := fun d hd => by simp [ht, Sys.on, hd]
  have hmine : t.thread (.inl p) = (s.thread (.inl p)).goto [.setIntena] := by
    simp [ht, Sys.on_thread, hw, hcur]
  have hother : ∀ x, x ≠ .inl p → t.thread x = s.thread x := fun x hx => by
    simp [ht, Sys.on_thread, hw, hx]
  have hnone : (t.cpu c).thread = none := by rw [hself]
  have hcurrent : t.current c = s.thread (.inr c) := by
    rw [current_sched hnone, hother _ (by simp)]
  have hthread : ∀ d q, (t.cpu d).thread = some q → d ≠ c ∧ (s.cpu d).thread = some q :=
    fun d q hq => by
      have hne : d ≠ c := by
        rintro rfl
        exact absurd (hnone.symm.trans hq) (by simp)
      exact ⟨hne, hcpu d hne ▸ hq⟩
  refine ⟨fun d => ?_, fun x => ?_, fun d e q hq hq' => ?_, fun q hq hst => ?_⟩
  · rcases eq_or_ne d c with rfl | hne
    · constructor
      · rw [hcurrent, who_none hnone, hself]
        refine ⟨?_, fun _ => hoff (by omega), ?_, ?_, h.tidy _⟩
        · rw [hdepth, ← hd]
          exact hcount
        · rw [((h.sound d).idle p hp).1]
          trivial
        · refine plain_at ?_ fun _ b hb => absurd hb (by simp [Thread.promise])
          rw [((h.sound d).idle p hp).1]
          trivial
      · rw [hcurrent, hlocks, ← hL]
        exact (h.sound d).owns
      · exact fun q hq => absurd (hnone.symm.trans hq) (by simp)
      · exact fun q hq => absurd (hnone.symm.trans hq) (by simp)
      · rw [hother _ (by simp), hself]
        exact (h.sound d).ends
      · intro q hq
        rw [hself] at hq
        rw [hother _ (by simp)]
        exact (h.sound d).picked q hq
    · exact (h.sound d).frame (hcpu d hne) (hother _ fun he => hne (h.who_inj (he.trans hw.symm)))
        (hother _ (by simp)) (fun _ => Iff.rfl) fun _ _ => rfl
  · rcases eq_or_ne x (.inl p) with rfl | hx
    · rw [hmine]
      exact ⟨(h.tidy (.inl p)).bound, (h.tidy (.inl p)).frames⟩
    · rw [hother x hx]
      exact h.tidy x
  · exact h.inj d e q (hthread d q hq).2 (hthread e q hq').2
  · rcases eq_or_ne q p with rfl | hne
    · rw [hmine]
      rw [hcur] at hd hL hhere
      refine ⟨hd, hL, Or.inl ⟨rfl, fun hstarted => ?_⟩⟩
      rw [hw] at hhere
      have hstarted : (s.thread (.inl q)).started = true := hstarted
      exact hhere.1.trans (hhere.2 (by omega) _ (by simp [Thread.promise, Thread.goto, hstarted]))
    · rw [hother _ (by simpa using hne)]
      refine h.waits q (fun d hdq => ?_) hst
      rcases eq_or_ne d c with rfl | hdc
      · exact hne (Option.some.inj (hdq.symm.trans hp))
      · exact hq d (by rwa [hcpu d hdc])

omit [DecidableEq κ] [DecidableEq τ] in
/-- A scheduler between two calls, at home in its loop. -/
theorem Good.atHome (h : Good s) (hnone : (s.cpu c).thread = none) (hcode : s.Between c)
    (hframes : (s.current c).frames = []) :
    ((s.current c).depth, (s.current c).locks) = (s.cpu c).loop.wants := by
  have hcode : (s.current c).now.code = [] := hcode
  have hends := (h.sound c).ends
  rw [← current_sched hnone] at hends
  simpa [Thread.ends, hframes, hcode, final] using hends

/-- `scheduler` switches to the process that it has picked. -/
theorem good_dispatch (h : Good s) (hnone : (s.cpu c).thread = none) (hcode : s.Between c)
    (hframes : (s.current c).frames = []) (hloop : (s.cpu c).loop = .run p) :
    Good ((s.setState p .RUNNING).on c (fun k => { k with thread := some p, loop := .scan }) id) := by
  have hcur := current_sched hnone
  have hhome := h.atHome hnone hcode hframes
  rw [hloop] at hhome
  obtain ⟨hd, hL⟩ := Prod.mk.inj hhome
  have hpicked := (h.sound c).picked p (by rw [hloop]; rfl)
  have hfree : ∀ d, (s.cpu d).thread ≠ some p := by
    refine h.parked (c := c) (by simp [hL]) (fun hl => ?_) (by simp [hpicked.state])
    have hcode : (s.current c).now.code = [] := hcode
    simp [Leaving, hcode] at hl
  obtain ⟨hpd, hpL, hp⟩ := h.waits p hfree (Or.inl hpicked.state)
  obtain ⟨hcount, hoff, -, -, -, -⟩ := (h.sound c).runner
  set t : Sys κ τ :=
    (s.setState p .RUNNING).on c (fun k => { k with thread := some p, loop := .scan }) id with ht
  have hself : t.cpu c = { s.cpu c with thread := some p, loop := .scan } := by
    simp [ht, Sys.on, Sys.setState]
  have hcpu : ∀ d, d ≠ c → t.cpu d = s.cpu d := fun d hd => by
    simp [ht, Sys.on, Sys.setState, hd]
  have hthread : t.thread = s.thread := by
    simp [ht, Sys.on_thread, Sys.setState, Sys.current, Sys.who]
  have hstate : ∀ q, q ≠ p → t.state q = s.state q := fun q hq => by
    simp [ht, Sys.on, Sys.setState, hq]
  have hcurrent : t.current c = s.thread (.inl p) := by
    rw [Sys.current, who_some (by rw [hself]), hthread]
  refine ⟨fun d => ?_, fun x => hthread ▸ h.tidy x, fun d e q hq hq' => ?_, fun q hq hst => ?_⟩
  · rcases eq_or_ne d c with rfl | hne
    · constructor
      · rw [hcurrent, who_some (by rw [hself]), hself]
        refine ⟨?_, fun _ => hoff (by omega), ?_, ?_, h.tidy _⟩
        · rw [hpd, ← hd]
          exact hcount
        · rw [hpd, hpL]
          rcases hp with ⟨hc, -⟩ | ⟨hc, -⟩ <;> rw [hc] <;> simp [Runs, release]
        · unfold At
          rcases hp with ⟨hc, hintena⟩ | ⟨hc, hstarted⟩
          · rw [hc]
            intro b hb
            simp only [Thread.promise] at hb
            split at hb
            · rename_i hs
              exact (hintena hs).trans (Option.some.inj hb)
            · exact absurd hb (by simp)
          · rw [hc]
            exact fun _ b hb => absurd hb (by simp [Thread.promise, hstarted])
      · rw [hcurrent, hpL, ← hL]
        exact (h.sound d).owns
      · intro q hq
        rw [hself] at hq
        obtain rfl := Option.some.inj hq
        rw [hcurrent]
        have hrun : t.state p = .RUNNING := by simp [ht, Sys.on, Sys.setState]
        refine ⟨fun hl => ?_, fun _ => hrun⟩
        rcases hp with ⟨hc, -⟩ | ⟨hc, -⟩ <;> simp [Leaving, hc, release, popcli] at hl
      · intro q hq
        rw [hthread, hself, ← hcur]
        exact ⟨hcode, hframes, rfl⟩
      · rw [hthread, (h.sound d).ends, hself, hloop]
        rfl
      · intro q hq
        rw [hself] at hq
        exact absurd hq (by simp [Loop.picked])
    · refine (h.sound d).frame (hcpu d hne) (by rw [hthread]) (by rw [hthread])
        (fun _ => Iff.rfl) fun q hq => hstate q ?_
      rintro rfl
      rcases hq with hq | hq
      · exact hfree d hq
      · -- two schedulers would have ptable.lock
        have hl := ((h.sound d).picked q hq).lock
        rw [← current_sched (h.scheduling hq)] at hl
        have hl' : .ptable ∈ (s.current c).locks := by simp [hL]
        have hlock := ((h.sound d).owns _).mpr hl
        exact hne (Option.some.inj (hlock.symm.trans (((h.sound c).owns _).mpr hl')))
  · rcases eq_or_ne d c with rfl | hdc <;> rcases eq_or_ne e d with rfl | hed
    · rfl
    · rw [hself] at hq
      obtain rfl := Option.some.inj hq
      rw [hcpu e hed] at hq'
      exact absurd hq' (hfree e)
    · rfl
    · rw [hcpu d hdc] at hq
      rcases eq_or_ne e c with rfl | hec
      · rw [hself] at hq'
        obtain rfl := Option.some.inj hq'
        exact absurd hq (hfree d)
      · rw [hcpu e hec] at hq'
        exact h.inj d e q hq hq'
  · have hqp : q ≠ p := by
      rintro rfl
      exact hq c (by rw [hself])
    rw [hthread]
    rw [hstate q hqp] at hst
    refine h.waits q (fun d hdq => ?_) hst
    rcases eq_or_ne d c with rfl | hne
    · exact absurd (hnone.symm.trans hdq) (by simp)
    · exact hq d (by rwa [hcpu d hne])

/-- A thread with `ptable.lock` changes the state of a process that is not `RUNNING`. -/
theorem good_table (st' : ProcState) {x : ProcState} (h : Good s) (hcode : s.Between c)
    (hl : .ptable ∈ (s.current c).locks) (hst : s.state p = x) (hx : x ≠ .RUNNING)
    (hx' : x ≠ .RUNNABLE) (htidy : Tidy r)
    (hr : st' = .RUNNABLE ∨ st' = .SLEEPING → Waits r) :
    Good { s.setState p st' with thread := Function.update s.thread (.inl p) r } := by
  have hfree : ∀ d, (s.cpu d).thread ≠ some p := by
    refine h.parked (c := c) hl (fun hl => ?_) (hst ▸ hx)
    have hcode : (s.current c).now.code = [] := hcode
    simp [Leaving, hcode] at hl
  set t : Sys κ τ := { s.setState p st' with thread := Function.update s.thread (.inl p) r } with ht
  have hother : ∀ y, y ≠ .inl p → t.thread y = s.thread y := fun y hy => by simp [ht, hy]
  have hstate : ∀ q, q ≠ p → t.state q = s.state q := fun q hq => by
    simp [ht, Sys.setState, hq]
  refine ⟨fun d => ?_, fun y => ?_, h.inj, fun q hq hsq => ?_⟩
  · refine (h.sound d).frame rfl (hother _ (who_ne (hfree d))) (hother _ (by simp))
      (fun _ => Iff.rfl) fun q hq => hstate q ?_
    rintro rfl
    exact hq.elim (hfree d) fun hq => hx' (hst.symm.trans ((h.sound d).picked q hq).state)
  · rcases eq_or_ne y (.inl p) with rfl | hy
    · simpa [ht] using htidy
    · exact hother y hy ▸ h.tidy y
  · rcases eq_or_ne q p with rfl | hne
    · have hsq : st' = .RUNNABLE ∨ st' = .SLEEPING := by simpa [ht, Sys.setState] using hsq
      simpa [ht] using hr hsq
    · rw [hother _ (by simpa using hne)]
      exact h.waits q hq (hstate q hne ▸ hsq)

/-! ### Calls, interrupts and the loop of the scheduler -/

omit [DecidableEq κ] [DecidableEq τ] in
/-- A function that is matched by the calls before fits the thread, and begins where it is. -/
theorem Runner.begins {i : Call} (h : Runner k x r) (hcode : r.now.code = [])
    (hi : r.Allows i) : Runner k x (r.begins i k.eflags) := by
  obtain ⟨hcount, hoff, -, hhere, hbound, hframes⟩ := h
  have hkeeps : Keeps r.depth k.intena (r.promise x) := by
    unfold At at hhere
    rwa [hcode] at hhere
  refine ⟨hcount, hoff, ?_, ?_, hbound, hframes⟩
  · change Runs i.code r.depth r.locks
    cases i with
    | pushcli => simp [Call.code, pushcli, Runs, Plain]
    | popcli => exact ⟨hi, ⟨_, rfl⟩, hi, ⟨_, rfl⟩, trivial, trivial⟩
    | acquire lk =>
      exact ⟨⟨_, rfl⟩, ⟨_, rfl⟩, ⟨_, rfl⟩, trivial, Nat.lt_succ_of_le hbound, hi, rfl⟩
    | release lk => exact ⟨hbound, hi, rfl⟩
    | sched st => exact ⟨hi.2.2, rfl, hi.2.1, hi.1⟩
  · cases i with
    | pushcli | acquire lk => exact ⟨fun _ => rfl, hkeeps⟩
    | _ => exact hkeeps

theorem not_leaving_code (i : Call) : ¬ Leaving i.code := by
  rintro ⟨hs, hset⟩
  cases i with
  | sched st => exact hset st (by simp [Call.code, sched])
  | _ => simp [Call.code, pushcli, popcli, acquire, release] at hs

theorem not_leaving_nil : ¬ Leaving [] := fun h => by simp [Leaving] at h

theorem good_call {i : Call} (h : Good s) (ht : s.call c i = some t) : Good t := by
  obtain ⟨⟨hcode, hi, hhandler⟩, ht⟩ := Option.ite_none_right_eq_some.mp ht
  obtain rfl := Option.some.inj ht
  have hcode : (s.current c).now.code = [] := hcode
  refine h.goes ⟨rfl, (h.sound c).runner.begins hcode hi, (h.sound c).owns,
    fun _ _ _ => Iff.rfl, fun p hp => ?_, fun _ _ => rfl, fun _ => rfl, fun hnone => ?_,
    fun hnone p hp => ?_⟩
  · refine ⟨fun hl => absurd hl (not_leaving_code i), fun _ => ((h.sound c).state p hp).running ?_⟩
    rw [hcode]
    exact not_leaving_nil
  · change _ = (s.cpu c).loop.wants
    rw [← (h.sound c).ends, ← current_sched hnone]
    exact Thread.ends_eq rfl (hhandler hnone).1
  · have hframes := ((h.sound c).picked p hp).frames
    rw [← current_sched hnone] at hframes
    exact absurd hframes (hhandler hnone).1

omit [DecidableEq κ] [DecidableEq τ] in
/-- What is interrupted is not in the middle of what needs interrupts disabled. -/
theorem suspended_of {i : Bool} {o : Option Bool} {n : Frame} (hruns : Runs n.code 0 ∅)
    (hhere : At n 0 true i o) : Suspended n := by
  refine ⟨hruns, fun i' o' => ?_⟩
  have hkeeps : Keeps 0 i' o' := fun hd => absurd hd (by simp)
  unfold At at hhere ⊢
  cases hc : n.code with
  | nil => exact hkeeps
  | cons st rest =>
    rw [hc] at hruns hhere
    cases st with
    | readeflags | cli => exact ⟨hhere.1, hkeeps⟩
    | saveIntena | incNcli | sti => exact absurd hhere.1 (by simp)
    | swtch | setIntena => exact absurd hruns.2.1 (by simp)
    | _ => exact hkeeps

omit [DecidableEq κ] [DecidableEq τ] in
theorem Tidy.none_locked (h : Tidy r) (hd : r.depth = 0) : r.locks = ∅ :=
  Finset.card_eq_zero.mp (Nat.le_zero.mp (hd ▸ h.bound))

/-- With interrupts enabled nobody is on the way to `swtch`. -/
theorem Runs.not_leaving {l : List Stmt} (h : Runs l 0 ∅) : ¬ Leaving l := fun hl =>
  absurd (h.locks hl.1) (by simp)

theorem good_intr (h : Good s) (ht : s.intr c = some t) : Good t := by
  obtain ⟨hfl, ht⟩ := Option.ite_none_right_eq_some.mp ht
  obtain rfl := Option.some.inj ht
  obtain ⟨hcount, hoff, hruns, hhere, htidy⟩ := (h.sound c).runner
  have hd : (s.current c).depth = 0 := by
    by_contra hd
    exact absurd (hfl.symm.trans (hoff (by omega))) (by simp)
  have hL := htidy.none_locked hd
  have hpending : Runs (s.current c).now.code 0 ∅ := by rwa [hd, hL] at hruns
  have hsuspended : Suspended (s.current c).now := by
    rw [hd, hfl] at hhere
    exact suspended_of hpending hhere
  refine h.goes ⟨rfl, ⟨hcount, fun _ => rfl, trivial, ?_, htidy.bound,
    ?_⟩, (h.sound c).owns, fun _ _ _ => Iff.rfl, fun p hp => ?_, fun _ _ => rfl, fun _ => rfl,
    fun hnone => ?_, fun hnone p hp => ?_⟩
  · exact plain_at trivial fun hpos => absurd hd (by exact hpos.ne')
  · intro f hf
    rcases List.mem_cons.mp hf with rfl | hf
    · exact hsuspended
    · exact htidy.frames f hf
  · exact ⟨fun hl => absurd hl not_leaving_nil,
      fun _ => ((h.sound c).state p hp).running hpending.not_leaving⟩
  · change _ = (s.cpu c).loop.wants
    rw [← (h.sound c).ends, ← current_sched hnone]
    cases hfs : (s.current c).frames with
    | nil => simp [Thread.ends, hfs, hd, hL]
    | cons f fs =>
      refine Thread.ends_eq ?_ (by simp [hfs])
      simp [hfs, List.getLast?_cons_cons]
  · have hlock := ((h.sound c).picked p hp).lock
    rw [← current_sched hnone, hL] at hlock
    simp at hlock

theorem good_iret (h : Good s) (ht : s.iret c = some t) : Good t := by
  unfold Sys.iret at ht
  split at ht
  · rename_i f fs hfs
    obtain ⟨⟨hcode, hd⟩, ht⟩ := Option.ite_none_right_eq_some.mp ht
    obtain rfl := Option.some.inj ht
    have hcode : (s.current c).now.code = [] := hcode
    obtain ⟨hcount, hoff, hruns, hhere, htidy⟩ := (h.sound c).runner
    have hL := htidy.none_locked hd
    obtain ⟨hfruns, hfat⟩ := htidy.frames f (by simp [hfs])
    refine h.goes ⟨rfl, ⟨hcount, ?_, ?_, ?_, htidy.bound, ?_⟩, (h.sound c).owns,
      fun _ _ _ => Iff.rfl, fun p hp => ?_, fun _ _ => rfl, fun _ => rfl, fun hnone => ?_,
      fun hnone p hp => ?_⟩
    · exact fun hpos => absurd hd (by exact hpos.ne')
    · change Runs f.code (s.current c).depth (s.current c).locks
      rwa [hd, hL]
    · change At f (s.current c).depth true _ _
      rw [hd]
      exact hfat _ _
    · exact fun f' hf' => htidy.frames f' (by simp [hfs, show f' ∈ fs from hf'])
    · refine ⟨fun hl => absurd hl hfruns.not_leaving, fun _ => ((h.sound c).state p hp).running ?_⟩
      rw [hcode]
      exact not_leaving_nil
    · change _ = (s.cpu c).loop.wants
      rw [← (h.sound c).ends, ← current_sched hnone]
      cases fs with
      | nil => simp [Thread.ends, hfs, hd, hL]
      | cons f' fs =>
        refine Thread.ends_eq ?_ (by simp [hfs])
        simp [hfs, List.getLast?_cons_cons]
    · have hframes := ((h.sound c).picked p hp).frames
      rw [← current_sched hnone, hfs] at hframes
      exact absurd hframes (by simp)
  · exact absurd ht (by simp)

/-- `scheduler` makes a call in its loop. -/
theorem good_loopCall {i : Call} {y : Loop τ} (h : Good s) (hnone : (s.cpu c).thread = none)
    (hcode : s.Between c) (hframes : (s.current c).frames = []) (hi : (s.current c).Allows i)
    (hends : final i.code (s.cpu c).loop.wants.1 (s.cpu c).loop.wants.2 = y.wants)
    (hpicked : ∀ p, y.picked = some p → s.state p = .RUNNABLE ∧ .ptable ∈ (s.current c).locks ∧
      ∀ st ∈ i.code, st ∈ myproc) : Good (s.loopCall c i y) := by
  have hhome := h.atHome hnone hcode hframes
  unfold Sys.loopCall
  refine h.goes ⟨rfl, ?_, (h.sound c).owns, fun _ _ _ => Iff.rfl,
    fun p hp => absurd (hnone.symm.trans hp) (by simp), fun _ _ => rfl,
    fun hne => absurd hnone hne, fun _ => ?_, fun _ p hp => ?_⟩
  · obtain ⟨hcount, hoff, hruns, hhere, htidy⟩ := (h.sound c).runner.begins hcode hi
    exact ⟨hcount, hoff, hruns, hhere, htidy⟩
  · change Thread.ends ((s.current c).begins i _) = y.wants
    rw [← hends, ← hhome]
    simp [Thread.ends, Thread.begins, hframes]
  · obtain ⟨hst, hlock, hin⟩ := hpicked p hp
    exact ⟨hst, hlock, hframes, hin⟩

theorem good_loop {o : Option τ} (h : Good s) (ht : s.loop c o = some t) : Good t := by
  obtain ⟨⟨hnone, hcode, hframes⟩, ht⟩ := Option.ite_none_right_eq_some.mp ht
  have hhome := h.atHome hnone hcode hframes
  cases hloop : (s.cpu c).loop with
  | enable =>
    rw [hloop] at ht hhome
    obtain rfl := Option.some.inj ht
    obtain ⟨hd, hL⟩ := Prod.mk.inj hhome
    obtain ⟨hcount, -, hruns, hhere, htidy⟩ := (h.sound c).runner
    have hcode : (s.current c).now.code = [] := hcode
    refine h.goes ⟨rfl, ⟨hcount, ?_, hruns, ?_, htidy⟩, (h.sound c).owns,
      fun _ _ _ => Iff.rfl, fun p hp => absurd (hnone.symm.trans hp) (by simp), fun _ _ => rfl,
      fun hne => absurd hnone hne, fun _ => ?_, fun _ p hp => absurd hp (by simp [Loop.picked])⟩
    · exact fun hpos => absurd hd (by exact hpos.ne')
    · refine plain_at ?_ fun hpos => absurd hd (by exact hpos.ne')
      change Plain (s.current c).now.code
      rw [hcode]
      trivial
    · simp [Thread.ends, hframes, hcode, final, hd, hL, Loop.wants]
  | lock =>
    rw [hloop] at ht hhome
    obtain rfl := Option.some.inj ht
    obtain ⟨hd, hL⟩ := Prod.mk.inj hhome
    refine good_loopCall h hnone hcode hframes ?_ ?_ fun p hp => absurd hp (by simp [Loop.picked])
    · change _ ∉ _
      rw [hL]
      simp
    · rw [hloop]
      rfl
  | scan =>
    rw [hloop] at ht hhome
    obtain ⟨hd, hL⟩ := Prod.mk.inj hhome
    cases o with
    | some p =>
      obtain ⟨hst, ht⟩ := Option.ite_none_right_eq_some.mp ht
      obtain rfl := Option.some.inj ht
      refine good_loopCall h hnone hcode hframes trivial ?_ fun q hq => ?_
      · rw [hloop]
        rfl
      · obtain rfl := Option.some.inj hq
        refine ⟨hst, by simp [hL], fun st hst => ?_⟩
        exact List.mem_append_left _ hst
    | none =>
      obtain rfl := Option.some.inj ht
      refine good_loopCall h hnone hcode hframes ?_ ?_ fun q hq => absurd hq (by simp [Loop.picked])
      · change _ ∈ _
        rw [hL]
        simp
      · rw [hloop]
        rfl
  | map p =>
    rw [hloop] at ht hhome
    obtain rfl := Option.some.inj ht
    obtain ⟨hd, hL⟩ := Prod.mk.inj hhome
    refine good_loopCall h hnone hcode hframes ?_ ?_ fun q hq => ?_
    · change _ < _
      rw [hd, hL]
      simp
    · rw [hloop]
      rfl
    · obtain rfl := Option.some.inj hq
      refine ⟨((h.sound c).picked p (by rw [hloop]; rfl)).state, by simp [hL], fun st hst => ?_⟩
      exact List.mem_append_right _ hst
  | run p =>
    rw [hloop] at ht
    obtain rfl := Option.some.inj ht
    exact good_dispatch h hnone hcode hframes hloop

/-! ### Every run -/

theorem good_run (h : Good s) (ht : s.run c = some t) : Good t := by
  unfold Sys.run at ht
  split at ht
  · rename_i st rest hcode
    cases st with
    | readeflags | cli | saveIntena | incNcli => exact good_pushcli h hcode (by simp [pushcli]) ht
    | testIf | decNcli | sti => exact good_popcli h hcode (by simp [popcli]) ht
    | take => exact good_lock h hcode (Or.inl rfl) ht
    | drop => exact good_lock h hcode (Or.inr rfl) ht
    | tests | getIntena | setIntena => exact good_sched h hcode (by simp) ht
    | setState => exact good_setState h hcode ht
    | swtch => exact good_swtch h hcode ht
    | panic => exact absurd ht (by simp [Sys.stmt])
  · exact absurd ht (by simp)

theorem tidy_newborn : Tidy Thread.newborn := by
  refine ⟨by simp [Thread.newborn], fun f hf => ?_⟩
  obtain rfl := List.mem_singleton.mp hf
  exact ⟨trivial, fun i o => plain_at trivial fun hpos => absurd hpos (by simp)⟩

theorem waits_newborn : Waits Thread.newborn :=
  ⟨rfl, rfl, Or.inr ⟨rfl, rfl⟩⟩

theorem Good.step {a : Act κ τ} (h : Good s) (ht : s.Step a t) : Good t := by
  cases a with
  | run c => exact good_run h ht
  | call c f => exact good_call h ht
  | intr c => exact good_intr h ht
  | iret c => exact good_iret h ht
  | loop c o => exact good_loop h ht
  | wake c p =>
    obtain ⟨⟨hcode, hl, hst⟩, ht⟩ := Option.ite_none_right_eq_some.mp ht
    obtain rfl := Option.some.inj ht
    -- its thread is the one that sleeps
    have hsleeps : Waits (s.thread (.inl p)) := by
      refine h.waits p (h.parked hl (fun hlv => ?_) (by simp [hst])) (Or.inr hst)
      have hcode : (s.current c).now.code = [] := hcode
      simp [Leaving, hcode] at hlv
    have ht := good_table .RUNNABLE h hcode hl hst (by simp) (by simp) (h.tidy (.inl p))
      fun _ => hsleeps
    rwa [Function.update_eq_self] at ht
  | fork c p =>
    obtain ⟨t', ht', rfl⟩ := Option.map_eq_some_iff.mp ht
    obtain ⟨⟨hcode, hl, hst⟩, ht'⟩ := Option.ite_none_right_eq_some.mp ht'
    obtain rfl := Option.some.inj ht'
    exact good_table .RUNNABLE h hcode hl hst (by simp) (by simp) tidy_newborn fun _ => waits_newborn
  | reap c p =>
    obtain ⟨⟨hcode, hl, hst⟩, ht⟩ := Option.ite_none_right_eq_some.mp ht
    obtain rfl := Option.some.inj ht
    have ht := good_table .UNUSED h hcode hl hst (by simp) (by simp) (h.tidy (.inl p))
      fun hst => absurd hst (by simp)
    rwa [Function.update_eq_self] at ht

omit [DecidableEq κ] in
theorem good_boot (initproc : τ) : Good (Sys.boot initproc : Sys κ τ) where
  sound := fun c => by
    refine ⟨⟨rfl, fun hpos => absurd hpos (by simp [Sys.boot, Sys.current, Sys.who]), trivial,
      plain_at trivial fun hpos => absurd hpos (by simp [Sys.boot, Sys.current, Sys.who]), ?_, ?_⟩,
      fun lk => ?_, fun p hc => absurd hc (by simp [Sys.boot]),
      fun p hc => absurd hc (by simp [Sys.boot]), rfl,
      fun p hp => absurd hp (by simp [Sys.boot, Loop.picked])⟩ <;>
      simp [Sys.boot, Sys.current, Sys.who]
  tidy := fun x => by
    cases x with
    | inl p => exact tidy_newborn
    | inr c => exact ⟨by simp [Sys.boot], fun f hf => absurd hf (by simp [Sys.boot])⟩
  inj := fun c d p hc => absurd hc (by simp [Sys.boot])
  waits := fun p _ _ => waits_newborn

/-- On every processor: the count is that of the calls of `pushcli` that no `popcli` matches, and
    interrupts are disabled while it is positive; no function panics. -/
def Sane (s : Sys κ τ) : Prop :=
  ∀ c, (s.cpu c).ncli = (s.current c).depth ∧ 0 ≤ (s.cpu c).ncli ∧
    (0 < (s.cpu c).ncli → (s.cpu c).eflags = false) ∧ .panic ∉ (s.current c).now.code

/-- The outermost `popcli` of a process is about to return, not for the first time. -/
structure Returns (s : Sys κ τ) (c : κ) (p : τ) : Prop where
  thread : (s.cpu c).thread = some p
  code : (s.current c).now.code.head? = some .sti
  depth : (s.current c).depth = 0
  started : (s.current c).started = true

/-- When the outermost `popcli` of a process returns, the flag is as it was when the process called
    the outermost `pushcli`. -/
def Restores (s : Sys κ τ) (a : Act κ τ) : Prop :=
  ∀ c p t, a = .run c → Returns s c p → s.Step a t → (t.cpu c).eflags = (s.current c).outer

omit [DecidableEq κ] [DecidableEq τ] in
theorem Good.sane (h : Good s) : Sane s := fun c => by
  obtain ⟨hcount, hoff, hruns, -, -⟩ := (h.sound c).runner
  exact ⟨hcount, hcount ▸ Int.natCast_nonneg _,
    fun hpos => hoff (by exact_mod_cast hcount ▸ hpos), hruns.no_panic⟩

theorem Good.restores {a : Act κ τ} (h : Good s) : Restores s a := by
  rintro c p t rfl ⟨hp, hcode, hd, hstarted⟩ ht
  obtain ⟨hcount, -, hruns, hhere, -⟩ := (h.sound c).runner
  obtain ⟨rest, hcode⟩ : ∃ rest, (s.current c).now.code = .sti :: rest :=
    ⟨_, (List.eq_cons_of_mem_head? hcode)⟩
  unfold At at hhere
  rw [hcode] at hhere
  obtain ⟨hfl, hintena⟩ := hhere
  have hkept : (s.cpu c).intena = (s.current c).outer :=
    hintena _ (by simp [who_some hp, Thread.promise, hstarted])
  have ht : s.run c = some t := ht
  unfold Sys.run at ht
  rw [hcode] at ht
  obtain rfl := Option.some.inj ht
  simp [Sys.on, hfl, hcount, hd, hkept]

/-- In every run on any number of processors: the count of a processor is that of what runs on it,
    interrupts are disabled while it is positive, and the last `popcli` of a process brings back
    the flag that its first `pushcli` has found, on whatever processor. -/
theorem cli_restored {κ τ : Type} [DecidableEq κ] [DecidableEq τ] (initproc : τ)
    {l : List (Sys κ τ × Act κ τ)} {u : Sys κ τ} (hrun : Run Sys.Step (Sys.boot initproc) l u) :
    Throughout Sane l u ∧ Along Restores l := by
  have hgood := hrun.invariant (I := Good) (C := fun _ _ => True)
    (fun s a t h _ ht => h.step ht) (good_boot initproc) fun _ _ => trivial
  exact ⟨hgood.mono fun s h => h.sane, fun x hx => (hgood.1 x hx).restores⟩

end

/-- The first process yields on one processor, inside `acquire` and `release`, and comes back on
    another one. -/
def migration : List (Act Bool Unit) :=
  let run (c : Bool) (n : ℕ) : List (Act Bool Unit) := List.replicate n (.run c)
  let dispatch (c : Bool) : List (Act Bool Unit) :=
    [.loop c none, .loop c none] ++ run c 5 ++ [.loop c (some ())] ++ run c 4 ++ [.loop c none] ++
      run c 3 ++ [.loop c none]
  dispatch false ++ run false 4 ++ [.iret false, .call false (.acquire .ptable)] ++ run false 5 ++
    [.call false (.sched .RUNNABLE)] ++ run false 11 ++ [.loop false none] ++ run false 4 ++
    dispatch true ++ run true 1 ++ [.call true (.release .ptable)] ++ run true 3

/-- `cli_restored` along `migration`, up to the return of the outermost `popcli`. -/
theorem migrated_popcli :
    ∃ l u t, Run Sys.Step (Sys.boot () : Sys Bool Unit) (l ++ [(u, .run true)]) t ∧
      Returns u true () ∧ (t.cpu true).eflags = true ∧
      Throughout Sane (l ++ [(u, .run true)]) t ∧ Along Restores (l ++ [(u, .run true)]) := by
  have hend : ((exec Sys.next (Sys.boot ()) migration).any fun u =>
      (u.cpu true).thread = some () ∧ (u.current true).now.code = [.sti] ∧
        (u.current true).depth = 0 ∧ (u.current true).started = true ∧
        (u.run true).any fun t => (t.cpu true).eflags) = true := by
    decide +kernel
  obtain ⟨u, hu, hend⟩ := (Option.any_eq_true _ _).mp hend
  obtain ⟨hthread, hcode, hdepth, hstarted, hlast⟩ := of_decide_eq_true hend
  obtain ⟨t, ht, hfl⟩ := (Option.any_eq_true _ _).mp hlast
  have hreturn : u.Step (.run true) t := ht
  have hbefore : Run Sys.Step (Sys.boot ()) (visited Sys.next (Sys.boot ()) migration) u :=
    Run.of_exec hu
  have hrun := hbefore.append (.cons hreturn (.nil t))
  have hsafe := cli_restored () hrun
  exact ⟨_, u, t, hrun, ⟨hthread, by rw [hcode]; rfl, hdepth, hstarted⟩, hfl, hsafe.1, hsafe.2⟩

end Xv6.Cli
