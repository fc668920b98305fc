import Xv6.Sched.Handover

/-! @src proc.c spinlock.c | name:What a step leaves alone | layer:proof

    A statement changes the record of its own process in a few ways, and hardly touches what the
    other threads, processors and locks depend on. These facts are collected once, for arguments
    that follow one thread while the others do what they like. -/

namespace Xv6.Sched
open Xv6.Schemes
open Xv6.Schemes.X86 (Word)
open Xv6.Process (NPROC Slot ProcState Chan)

variable {κ : Type} {s t : Sys κ} {c d : κ} {p q np : Slot} {rest : List Stmt}

/-! ### The record of a process -/

/-- Statements after which a thread may go on with others than the ones it had. -/
def Leaps : Stmt → Prop
  | .waitLoop | .allocproc | .kstack _ | .copyuvm _ => True
  | _ => False

/-- Statements that do not lead to sleep. -/
def Calm (l : List Stmt) : Prop :=
  ∀ st ∈ l, st ≠ .setState .SLEEPING ∧ st ≠ .waitLoop ∧ ∀ ch, st ≠ .setChan ch

/-- What the statement `st` does to the record of its process. -/
structure Own (st : Stmt) (rest : List Stmt) (r r' : Proc) : Prop where
  calls : r'.calls = r.calls
  call : r'.call = r.call
  todo : r'.todo = rest ∨ Leaps st ∧ (st ≠ .waitLoop → Calm r'.todo)
  state : r'.state = .SLEEPING → r.state = .SLEEPING ∨ st = .setState .SLEEPING
  chan : (∀ ch, st ≠ .setChan ch) → r'.chan = r.chan ∨ r'.chan = none
  clear : st = .clearChan → r'.chan = none

/-- What steps of others do to the record of a process. -/
structure Away (r r' : Proc) : Prop where
  calls : r'.calls = r.calls
  chan : r'.chan = r.chan
  state : r'.state = .SLEEPING → r.state = .SLEEPING
  todo : r'.todo = r.todo ∧ r'.call = r.call ∨
    r.state = .EMBRYO ∧ r'.todo = forkret ∧ r'.call = none

theorem Away.rfl' (r : Proc) : Away r r := ⟨rfl, rfl, id, Or.inl ⟨rfl, rfl⟩⟩

theorem Soft.sleeping {r r' : Proc} (h : Soft r r') (hs : r'.state = .SLEEPING) :
    r.state = .SLEEPING := by
  rcases h.2 with he | ⟨-, hr⟩
  · exact he ▸ hs
  · exact absurd (hr.symm.trans hs) (by decide)

theorem away_wakeTable (ch : Chan) (tbl : Slot → Proc) (q : Slot) :
    Away (tbl q) (wakeTable ch tbl q) := by
  have hs := (soft_wakeTable ch tbl q).sleeping
  obtain ⟨st, he⟩ := wakeTable_eq ch tbl q
  rw [he] at hs ⊢
  exact ⟨rfl, rfl, hs, Or.inl ⟨rfl, rfl⟩⟩

theorem away_kill (pid : Word) (tbl : Slot → Proc) (q : Slot) :
    Away (tbl q) (mark pid (killTable tbl pid).2 q) := by
  have hs := (soft_killTable pid tbl q).sleeping
  obtain ⟨st, k, m, he⟩ := kill_eq pid tbl q
  rw [he] at hs ⊢
  exact ⟨rfl, rfl, hs, Or.inl ⟨rfl, rfl⟩⟩

theorem away_abandon (p : Slot) (tbl : Slot → Proc) (q : Slot) :
    Away (tbl q) (abandonTable p tbl q) := by
  have hs := (soft_abandonTable p tbl q).sleeping
  obtain ⟨st, o, he⟩ := abandon_eq p tbl q
  rw [he] at hs ⊢
  exact ⟨rfl, rfl, hs, Or.inl ⟨rfl, rfl⟩⟩

/-! ### The rest of the system -/

/-- What an execution on the processor `c` leaves alone elsewhere. -/
structure Elsewhere (s t : Sys κ) (c : κ) : Prop where
  cpu : ∀ d, d ≠ c → t.cpu d = s.cpu d
  lock : ∀ lk d, d ≠ c → s.lock lk = some d → t.lock lk = some d

/-- What a statement of the process `p` on the processor `c` does. -/
structure ProcStep (s t : Sys κ) (c : κ) (p : Slot) (st : Stmt) (rest : List Stmt) : Prop where
  own : Own st rest (s.proc p) (t.proc p)
  away : ∀ q, q ≠ p → Away (s.proc q) (t.proc q)
  elsewhere : Elsewhere s t c
  sched : (t.cpu c).todo = (s.cpu c).todo
  thread : st ≠ .swtch → (t.cpu c).thread = (s.cpu c).thread
  lock : (∀ lk, st ≠ .release lk) → ∀ lk, s.lock lk = some c → t.lock lk = some c
  taken : ∀ lk, st = .acquire lk → t.lock lk = some c

/-- What a statement of the scheduler of the processor `c` does. -/
structure SchedStep (s t : Sys κ) (c : κ) (st : Stmt) (rest : List Stmt) : Prop where
  away : ∀ q, Away (s.proc q) (t.proc q)
  elsewhere : Elsewhere s t c
  todo : (t.cpu c).todo = rest ∨ (∃ i, st = .scan i) ∨ ∃ p, st = .back p

theorem Elsewhere.rfl' (h : t.cpu = s.cpu) (hl : t.lock = s.lock) : Elsewhere s t c :=
  ⟨fun _ _ => by rw [h], fun _ _ _ hlk => by rwa [hl]⟩

/-- Statements that touch only the table. -/
theorem ProcStep.table {st : Stmt} (hst : ∀ lk, st ≠ .acquire lk) (hcpu : t.cpu = s.cpu)
    (hlock : t.lock = s.lock) (hown : Own st rest (s.proc p) (t.proc p))
    (haway : ∀ q, q ≠ p → Away (s.proc q) (t.proc q)) : ProcStep s t c p st rest where
  own := hown
  away := haway
  elsewhere := .rfl' hcpu hlock
  sched := by rw [hcpu]
  thread := fun _ => by rw [hcpu]
  lock := fun _ lk hl => by rwa [hlock]
  taken := fun lk h => absurd h (hst lk)

/-- Statements that touch only the record of their process. -/
theorem ProcStep.modify {st : Stmt} {f : Proc → Proc} (hst : ∀ lk, st ≠ .acquire lk)
    (hown : Own st rest (s.proc p) (f (s.proc p))) : ProcStep s (s.modify p f) c p st rest := by
  refine .table hst rfl rfl (by rwa [modify_self]) fun q hq => ?_
  rw [modify_of_ne hq]
  exact .rfl' _

/-- Going on. -/
theorem Own.next {st : Stmt} {r r' : Proc} (hcalls : r'.calls = r.calls) (hcall : r'.call = r.call)
    (hto : r'.todo = rest) (hs : r'.state = .SLEEPING → r.state = .SLEEPING)
    (hc : r'.chan = r.chan) (hst : st ≠ .clearChan) : Own st rest r r' :=
  ⟨hcalls, hcall, Or.inl hto, fun h => Or.inl (hs h), fun _ => Or.inl hc, fun h => absurd h hst⟩

variable [DecidableEq κ]

theorem Elsewhere.onCpu {s' : Sys κ} (hcpu : s'.cpu = s.cpu) (hlock : s'.lock = s.lock)
    (f : Cpu → Cpu) : Elsewhere s (s'.onCpu c f) c :=
  ⟨fun d hd => by simp [Sys.onCpu, hd, hcpu], fun lk _ _ h => by simpa [Sys.onCpu, hlock] using h⟩

/-- Locking and unlocking. -/
theorem Elsewhere.relock {o : Option κ} {n : ℕ} (lk : Lock)
    (hmine : ∀ d, d ≠ c → s.lock lk ≠ some d) : Elsewhere s (s.relock c lk o n) c where
  cpu := fun d hd => by simp [Sys.relock, hd]
  lock := fun lk' d hd hl => by
    rcases eq_or_ne lk' lk with rfl | hne
    · exact absurd hl (hmine d hd)
    · simpa [Sys.relock, hne] using hl

theorem procStep_acquire {lk : Lock} (hp : (s.cpu c).thread = some p)
    (ht : (s.goto c rest).acquire c lk = some t) : ProcStep s t c p (.acquire lk) rest := by
  obtain ⟨hfree, ht⟩ := Option.ite_none_right_eq_some.mp ht
  obtain rfl := Option.some.inj ht
  rw [goto_some hp] at hfree ⊢
  have hmine : ∀ d, d ≠ c → (s.modify p fun r => { r with todo := rest }).lock lk ≠ some d :=
    fun d _ hl => absurd (hfree.symm.trans hl) (by simp)
  have helse := Elsewhere.relock (c := c) (o := some c)
    (n := ((s.modify p fun r => { r with todo := rest }).cpu c).ncli + 1) lk hmine
  refine ⟨?_, fun q hq => ?_, ⟨helse.cpu, helse.lock⟩, ?_, fun _ => ?_, fun _ lk' hl => ?_, ?_⟩
  · simp only [Sys.relock, modify_self]
    exact .next rfl rfl rfl id rfl (by simp)
  · simp only [Sys.relock, modify_of_ne hq]
    exact .rfl' _
  · simp [Sys.relock]
  · simp [Sys.relock]
  · rcases eq_or_ne lk' lk with rfl | hne
    · simp [Sys.relock]
    · simpa [Sys.relock, hne] using hl
  · rintro lk' ⟨⟩
    simp [Sys.relock]

theorem procStep_release {lk : Lock} (hp : (s.cpu c).thread = some p)
    (ht : (s.goto c rest).release c lk = some t) : ProcStep s t c p (.release lk) rest := by
  obtain ⟨hmine, ht⟩ := Option.ite_none_right_eq_some.mp ht
  obtain rfl := Option.some.inj ht
  rw [goto_some hp] at hmine ⊢
  have hother : ∀ d, d ≠ c → (s.modify p fun r => { r with todo := rest }).lock lk ≠ some d :=
    fun d hd hl => hd (Option.some.inj (hl.symm.trans hmine))
  have helse := Elsewhere.relock (c := c) (o := none)
    (n := ((s.modify p fun r => { r with todo := rest }).cpu c).ncli - 1) lk hother
  refine ⟨?_, fun q hq => ?_, ⟨helse.cpu, helse.lock⟩, ?_, fun _ => ?_, fun hno => ?_, ?_⟩
  · simp only [Sys.relock, modify_self]
    exact .next rfl rfl rfl id rfl (by simp)
  · simp only [Sys.relock, modify_of_ne hq]
    exact .rfl' _
  · simp [Sys.relock]
  · simp [Sys.relock]
  · exact absurd rfl (hno lk)
  · rintro lk' ⟨⟩

/-- Going on after a change of the table that concerns the others. -/
theorem ProcStep.wakes {st : Stmt} {tbl : Slot → Proc} (hp : (s.cpu c).thread = some p)
    (hst : ∀ lk, st ≠ .acquire lk) (hclear : st ≠ .clearChan)
    (htbl : ∀ q, Away (s.proc q) (tbl q)) (hcall : (tbl p).call = (s.proc p).call) :
    ProcStep s (Sys.goto { s with proc := tbl } c rest) c p st rest := by
  rw [goto_some (p := p) (s := { s with proc := tbl }) hp]
  refine .table hst rfl rfl ?_ fun q hq => ?_
  · rw [modify_self]
    exact .next (htbl p).calls hcall rfl (htbl p).state (htbl p).chan hclear
  · rw [modify_of_ne hq]
    exact htbl q

theorem procStep_waitLoop {ok : Bool} (hi : Inv s) (hp : (s.cpu c).thread = some p)
    (hto : (s.proc p).todo = .waitLoop :: rest)
    (ht : s.procStmt c p ok rest .waitLoop = some t) : ProcStep s t c p .waitLoop rest := by
  have hleap : ∀ {r : Proc} {v : Word} {l : List Stmt},
      Own .waitLoop rest r { r with ret := v, todo := l } := fun {r v l} =>
    ⟨rfl, rfl, Or.inr ⟨trivial, fun h => absurd rfl h⟩, fun h => Or.inl h, fun _ => Or.inl rfl,
      fun h => absurd h (by simp)⟩
  simp only [Sys.procStmt] at ht
  split at ht
  · rename_i q hq
    obtain rfl := Option.some.inj ht
    have hz := (deadChild_some hq).2
    have hne : p ≠ q := by
      rintro rfl
      exact absurd ((hi.threads.running hp (by simp [hto, phase])).symm.trans hz) (by decide)
    have hself : ((s.modify q Proc.reap).note
        (.reported (s.proc p).num (s.proc q).num)).proc p = s.proc p := by simp [hne]
    refine .table (by simp) rfl rfl ?_ fun r hr => ?_
    · rw [modify_self, hself]
      exact hleap
    · rw [modify_of_ne hr]
      rcases eq_or_ne r q with rfl | hrq
      · rw [note_proc, modify_self]
        exact ⟨rfl, rfl, fun h => absurd h (by simp [Proc.reap]), Or.inl ⟨rfl, rfl⟩⟩
      · rw [note_proc, modify_of_ne hrq]
        exact .rfl' _
  · split at ht
    · obtain rfl := Option.some.inj ht
      exact .modify (by simp) hleap
    · obtain rfl := Option.some.inj ht
      exact .modify (by simp) ⟨rfl, rfl, Or.inr ⟨trivial, fun h => absurd rfl h⟩,
        fun h => Or.inl h, fun _ => Or.inl rfl, fun h => absurd h (by simp)⟩

theorem procStep_allocproc {ok : Bool} (hi : Inv s) (hp : (s.cpu c).thread = some p)
    (hto : (s.proc p).todo = .allocproc :: rest)
    (ht : s.procStmt c p ok rest .allocproc = some t) : ProcStep s t c p .allocproc rest := by
  simp only [Sys.procStmt] at ht
  split at ht
  · rename_i np hnp
    obtain rfl := Option.some.inj ht
    have hu : (s.proc np).state = .UNUSED := by simpa using List.find?_some hnp
    have hne : p ≠ np := by
      rintro rfl
      exact absurd ((hi.threads.running hp (by simp [hto, phase])).symm.trans hu) (by decide)
    rw [goto_some (p := p) (by exact hp)]
    refine .table (by simp) rfl rfl ?_ fun r hr => ?_
    · rw [modify_self]
      dsimp only
      rw [modify_of_ne hne]
      exact ⟨rfl, rfl, Or.inr ⟨trivial, fun _ => by simp [Calm, forkInto]⟩, fun h => Or.inl h,
        fun _ => Or.inl rfl, fun h => absurd h (by simp)⟩
    · rw [modify_of_ne hr]
      dsimp only
      rcases eq_or_ne r np with rfl | hrn
      · rw [modify_self]
        exact ⟨rfl, rfl, fun h => absurd h (by simp), Or.inl ⟨rfl, rfl⟩⟩
      · rw [modify_of_ne hrn]
        exact .rfl' _
  · obtain rfl := Option.some.inj ht
    exact .modify (by simp) ⟨rfl, rfl, Or.inr ⟨trivial, fun _ => by simp [Calm]⟩,
      fun h => Or.inl h, fun _ => Or.inl rfl, fun h => absurd h (by simp)⟩

omit [DecidableEq κ] in
/-- A statement about the slot that `fork` fills. -/
theorem ProcStep.child {st : Stmt} {f g : Proc → Proc} (hst : ∀ lk, st ≠ .acquire lk)
    (hne : p ≠ np) (hown : Own st rest (s.proc p) (g (s.proc p)))
    (haway : Away (s.proc np) (f (s.proc np))) (hcpu : t.cpu = s.cpu) (hlock : t.lock = s.lock)
    (hproc : t.proc = ((s.modify np f).modify p g).proc) : ProcStep s t c p st rest := by
  refine .table hst hcpu hlock ?_ fun r hr => ?_
  · rwa [hproc, modify_self, modify_of_ne hne]
  · rw [hproc, modify_of_ne hr]
    rcases eq_or_ne r np with rfl | hrn
    · rwa [modify_self]
    · rw [modify_of_ne hrn]
      exact .rfl' _

/-- What the statements of a process do. -/
theorem procStep {ok : Bool} {st : Stmt} (hi : Inv s) (hp : (s.cpu c).thread = some p)
    (hto : (s.proc p).todo = st :: rest) (ht : s.procStmt c p ok rest st = some t) :
    ProcStep s t c p st rest := by
  have hold : ∀ {np b}, Sched.child (st :: rest) = some (np, b) → phase (st :: rest) ≠ .leaving →
      (s.proc np).state = .EMBRYO ∧ p ≠ np := fun hc hph => by
    obtain ⟨he, hne, -, -⟩ := hi.child_of hp (hto ▸ hph) (hto ▸ hc)
    exact ⟨he, hne⟩
  cases st with
  | acquire lk => exact procStep_acquire hp ht
  | release lk => exact procStep_release hp ht
  | setChan ch =>
    obtain rfl := Option.some.inj ht
    exact .modify (by simp) ⟨rfl, rfl, Or.inl rfl, fun h => Or.inl h,
      fun h => absurd rfl (h ch), fun h => absurd h (by simp)⟩
  | setState st =>
    obtain rfl := Option.some.inj ht
    have hset : Own (.setState st) rest (s.proc p) { s.proc p with state := st, todo := rest } :=
      ⟨rfl, rfl, Or.inl rfl, fun h => Or.inr (congrArg Stmt.setState h), fun _ => Or.inl rfl,
        fun h => absurd h (by simp)⟩
    split
    · refine .table (by simp) rfl rfl ?_ fun q hq => ?_
      · rwa [note_proc, modify_self]
      · rw [note_proc, modify_of_ne hq]
        exact .rfl' _
    · exact .modify (by simp) hset
  | swtch =>
    obtain ⟨-, ht⟩ := Option.ite_none_right_eq_some.mp ht
    obtain rfl := Option.some.inj ht
    rw [goto_some hp]
    refine ⟨?_, fun q hq => ?_, ⟨fun d hd => ?_, fun _ _ _ h => h⟩, ?_, fun h => absurd rfl h,
      fun _ _ h => h, fun lk h => absurd h (by simp)⟩
    · simp only [Sys.onCpu, modify_self]
      exact .next rfl rfl rfl id rfl (by simp)
    · simp only [Sys.onCpu, modify_of_ne hq]
      exact .rfl' _
    · simp [Sys.onCpu, hd]
    · simp [Sys.onCpu]
  | clearChan =>
    obtain rfl := Option.some.inj ht
    exact .modify (by simp) ⟨rfl, rfl, Or.inl rfl, fun h => Or.inl h, fun _ => Or.inr rfl,
      fun _ => rfl⟩
  | wakeup1 ch =>
    obtain rfl := Option.some.inj ht
    obtain ⟨st, he⟩ := wakeTable_eq ch s.proc p
    exact .wakes hp (by simp) (by simp) (away_wakeTable ch s.proc) (by rw [he])
  | kill pid =>
    obtain rfl := Option.some.inj ht
    have haway := away_kill pid s.proc
    obtain ⟨st, k, m, he⟩ := kill_eq pid s.proc p
    refine .table (by simp) rfl rfl ?_ fun q hq => ?_
    · rw [modify_self]
      have hcall : (mark pid (killTable s.proc pid).2 p).call = (s.proc p).call := by rw [he]
      exact .next (haway p).calls hcall rfl (haway p).state (haway p).chan (by simp)
    · rw [modify_of_ne hq]
      exact haway q
  | fault =>
    obtain rfl := Option.some.inj ht
    exact .modify (by simp) (.next rfl rfl rfl id rfl (by simp))
  | wakeParent =>
    simp only [Sys.procStmt] at ht
    split at ht
    · rename_i q hq
      obtain rfl := Option.some.inj ht
      obtain ⟨st, he⟩ := wakeTable_eq (.proc q) s.proc p
      exact .wakes hp (by simp) (by simp) (away_wakeTable (.proc q) s.proc) (by rw [he])
    · obtain rfl := Option.some.inj ht
      exact ProcStep.wakes hp (by simp) (by simp) (fun q => Away.rfl' (s.proc q)) rfl
  | abandon =>
    obtain rfl := Option.some.inj ht
    obtain ⟨st, o, he⟩ := abandon_eq p s.proc p
    exact .wakes hp (by simp) (by simp) (away_abandon p s.proc) (by rw [he])
  | waitLoop => exact procStep_waitLoop hi hp hto ht
  | allocproc => exact procStep_allocproc hi hp hto ht
  | kstack np =>
    simp only [Sys.procStmt] at ht
    obtain ⟨he, hne⟩ := hold (b := false) rfl (by simp [phase])
    split at ht
    · obtain rfl := Option.some.inj ht
      rw [goto_some (p := p) (by exact hp)]
      exact .child (by simp) hne (.next rfl rfl rfl id rfl (by simp))
        ⟨rfl, rfl, id, Or.inr ⟨he, rfl, rfl⟩⟩ rfl rfl rfl
    · obtain rfl := Option.some.inj ht
      rw [goto_some hp]
      exact .modify (by simp) ⟨rfl, rfl, Or.inr ⟨trivial, fun _ => by simp [Calm]⟩,
        fun h => Or.inl h, fun _ => Or.inl rfl, fun h => absurd h (by simp)⟩
  | unalloc np =>
    obtain rfl := Option.some.inj ht
    obtain ⟨-, hne⟩ := hold (b := false) rfl (by simp [phase])
    exact .child (by simp) hne (.next rfl rfl rfl id rfl (by simp))
      ⟨rfl, rfl, fun h => absurd h (by simp), Or.inl ⟨rfl, rfl⟩⟩ rfl rfl rfl
  | copyuvm np =>
    obtain rfl := Option.some.inj ht
    rw [goto_some hp]
    cases ok with
    | true => exact .modify (by simp) (.next rfl rfl rfl id rfl (by simp))
    | false =>
      exact .modify (by simp) ⟨rfl, rfl, Or.inr ⟨trivial, fun _ => by simp [Calm]⟩,
        fun h => Or.inl h, fun _ => Or.inl rfl, fun h => absurd h (by simp)⟩
  | inherit np =>
    obtain rfl := Option.some.inj ht
    obtain ⟨-, hne⟩ := hold (b := true) rfl (by simp [phase])
    rw [goto_some (p := p) (by exact hp)]
    exact .child (by simp) hne (.next rfl rfl rfl id rfl (by simp))
      ⟨rfl, rfl, id, Or.inl ⟨rfl, rfl⟩⟩ rfl rfl rfl
  | runnable np =>
    obtain rfl := Option.some.inj ht
    obtain ⟨-, hne⟩ := hold (b := true) rfl (by simp [phase])
    exact .child (f := fun r => { r with state := .RUNNABLE })
      (g := fun r => { r with ret := (s.proc np).pid, todo := rest }) (by simp) hne
      (.next rfl rfl rfl id rfl (by simp)) ⟨rfl, rfl, fun h => absurd h (by simp), Or.inl ⟨rfl, rfl⟩⟩
      rfl rfl rfl
  | scan | back => exact absurd ht (by simp [Sys.procStmt])

/-- What the statements of the scheduler do. -/
theorem schedStep {st : Stmt} (hc : (s.cpu c).thread = none)
    (ht : s.schedStmt c rest st = some t) : SchedStep s t c st rest := by
  cases st with
  | acquire lk =>
    obtain ⟨hfree, ht⟩ := Option.ite_none_right_eq_some.mp ht
    obtain rfl := Option.some.inj ht
    rw [goto_none hc] at hfree ⊢
    have helse := Elsewhere.relock (s := s.onCpu c fun k => { k with todo := rest }) (c := c)
      (o := some c) (n := ((s.onCpu c fun k => { k with todo := rest }).cpu c).ncli + 1) lk
      fun d _ hl => absurd (hfree.symm.trans hl) (by simp)
    refine ⟨fun q => .rfl' _, ⟨fun d hd => ?_, helse.lock⟩, Or.inl ?_⟩
    · exact (helse.cpu d hd).trans ((Elsewhere.onCpu (by rfl) (by rfl) _).cpu d hd)
    · simp [Sys.relock, Sys.onCpu]
  | release lk =>
    obtain ⟨hmine, ht⟩ := Option.ite_none_right_eq_some.mp ht
    obtain rfl := Option.some.inj ht
    rw [goto_none hc] at hmine ⊢
    have helse := Elsewhere.relock (s := s.onCpu c fun k => { k with todo := rest }) (c := c)
      (o := none) (n := ((s.onCpu c fun k => { k with todo := rest }).cpu c).ncli - 1) lk
      fun d hd hl => hd (Option.some.inj (hl.symm.trans hmine))
    refine ⟨fun q => .rfl' _, ⟨fun d hd => ?_, helse.lock⟩, Or.inl ?_⟩
    · exact (helse.cpu d hd).trans ((Elsewhere.onCpu (by rfl) (by rfl) _).cpu d hd)
    · simp [Sys.relock, Sys.onCpu]
  | wakeup1 ch =>
    obtain rfl := Option.some.inj ht
    rw [goto_none (s := { s with proc := wakeTable ch s.proc }) hc]
    exact ⟨away_wakeTable ch s.proc, .onCpu (by rfl) (by rfl) _, Or.inl (by simp [Sys.onCpu])⟩
  | scan i =>
    simp only [Sys.schedStmt] at ht
    split at ht
    · rename_i hi
      split at ht
      · obtain rfl := Option.some.inj ht
        refine ⟨fun q => ?_, .onCpu (by rfl) (by rfl) _, Or.inr (Or.inl ⟨i, rfl⟩)⟩
        rcases eq_or_ne q ⟨i, hi⟩ with rfl | hne
        · simp only [Sys.onCpu, modify_self]
          exact ⟨rfl, rfl, fun h => absurd h (by simp), Or.inl ⟨rfl, rfl⟩⟩
        · simp only [Sys.onCpu, modify_of_ne hne]
          exact .rfl' _
      · obtain rfl := Option.some.inj ht
        rw [goto_none hc]
        exact ⟨fun q => .rfl' _, .onCpu (by rfl) (by rfl) _, Or.inr (Or.inl ⟨i, rfl⟩)⟩
    · obtain rfl := Option.some.inj ht
      rw [goto_none hc]
      exact ⟨fun q => .rfl' _, .onCpu (by rfl) (by rfl) _, Or.inr (Or.inl ⟨i, rfl⟩)⟩
  | back p =>
    obtain rfl := Option.some.inj ht
    exact ⟨fun q => .rfl' _, .onCpu (by rfl) (by rfl) _, Or.inr (Or.inr ⟨p, rfl⟩)⟩
  | setChan | setState | swtch | clearChan | kill | fault | wakeParent | abandon | waitLoop
  | allocproc | kstack | unalloc | copyuvm | inherit | runnable =>
    exact absurd ht (by simp [Sys.schedStmt])

end Xv6.Sched
