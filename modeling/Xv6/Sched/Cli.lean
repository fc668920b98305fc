import Xv6.Sched.Threads
import Xv6.Schemes.Run
import Mathlib.Data.Finset.Card

/-! @src spinlock.c proc.c vm.c TRICKS | name:Nested interrupt disabling | layer:model

    `pushcli` and `popcli`, and the functions that call them, statement by statement, on any number
    of processors, with the scheduler of each processor and any number of processes. A processor
    takes an interrupt whenever its flag is set, also in the middle of `pushcli`; the handler calls
    what it likes, is perhaps rescheduled, and returns with `iret`. Between two calls a thread may
    make any call that is matched by those it has made before. -/

namespace Xv6.Cli
open Xv6.Process (ProcState)
open Xv6.Sched (Lock)

inductive Stmt where
  -- pushcli
  | readeflags
  | cli
  | saveIntena
  | incNcli
  -- popcli
  | testIf
  | decNcli
  | sti
  -- what acquire does after pushcli, and release before popcli
  | take (lk : Lock)
  | drop (lk : Lock)
  -- p->state = st, and sched
  | setState (st : ProcState)
  | tests
  | getIntena
  | swtch
  | setIntena
  | panic
  deriving DecidableEq

def pushcli : List Stmt := [.readeflags, .cli, .saveIntena, .incNcli]

def popcli : List Stmt := [.testIf, .decNcli, .sti]

def acquire (lk : Lock) : List Stmt := pushcli ++ [.take lk]

def release (lk : Lock) : List Stmt := .drop lk :: popcli

def myproc : List Stmt := pushcli ++ popcli

/-- `sched`, after the assignment of the state that `yield`, `sleep` and `exit` make before it. -/
def sched (st : ProcState) : List Stmt :=
  .setState st :: (myproc ++ [.tests, .getIntena, .swtch, .setIntena])

/-- What a thread can call. -/
inductive Call where
  | pushcli
  | popcli
  | acquire (lk : Lock)
  | release (lk : Lock)
  | sched (st : ProcState)
  deriving DecidableEq

/-- Whether the processor may be given up. -/
def Call.switches : Call → Bool
  | .sched _ => true
  | _ => false

def Call.code : Call → List Stmt
  | .pushcli => Cli.pushcli
  | .popcli => Cli.popcli
  | .acquire lk => Cli.acquire lk
  | .release lk => Cli.release lk
  | .sched st => Cli.sched st

/-- The statements left of the function that a thread executes, with the local variables `eflags`
    of `pushcli` and `intena` of `sched`. A ghost: whether interrupts were enabled when the function
    was called. -/
structure Frame where
  code : List Stmt
  eflags : Bool
  intena : Bool
  entry : Bool

/-- A kernel thread with the functions that have been interrupted. Ghosts: the number of its calls
    of `pushcli` that no `popcli` matches, the spinlocks that it has acquired, whether interrupts
    were enabled when it called the outermost of these `pushcli`s, and whether it has come out of
    a `popcli` that matched them all. -/
structure Thread where
  now : Frame
  frames : List Frame
  depth : ℕ
  locks : Finset Lock
  outer : Bool
  started : Bool

/-- The statement that `scheduler` executes next when it is not in a call. -/
inductive Loop (τ : Type) where
  | enable
  | lock
  | scan
  -- the two calls of switchuvm, and the switch to p
  | map (p : τ)
  | run (p : τ)

/-- `struct cpu`, the interrupt flag of the processor, and its place in `scheduler`; `thread` is the
    process whose kernel stack is in use. -/
structure Cpu (τ : Type) where
  ncli : ℤ
  intena : Bool
  eflags : Bool
  thread : Option τ
  loop : Loop τ

/-- The processors in `κ` and the processes in `τ`; a thread is one of a process or a scheduler. -/
structure Sys (κ τ : Type) where
  cpu : κ → Cpu τ
  thread : τ ⊕ κ → Thread
  state : τ → ProcState
  lock : Lock → Option κ

inductive Act (κ τ : Type) where
  | run (c : κ)
  | call (c : κ) (f : Call)
  | intr (c : κ)
  | iret (c : κ)
  -- scheduler, which may find the process p RUNNABLE
  | loop (c : κ) (p : Option τ)
  -- under ptable.lock: wakeup and kill, fork, and wait
  | wake (c : κ) (p : τ)
  | fork (c : κ) (p : τ)
  | reap (c : κ) (p : τ)

/-- The calls that are matched by those before; `sched` is called with `ptable.lock` alone. -/
def Thread.Allows (r : Thread) : Call → Prop
  | .pushcli => True
  | .popcli => r.locks.card < r.depth
  | .acquire lk => lk ∉ r.locks
  | .release lk => lk ∈ r.locks
  | .sched st => r.locks = {.ptable} ∧ r.depth = 1 ∧
      (st = .RUNNABLE ∨ st = .SLEEPING ∨ st = .ZOMBIE)

instance (r : Thread) (f : Call) : Decidable (r.Allows f) := by
  cases f <;> unfold Thread.Allows <;> infer_instance

/-- A function of which nothing is left. -/
def Frame.done : Frame := ⟨[], false, false, false⟩

namespace Thread

/-- The thread goes on with the statements `l`. -/
def goto (r : Thread) (l : List Stmt) : Thread := { r with now := { r.now with code := l } }

/-- The thread begins the call `f`, while the interrupt flag is `fl`. -/
def begins (r : Thread) (f : Call) (fl : Bool) : Thread :=
  { r with now := { r.now with code := f.code, entry := fl } }

/-- The thread of a process that `fork` has made: `forkret` releases `ptable.lock`, which the
    scheduler has acquired, and returns to `trapret`. -/
def newborn : Thread where
  now := { Frame.done with code := release .ptable }
  frames := [Frame.done]
  depth := 1
  locks := {.ptable}
  outer := false
  started := false

end Thread

namespace Sys

variable {κ τ : Type}

/-- The thread that the processor executes. -/
def who (s : Sys κ τ) (c : κ) : τ ⊕ κ :=
  match (s.cpu c).thread with
  | some p => .inl p
  | none => .inr c

def current (s : Sys κ τ) (c : κ) : Thread := s.thread (s.who c)

/-- The thread is between two calls. -/
def Between (s : Sys κ τ) (c : κ) : Prop := (s.current c).now.code = []

instance (s : Sys κ τ) (c : κ) : Decidable (s.Between c) :=
  inferInstanceAs (Decidable (_ = _))

variable [DecidableEq κ] [DecidableEq τ]

/-- The processor changes, and the thread that it executes. -/
def on (s : Sys κ τ) (c : κ) (f : Cpu τ → Cpu τ) (g : Thread → Thread) : Sys κ τ :=
  { s with
    cpu := Function.update s.cpu c (f (s.cpu c))
    thread := match (s.cpu c).thread with
      | some p => Function.update s.thread (.inl p) (g (s.thread (.inl p)))
      | none => Function.update s.thread (.inr c) (g (s.thread (.inr c))) }

theorem on_thread (s : Sys κ τ) (c : κ) (f : Cpu τ → Cpu τ) (g : Thread → Thread) :
    (s.on c f g).thread = Function.update s.thread (s.who c) (g (s.current c)) := by
  unfold on current who
  cases (s.cpu c).thread <;> rfl

omit [DecidableEq κ] [DecidableEq τ] in
def setLock (s : Sys κ τ) (lk : Lock) (holder : Option κ) : Sys κ τ :=
  { s with lock := Function.update s.lock lk holder }

omit [DecidableEq κ] in
def setState (s : Sys κ τ) (p : τ) (st : ProcState) : Sys κ τ :=
  { s with state := Function.update s.state p st }

/-- A statement, before the statements `rest`; a panic is where a thread stays. -/
def stmt (s : Sys κ τ) (c : κ) (rest : List Stmt) : Stmt → Option (Sys κ τ)
  | .readeflags =>
    some (s.on c id fun r =>
      { r with now := { r.now with eflags := (s.cpu c).eflags, code := rest } })
  | .cli => some (s.on c (fun k => { k with eflags := false }) (·.goto rest))
  | .saveIntena =>
    some (s.on c (fun k =>
      { k with intena := if k.ncli = 0 then (s.current c).now.eflags else k.intena }) (·.goto rest))
  | .incNcli =>
    some (s.on c (fun k => { k with ncli := k.ncli + 1 }) fun r =>
      { r.goto rest with
        depth := r.depth + 1
        outer := if r.depth = 0 then r.now.entry else r.outer })
  | .testIf => some (s.on c id (·.goto (if (s.cpu c).eflags then [.panic] else rest)))
  | .decNcli =>
    some (s.on c (fun k => { k with ncli := k.ncli - 1 }) fun r =>
      { r.goto (if (s.cpu c).ncli - 1 < 0 then [.panic] else rest) with depth := r.depth - 1 })
  | .sti =>
    some (s.on c (fun k => { k with eflags := k.eflags || (k.ncli = 0 && k.intena) }) fun r =>
      { r.goto rest with started := r.started || r.depth = 0 })
  -- if(holding(lk)) panic("acquire"); while(xchg(&lk->locked, 1) != 0)
  | .take lk =>
    if s.lock lk = some c then some (s.on c id (·.goto [.panic]))
    else if s.lock lk = none then
      some ((s.on c id fun r => { r.goto rest with locks := insert lk r.locks }).setLock lk (some c))
    else none
  | .drop lk =>
    if s.lock lk = some c then
      some ((s.on c id fun r => { r.goto rest with locks := r.locks.erase lk }).setLock lk none)
    else some (s.on c id (·.goto [.panic]))
  | .setState st => (s.cpu c).thread.map fun p => (s.on c id (·.goto rest)).setState p st
  | .tests =>
    (s.cpu c).thread.map fun p =>
      s.on c id (·.goto
        (if s.lock .ptable = some c ∧ (s.cpu c).ncli = 1 ∧ s.state p ≠ .RUNNING ∧
          (s.cpu c).eflags = false then rest else [.panic]))
  | .getIntena =>
    some (s.on c id fun r =>
      { r with now := { r.now with intena := (s.cpu c).intena, code := rest } })
  | .swtch => (s.cpu c).thread.map fun _ => s.on c (fun k => { k with thread := none }) (·.goto rest)
  | .setIntena =>
    some (s.on c (fun k => { k with intena := (s.current c).now.intena }) (·.goto rest))
  | .panic => none

def run (s : Sys κ τ) (c : κ) : Option (Sys κ τ) :=
  match (s.current c).now.code with
  | st :: rest => s.stmt c rest st
  | [] => none

/-- A call of a process, or of a handler; one in `scheduler` has no process to give up. -/
def call (s : Sys κ τ) (c : κ) (f : Call) : Option (Sys κ τ) :=
  if s.Between c ∧ (s.current c).Allows f ∧
      ((s.cpu c).thread = none → (s.current c).frames ≠ [] ∧ f.switches = false) then
    some (s.on c id (·.begins f (s.cpu c).eflags))
  else none

/-- An interrupt; the gate clears the flag. -/
def intr (s : Sys κ τ) (c : κ) : Option (Sys κ τ) :=
  if (s.cpu c).eflags then
    some (s.on c (fun k => { k with eflags := false }) fun r =>
      { r.goto [] with frames := r.now :: r.frames })
  else none

/-- The handler, which has undone its calls of `pushcli`, returns to what was interrupted. -/
def iret (s : Sys κ τ) (c : κ) : Option (Sys κ τ) :=
  match (s.current c).frames with
  | f :: fs =>
    if s.Between c ∧ (s.current c).depth = 0 then
      some (s.on c (fun k => { k with eflags := true }) fun r => { r with now := f, frames := fs })
    else none
  | [] => none

/-- `scheduler` calls `f`, and goes on at `x`. -/
def loopCall (s : Sys κ τ) (c : κ) (f : Call) (x : Loop τ) : Sys κ τ :=
  s.on c (fun k => { k with loop := x }) (·.begins f (s.cpu c).eflags)

/-- The statements of `scheduler`. -/
def loop (s : Sys κ τ) (c : κ) (p : Option τ) : Option (Sys κ τ) :=
  if (s.cpu c).thread = none ∧ s.Between c ∧ (s.current c).frames = [] then
    match (s.cpu c).loop, p with
    | .enable, _ => some (s.on c (fun k => { k with eflags := true, loop := .lock }) id)
    | .lock, _ => some (s.loopCall c (.acquire .ptable) .scan)
    | .scan, some p => if s.state p = .RUNNABLE then some (s.loopCall c .pushcli (.map p)) else none
    | .scan, none => some (s.loopCall c (.release .ptable) .enable)
    | .map p, _ => some (s.loopCall c .popcli (.run p))
    | .run p, _ =>
      some ((s.setState p .RUNNING).on c (fun k => { k with thread := some p, loop := .scan }) id)
  else none

omit [DecidableEq κ] in
/-- Under `ptable.lock`, a thread changes the state of a process from `st` to `st'`. -/
def table (s : Sys κ τ) (c : κ) (p : τ) (st st' : ProcState) : Option (Sys κ τ) :=
  if s.Between c ∧ .ptable ∈ (s.current c).locks ∧ s.state p = st then some (s.setState p st')
  else none

def next (s : Sys κ τ) : Act κ τ → Option (Sys κ τ)
  | .run c => s.run c
  | .call c f => s.call c f
  | .intr c => s.intr c
  | .iret c => s.iret c
  | .loop c p => s.loop c p
  | .wake c p => s.table c p .SLEEPING .RUNNABLE
  | .fork c p => (s.table c p .UNUSED .RUNNABLE).map fun t =>
      { t with thread := Function.update t.thread (.inl p) Thread.newborn }
  | .reap c p => s.table c p .ZOMBIE .UNUSED

def Step (s : Sys κ τ) (a : Act κ τ) (t : Sys κ τ) : Prop := s.next a = some t

omit [DecidableEq κ] in
/-- After `userinit`, with every processor before the loop of `scheduler`. -/
def boot (initproc : τ) : Sys κ τ where
  cpu := fun _ => ⟨0, false, false, none, .enable⟩
  thread := fun
    | .inl _ => Thread.newborn
    | .inr _ => ⟨Frame.done, [], 0, ∅, false, false⟩
  state := Function.update (fun _ => .UNUSED) initproc .RUNNABLE
  lock := fun _ => none

end Sys

end Xv6.Cli
