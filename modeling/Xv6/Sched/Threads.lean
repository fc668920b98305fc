import Xv6.Process.Table

/-! @src proc.c trap.c spinlock.c | name:Kernel threads | layer:model

    The scheduler of every processor and the kernel thread of every process, statement by
    statement. A thread is the list of the statements it still has to execute; a loop over the
    process table, which runs under `ptable.lock`, is one statement. `swtch` hands the processor,
    and with it the lock, from one thread to another. Interrupts put the statements of their
    handler in front of whatever the processor executes. -/

namespace Xv6.Sched
open Xv6.Schemes.X86 (Word)
open Xv6.Process (NPROC Slot ProcState Chan)

/-- `ptable.lock`, or another spinlock. -/
inductive Lock where
  | ptable
  | other (lk : ℕ)
  deriving DecidableEq

inductive Stmt where
  | acquire (lk : Lock)
  | release (lk : Lock)
  -- sleep, yield and exit
  | setChan (ch : Chan)
  | setState (st : ProcState)
  | swtch
  | clearChan
  | wakeup1 (ch : Chan)
  | kill (pid : Word)
  | fault
  -- exit: wakeup1(curproc->parent), and passing the children on
  | wakeParent
  | abandon
  | waitLoop
  -- fork: allocproc up to its release, the rest of it, and what follows
  | allocproc
  | kstack (np : Slot)
  | unalloc (np : Slot)
  | copyuvm (np : Slot)
  | inherit (np : Slot)
  | runnable (np : Slot)
  -- scheduler: the loop from the index i on, and the statements after its swtch
  | scan (i : ℕ)
  | back (p : Slot)
  deriving DecidableEq

/-- What a process can call; a channel that is not the address of a process is a number. -/
inductive Call where
  | acquire (lk : ℕ)
  | release (lk : ℕ)
  | sleep (a lk : ℕ)
  | wakeup (a : ℕ)
  | kill (pid : Word)
  | fault
  | fork
  | exit
  | wait
  deriving DecidableEq

/-- What an interrupt can do. -/
inductive Handler where
  | wakeup (lk a : ℕ)
  | yield

/-- The statements of a call. -/
def Call.code : Call → List Stmt
  | .acquire lk => [.acquire (.other lk)]
  | .release lk => [.release (.other lk)]
  | .sleep a lk =>
    [.acquire .ptable, .release (.other lk), .setChan (.other a), .setState .SLEEPING, .swtch,
      .clearChan, .release .ptable, .acquire (.other lk)]
  | .wakeup a => [.acquire .ptable, .wakeup1 (.other a), .release .ptable]
  | .kill pid => [.acquire .ptable, .kill pid, .release .ptable]
  | .fault => [.fault]
  | .fork => [.acquire .ptable, .allocproc]
  | .exit => [.acquire .ptable, .wakeParent, .abandon, .setState .ZOMBIE, .swtch]
  | .wait => [.acquire .ptable, .waitLoop]

def Handler.code : Handler → List Stmt
  | .wakeup lk a =>
    [.acquire (.other lk), .acquire .ptable, .wakeup1 (.other a), .release .ptable,
      .release (.other lk)]
  | .yield => [.acquire .ptable, .setState .RUNNABLE, .swtch, .release .ptable]

/-- `sleep(curproc, &ptable.lock)` and the next round of the loop of `wait`. -/
def sleepInWait (p : Slot) : List Stmt :=
  [.setChan (.proc p), .setState .SLEEPING, .swtch, .clearChan, .waitLoop]

/-- What `fork` does with a process it has got from the table. -/
def forkInto (np : Slot) : List Stmt :=
  [.release .ptable, .kstack np, .copyuvm np, .inherit np, .acquire .ptable, .runnable np,
    .release .ptable]

/-- `forkret`. -/
def forkret : List Stmt := [.release .ptable]

/-- `scheduler`, before it takes the lock. -/
def idle : List Stmt := [.acquire .ptable, .scan 0]

/-- What happens to processes, by the ghost numbers they get in the order of their allocation. -/
inductive Event where
  | forked (i : ℕ)
  | exited (i : ℕ)
  | reported (x i : ℕ)
  deriving DecidableEq

/-- `struct proc` with its kernel thread: `todo` is its context, `ret` the value the last call has
    returned. Ghosts: the call and the number of calls so far, the number of the process, and
    whether `kill` has been called with its pid. -/
structure Proc where
  state : ProcState
  pid : Word
  parent : Option Slot
  chan : Option Chan
  killed : Bool
  todo : List Stmt
  ret : Word
  call : Option Call
  calls : ℕ
  num : ℕ
  marked : Bool

/-- `struct cpu`: `thread` is the process whose kernel stack is in use, and `cr3` the one whose page
    directory is; `todo` is the context of the scheduler. -/
structure Cpu where
  proc : Option Slot
  thread : Option Slot
  cr3 : Option Slot
  ncli : ℕ
  todo : List Stmt

/-- The kernel on the processors in `κ`, with the history of its processes. -/
structure Sys (κ : Type) where
  proc : Slot → Proc
  cpu : κ → Cpu
  lock : Lock → Option κ
  nextpid : Word
  born : ℕ
  log : List Event

/-- A processor executes its next statement, `ok` being whether `kalloc` succeeds; a process calls
    a function; an interrupt comes. -/
inductive Act (κ : Type) where
  | run (c : κ) (ok : Bool)
  | call (c : κ) (f : Call)
  | intr (c : κ) (h : Handler)

/-- `initproc`. -/
abbrev initproc : Slot := Process.Sys.initproc

/-! ### The process table -/

/-- `wakeup1`. -/
def wakeTable (ch : Chan) (tbl : Slot → Proc) (q : Slot) : Proc :=
  if (tbl q).state = .SLEEPING ∧ (tbl q).chan = some ch then { tbl q with state := .RUNNABLE }
  else tbl q

/-- The process that the loop of `kill` finds. -/
def findPid (tbl : Slot → Proc) (pid : Word) : Option Slot :=
  (List.finRange NPROC).find? fun q => (tbl q).pid = pid

/-- What `kill` does to the process that it finds. -/
def Proc.kill (r : Proc) : Proc :=
  { r with killed := true, state := if r.state = .SLEEPING then .RUNNABLE else r.state }

/-- `kill`, under the lock: what it returns, and the table it leaves. -/
def killTable (tbl : Slot → Proc) (pid : Word) : Word × (Slot → Proc) :=
  match findPid tbl pid with
  | some q => (0, Function.update tbl q (tbl q).kill)
  | none => (-1, tbl)

/-- The children of `p` become those of init. -/
def orphans (p : Slot) (tbl : Slot → Proc) (q : Slot) : Proc :=
  if (tbl q).parent = some p then { tbl q with parent := some initproc } else tbl q

/-- The loop of `exit` over the children. -/
def abandonTable (p : Slot) (tbl : Slot → Proc) : Slot → Proc :=
  if (List.finRange NPROC).any fun q => (tbl q).parent = some p ∧ (tbl q).state = .ZOMBIE
  then wakeTable (.proc initproc) (orphans p tbl) else orphans p tbl

/-- The children that the loop of `wait` finds. -/
def children (tbl : Slot → Proc) (p : Slot) : List Slot :=
  (List.finRange NPROC).filter fun q => (tbl q).parent = some p

/-- The child that `wait` reports. -/
def deadChild (tbl : Slot → Proc) (p : Slot) : Option Slot :=
  (children tbl p).find? fun q => (tbl q).state = .ZOMBIE

/-- What `wait` leaves in the slot. -/
def Proc.reap (r : Proc) : Proc :=
  { r with pid := 0, parent := none, killed := false, state := .UNUSED }

/-- Those who have been named to `kill` while in use. -/
def mark (pid : Word) (tbl : Slot → Proc) (q : Slot) : Proc :=
  if (tbl q).pid = pid ∧ (tbl q).state ≠ .UNUSED then { tbl q with marked := true } else tbl q

namespace Sys

variable {κ : Type} [DecidableEq κ]

omit [DecidableEq κ] in
def modify (s : Sys κ) (p : Slot) (f : Proc → Proc) : Sys κ :=
  { s with proc := Function.update s.proc p (f (s.proc p)) }

def onCpu (s : Sys κ) (c : κ) (f : Cpu → Cpu) : Sys κ :=
  { s with cpu := Function.update s.cpu c (f (s.cpu c)) }

omit [DecidableEq κ] in
/-- The statements of the thread that the processor executes. -/
def todo (s : Sys κ) (c : κ) : List Stmt :=
  match (s.cpu c).thread with
  | some p => (s.proc p).todo
  | none => (s.cpu c).todo

/-- The thread goes on with the statements `l`. -/
def goto (s : Sys κ) (c : κ) (l : List Stmt) : Sys κ :=
  match (s.cpu c).thread with
  | some p => s.modify p fun r => { r with todo := l }
  | none => s.onCpu c fun k => { k with todo := l }

/-- The lock gets a new holder, and the processor a new `ncli`. -/
def relock (s : Sys κ) (c : κ) (lk : Lock) (holder : Option κ) (ncli : ℕ) : Sys κ :=
  { s with
    lock := Function.update s.lock lk holder
    cpu := Function.update s.cpu c { s.cpu c with ncli := ncli } }

/-- `acquire`, once the lock is free. -/
def acquire (s : Sys κ) (c : κ) (lk : Lock) : Option (Sys κ) :=
  if s.lock lk = none then some (s.relock c lk (some c) ((s.cpu c).ncli + 1)) else none

/-- `release`; the panic is `none`. -/
def release (s : Sys κ) (c : κ) (lk : Lock) : Option (Sys κ) :=
  if s.lock lk = some c then some (s.relock c lk none ((s.cpu c).ncli - 1)) else none

omit [DecidableEq κ] in
/-- Recording an event. -/
def note (s : Sys κ) (e : Event) : Sys κ := { s with log := s.log ++ [e] }

omit [DecidableEq κ] in
/-- The first slot that `allocproc` finds unused. -/
def unused (s : Sys κ) : Option Slot :=
  (List.finRange NPROC).find? fun q => (s.proc q).state = .UNUSED

/-- A statement of the kernel thread of the process `p`, before the statements `rest`. -/
def procStmt (s : Sys κ) (c : κ) (p : Slot) (ok : Bool) (rest : List Stmt) :
    Stmt → Option (Sys κ)
  | .acquire lk => (s.goto c rest).acquire c lk
  | .release lk => (s.goto c rest).release c lk
  | .setChan ch => some (s.modify p fun r => { r with chan := some ch, todo := rest })
  | .setState st =>
    let t := s.modify p fun r => { r with state := st, todo := rest }
    some (if st = .ZOMBIE then t.note (.exited (s.proc p).num) else t)
  -- sched: its tests are panics
  | .swtch =>
    if s.lock .ptable = some c ∧ (s.cpu c).ncli = 1 ∧ (s.proc p).state ≠ .RUNNING then
      some ((s.goto c rest).onCpu c fun k => { k with thread := none })
    else none
  | .clearChan => some (s.modify p fun r => { r with chan := none, todo := rest })
  | .wakeup1 ch => some ({ s with proc := wakeTable ch s.proc }.goto c rest)
  | .kill pid =>
    let (ret, tbl) := killTable s.proc pid
    some ({ s with proc := mark pid tbl }.modify p fun r => { r with ret := ret, todo := rest })
  | .fault => some (s.modify p fun r => { r with killed := true, todo := rest })
  | .wakeParent =>
    match (s.proc p).parent with
    | some q => some ({ s with proc := wakeTable (.proc q) s.proc }.goto c rest)
    | none => some (s.goto c rest)
  | .abandon => some ({ s with proc := abandonTable p s.proc }.goto c rest)
  | .waitLoop =>
    match deadChild s.proc p with
    | some q =>
      let t := (s.modify q Proc.reap).note (.reported (s.proc p).num (s.proc q).num)
      some (t.modify p fun r => { r with ret := (s.proc q).pid, todo := [.release .ptable] })
    | none =>
      if children s.proc p = [] ∨ (s.proc p).killed then
        some (s.modify p fun r => { r with ret := -1, todo := [.release .ptable] })
      else some (s.modify p fun r => { r with todo := sleepInWait p })
  | .allocproc =>
    match s.unused with
    | some np =>
      let t := s.modify np fun r =>
        { r with state := .EMBRYO, pid := s.nextpid, num := s.born, marked := false }
      some ({ t with nextpid := s.nextpid + 1, born := s.born + 1 }.goto c (forkInto np))
    | none => some (s.modify p fun r => { r with ret := -1, todo := [.release .ptable] })
  | .kstack np =>
    if ok then
      some ((s.modify np fun r => { r with todo := forkret, call := none }).goto c rest)
    else some (s.goto c [.unalloc np])
  | .unalloc np =>
    some ((s.modify np fun r => { r with state := .UNUSED }).modify p fun r =>
      { r with ret := -1, todo := rest })
  | .copyuvm np => some (s.goto c (if ok then rest else [.unalloc np]))
  | .inherit np =>
    some ((s.modify np fun r => { r with parent := some p, ret := 0 }).goto c rest)
  | .runnable np =>
    let t := (s.modify np fun r => { r with state := .RUNNABLE }).note (.forked (s.proc np).num)
    some (t.modify p fun r => { r with ret := (s.proc np).pid, todo := rest })
  | .scan _ | .back _ => none

/-- A statement of the scheduler, before the statements `rest`. -/
def schedStmt (s : Sys κ) (c : κ) (rest : List Stmt) : Stmt → Option (Sys κ)
  | .acquire lk => (s.goto c rest).acquire c lk
  | .release lk => (s.goto c rest).release c lk
  | .wakeup1 ch => some ({ s with proc := wakeTable ch s.proc }.goto c rest)
  | .scan i =>
    if h : i < NPROC then
      let p : Slot := ⟨i, h⟩
      if (s.proc p).state = .RUNNABLE then
        -- c->proc = p; switchuvm(p); p->state = RUNNING; swtch(&(c->scheduler), p->context)
        some ((s.modify p fun r => { r with state := .RUNNING }).onCpu c fun k =>
          { k with proc := some p, thread := some p, cr3 := some p, todo := [.back p] })
      else some (s.goto c [.scan (i + 1)])
    else some (s.goto c (.release .ptable :: idle))
  -- switchkvm(); c->proc = 0
  | .back p => some (s.onCpu c fun k => { k with proc := none, cr3 := none, todo := [.scan (p + 1)] })
  | .setChan _ | .setState _ | .swtch | .clearChan | .kill _ | .fault | .wakeParent | .abandon
  | .waitLoop | .allocproc | .kstack _ | .unalloc _ | .copyuvm _ | .inherit _ | .runnable _ => none

/-- The processor executes its next statement. -/
def run (s : Sys κ) (c : κ) (ok : Bool) : Option (Sys κ) :=
  match s.todo c, (s.cpu c).thread with
  | st :: rest, some p => s.procStmt c p ok rest st
  | st :: rest, none => s.schedStmt c rest st
  | [], _ => none

omit [DecidableEq κ] in
/-- The process that runs on the processor calls a function, between two calls. -/
def call (s : Sys κ) (c : κ) (f : Call) : Option (Sys κ) :=
  (s.cpu c).thread.bind fun p =>
    if (s.proc p).todo = [] ∧ (f = .exit → p ≠ initproc) then
      some (s.modify p fun r =>
        { r with todo := f.code, call := some f, calls := r.calls + 1 })
    else none

/-- An interrupt; they are off while a spinlock is held. -/
def intr (s : Sys κ) (c : κ) (h : Handler) : Option (Sys κ) :=
  if (s.cpu c).ncli = 0 then
    match h with
    | .wakeup _ _ => some (s.goto c (h.code ++ s.todo c))
    | .yield =>
      (s.cpu c).thread.bind fun p =>
        if (s.proc p).state = .RUNNING then some (s.goto c (h.code ++ s.todo c)) else none
  else none

/-- One action; `none` if it cannot come next. -/
def next (s : Sys κ) : Act κ → Option (Sys κ)
  | .run c ok => s.run c ok
  | .call c f => s.call c f
  | .intr c h => s.intr c h

/-- The step relation of the kernel threads. -/
def Step (s : Sys κ) (a : Act κ) (t : Sys κ) : Prop := s.next a = some t

/-- A slot that has never been used. -/
def zero : Proc where
  state := .UNUSED
  pid := 0
  parent := none
  chan := none
  killed := false
  todo := []
  ret := 0
  call := none
  calls := 0
  num := 0
  marked := false

omit [DecidableEq κ] in
/-- The kernel after `userinit`, with every processor in `scheduler`. -/
def boot : Sys κ where
  proc := Function.update (fun _ => zero) initproc
    { zero with state := .RUNNABLE, pid := 1, todo := forkret }
  cpu := fun _ => ⟨none, none, none, 0, idle⟩
  lock := fun _ => none
  nextpid := 2
  born := 1
  log := []

end Sys

end Xv6.Sched
