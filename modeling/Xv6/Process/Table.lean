import Xv6.Process.Trapframe
import Mathlib.Logic.Function.Basic
import Mathlib.Data.List.FinRange

/-! @src proc.c exec.c trap.c | name:The process table | layer:model

    `fork`, `exec`, `exit`, `wait`, `kill`, `sleep`, `wakeup`, `yield`, `scheduler`, `uthread_init`
    and the timer interrupt, as far as they touch the process table. A section under `ptable.lock`
    is one action; between two actions any other processor may run or take an interrupt. Every
    process keeps, as a ghost that nothing reads, the addresses that the image it runs has passed
    to `uthread_init`. -/

namespace Xv6.Process
open Xv6.Schemes.X86 (Word)

abbrev NPROC : ℕ := 64
abbrev NCPU : ℕ := 4

instance : NeZero NPROC := ⟨by decide⟩

instance : NeZero NCPU := ⟨by decide⟩

/-- The address of a slot of `ptable.proc`. -/
abbrev Slot := Fin NPROC

/-- `enum procstate`. -/
inductive ProcState where
  | UNUSED
  | EMBRYO
  | SLEEPING
  | RUNNABLE
  | RUNNING
  | ZOMBIE
  deriving DecidableEq

/-- A sleep channel: a `struct proc`, for `wait`, or any other kernel address. -/
inductive Chan where
  | proc (p : Slot)
  | other (a : ℕ)
  deriving DecidableEq

/-- `&ticks`. -/
def Chan.ticks : Chan := .other 0

/-- Where a process is in the modelled calls; `user` is anywhere else, also in the kernel. -/
inductive Place where
  | user
  -- fork: before the kalloc of allocproc, before copyuvm, before the child is made RUNNABLE
  | forkKstack (np : Slot)
  | forkCopy (np : Slot)
  | forkRun (np : Slot)
  -- exec: before the commit, and after curproc->pgdir = pgdir
  | execLoad
  | execEip (entry sp : Word)
  -- exit: before ptable.lock is taken
  | exitClose
  -- wait: in the loop
  | waitScan
  deriving DecidableEq

namespace Place

/-- The slot `fork` is filling. -/
def child : Place → Option Slot
  | forkKstack np | forkCopy np | forkRun np => some np
  | user | execLoad | execEip _ _ | exitClose | waitScan => none

/-- The places where a process may sleep on something else than its children. -/
def sleeps : Place → Bool
  | user | execLoad | exitClose => true
  | forkKstack _ | forkCopy _ | forkRun _ | execEip _ _ | waitScan => false

end Place

/-- `struct proc`; `tf` stands for the user registers also while the process is in user mode. -/
structure Proc where
  state : ProcState
  pid : Word
  parent : Option Slot
  tf : Trapframe
  chan : Option Chan
  killed : Bool
  scheduler : Word
  place : Place
  passed : List Word

/-- The value a system call returns, as `syscall` stores it. -/
def Proc.ret (v : Word) (r : Proc) : Proc :=
  { r with tf := { r.tf with eax := v }, place := .user }

/-- `ptable`, `cpus[].proc`, `nextpid` and `ticks`. -/
structure Sys where
  proc : Slot → Proc
  cpu : Fin NCPU → Option Slot
  nextpid : Word
  ticks : Word

/-- The statements of a process. -/
inductive Stmt where
  | user (tf : Trapframe)
  | yield
  | sleep (a : ℕ)
  | uthread_init (address : Word)
  | kill (pid : Word)
  | fork
  | forkKstack (ok : Bool)
  | forkCopy (ok : Bool)
  | forkRun
  | exec
  | execFail
  | execCommit (entry sp : Word)
  | execEip
  | exit
  | exitZombie
  | wait
  | waitScan

/-- What a processor does: pick a process, take a timer interrupt, wake a channel up, or run a
    statement of its process. -/
inductive Act where
  | pick (c : Fin NCPU) (p : Slot)
  | timer (c : Fin NCPU)
  | wakeup (ch : Chan)
  | run (c : Fin NCPU) (st : Stmt)

namespace Sys

/-- `initproc`. -/
def initproc : Slot := 0

def modify (s : Sys) (p : Slot) (f : Proc → Proc) : Sys :=
  { s with proc := Function.update s.proc p (f (s.proc p)) }

/-- The process gives up the processor, and its record changes. -/
def leave (s : Sys) (c : Fin NCPU) (p : Slot) (f : Proc → Proc) : Sys :=
  { s.modify p f with cpu := Function.update s.cpu c none }

/-- `wakeup1`. -/
def wakeup1 (s : Sys) (ch : Chan) : Sys :=
  { s with
    proc := fun q =>
      if (s.proc q).state = .SLEEPING ∧ (s.proc q).chan = some ch then
        { s.proc q with state := .RUNNABLE }
      else s.proc q }

/-- `allocproc` up to the release of `ptable.lock`. -/
def allocproc (s : Sys) : Option (Slot × Sys) :=
  ((List.finRange NPROC).find? fun q => (s.proc q).state = .UNUSED).map fun np =>
    let t := s.modify np fun r =>
      { r with
        state := .EMBRYO, pid := s.nextpid, scheduler := -1, place := .user, passed := [] }
    (np, { t with nextpid := s.nextpid + 1 })

/-- The loop of `kill` over the process table: whether it finds `pid`, and what it leaves. -/
def killPid (s : Sys) (pid : Word) : Option Sys :=
  ((List.finRange NPROC).find? fun q => (s.proc q).pid = pid).map fun q =>
    s.modify q fun r =>
      { r with killed := true, state := if r.state = .SLEEPING then .RUNNABLE else r.state }

/-- `exit` passes the children on to `initproc`, and wakes it up if one is a `ZOMBIE`. -/
def abandon (s : Sys) (p : Slot) : Sys :=
  let t : Sys :=
    { s with
      proc := fun q =>
        if (s.proc q).parent = some p then { s.proc q with parent := some initproc }
        else s.proc q }
  if (List.finRange NPROC).any fun q => (s.proc q).parent = some p ∧ (s.proc q).state = .ZOMBIE
  then t.wakeup1 (.proc initproc) else t

/-- The children `wait` finds, in table order. -/
def children (s : Sys) (p : Slot) : List Slot :=
  (List.finRange NPROC).filter fun q => (s.proc q).parent = some p

/-- One round of the loop of `wait`. -/
def waitLoop (s : Sys) (c : Fin NCPU) (p : Slot) : Sys :=
  match (s.children p).find? fun q => (s.proc q).state = .ZOMBIE with
  | some q =>
    let t := s.modify q fun r => { r with pid := 0, parent := none, killed := false, state := .UNUSED }
    t.modify p (Proc.ret (s.proc q).pid)
  | none =>
    if s.children p = [] ∨ (s.proc p).killed then s.modify p (Proc.ret (-1))
    else s.leave c p fun r => { r with chan := some (.proc p), state := .SLEEPING }

/-- A statement of the process `p`, which is current on processor `c`; `none` if it cannot come
    next. A killed process makes no system call any more. -/
def stmt (s : Sys) (c : Fin NCPU) (p : Slot) (st : Stmt) : Option Sys :=
  match st, (s.proc p).place with
  | .user tf, .user => some (s.modify p fun r => { r with tf := tf })
  | .yield, _ => some (s.leave c p fun r => { r with state := .RUNNABLE })
  | .sleep a, place =>
    if place.sleeps then
      some (s.leave c p fun r => { r with chan := some (.other a), state := .SLEEPING })
    else none
  | .uthread_init address, .user =>
    if (s.proc p).killed then none
    else some (s.modify p fun r =>
      Proc.ret 0 { r with scheduler := address, passed := address :: r.passed })
  | .kill pid, .user =>
    if (s.proc p).killed then none
    else match s.killPid pid with
      | some t => some (t.modify p (Proc.ret 0))
      | none => some (s.modify p (Proc.ret (-1)))
  | .fork, .user =>
    if (s.proc p).killed then none
    else match s.allocproc with
      | some (np, t) => some (t.modify p fun r => { r with place := .forkKstack np })
      | none => some (s.modify p (Proc.ret (-1)))
  | .forkKstack ok, .forkKstack np =>
    if ok then some (s.modify p fun r => { r with place := .forkCopy np })
    else some ((s.modify np fun r => { r with state := .UNUSED }).modify p (Proc.ret (-1)))
  | .forkCopy ok, .forkCopy np =>
    if ok then
      let tf := { (s.proc p).tf with eax := 0 }
      some ((s.modify np fun r => { r with parent := some p, tf := tf }).modify p fun r =>
        { r with place := .forkRun np })
    else some ((s.modify np fun r => { r with state := .UNUSED }).modify p (Proc.ret (-1)))
  | .forkRun, .forkRun np =>
    some ((s.modify np fun r => { r with state := .RUNNABLE }).modify p (Proc.ret (s.proc np).pid))
  | .exec, .user =>
    if (s.proc p).killed then none else some (s.modify p fun r => { r with place := .execLoad })
  | .execFail, .execLoad => some (s.modify p (Proc.ret (-1)))
  -- curproc->pgdir = pgdir: from here on the process runs the new image
  | .execCommit entry sp, .execLoad =>
    some (s.modify p fun r => { r with place := .execEip entry sp, passed := [] })
  | .execEip, .execEip entry sp =>
    some (s.modify p fun r => Proc.ret 0 { r with tf := { r.tf with eip := entry, esp := sp } })
  | .exit, .user =>
    if p = initproc then none else some (s.modify p fun r => { r with place := .exitClose })
  | .exitZombie, .exitClose =>
    let t := match (s.proc p).parent with
      | some q => s.wakeup1 (.proc q)
      | none => s
    some ((t.abandon p).leave c p fun r => { r with state := .ZOMBIE })
  | .wait, .user =>
    if (s.proc p).killed then none else some (s.modify p fun r => { r with place := .waitScan })
  | .waitScan, .waitScan => some (s.waitLoop c p)
  | _, _ => none

/-- The timer interrupt on processor `c`. -/
def timer (s : Sys) (c : Fin NCPU) : Sys :=
  let t := { s with ticks := tick (c = 0) s.ticks }
  let u := if c = 0 then t.wakeup1 .ticks else t
  match u.cpu c with
  | some p => u.modify p fun r => { r with tf := redirect r.scheduler u.ticks r.tf }
  | none => u

/-- One action; `none` if it cannot come next. -/
def next (s : Sys) : Act → Option Sys
  | .pick c p =>
    if s.cpu c = none ∧ (s.proc p).state = .RUNNABLE then
      let t := s.modify p fun r => { r with state := .RUNNING, chan := none }
      some { t with cpu := Function.update s.cpu c (some p) }
    else none
  | .timer c => some (s.timer c)
  | .wakeup ch => some (s.wakeup1 ch)
  | .run c st => (s.cpu c).bind fun p => s.stmt c p st

/-- The step relation of the kernel. -/
def Step (s : Sys) (a : Act) (t : Sys) : Prop := s.next a = some t

/-- A slot that has never been used: the table is zero at first. -/
def unused : Proc where
  state := .UNUSED
  pid := 0
  parent := none
  tf := ⟨0, 0, 0, 0, 0, 0, 0, 0, false, false, 0⟩
  chan := none
  killed := false
  scheduler := 0
  place := .user
  passed := []

/-- The kernel after `userinit`. -/
def boot : Sys where
  proc := Function.update (fun _ => unused) initproc
    { unused with
      state := .RUNNABLE
      pid := 1
      tf := ⟨0, 0, 0, 0, 0, 0, 0, 0, false, false, 0x1000⟩
      scheduler := -1 }
  cpu := fun _ => none
  nextpid := 2
  ticks := 0

end Sys

end Xv6.Process
