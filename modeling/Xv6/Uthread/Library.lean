import Mathlib.Algebra.GroupWithZero.Nat
import Mathlib.Logic.Function.Basic
import Mathlib.Data.List.FinRange

/-! @src uthread1.c trap.c | name:User-level threads | layer:model

    The thread table of `uthread1.c` and the statements of its threads that touch it. A call of
    `thread_schedule` is one action, whether a thread makes it or the timer forces it; it may come
    between any two statements. `created` records the threads `thread_create` made that have not
    marked themselves `FREE`, and is read by no statement. -/

namespace Xv6.Uthread

abbrev MAX_THREAD : ℕ := 4

instance : NeZero MAX_THREAD := ⟨by decide⟩

/-- The values of `state`. -/
inductive ThreadState where
  | FREE
  | RUNNING
  | RUNNABLE
  deriving DecidableEq

/-- `all_thread`, `current_thread` and `next_thread`; `none` is the null pointer. `low` is the word
    a null `thread_p` finds where its `state` would be. `slot` is the local `t` of a thread that is
    inside `thread_create`. -/
structure ULib where
  state : Fin MAX_THREAD → ThreadState
  current_thread : Option (Fin MAX_THREAD)
  next_thread : Option (Fin MAX_THREAD)
  low : ThreadState
  registered : Bool
  slot : Fin MAX_THREAD → Option (Fin MAX_THREAD)
  created : Fin MAX_THREAD → Bool
  exited : Bool

namespace ULib

/-- `p->state`. -/
def stateOf (u : ULib) : Option (Fin MAX_THREAD) → ThreadState
  | some t => u.state t
  | none => u.low

/-- The loop of `thread_schedule`: the first other runnable thread. -/
def findRunnable (u : ULib) : Option (Fin MAX_THREAD) :=
  (List.finRange MAX_THREAD).find? fun t => u.state t = .RUNNABLE ∧ u.current_thread ≠ some t

/-- What `thread_schedule` leaves in `next_thread` for its last two tests. -/
def chooseNext (u : ULib) : Option (Fin MAX_THREAD) :=
  match u.findRunnable with
  | some t => some t
  | none => if u.stateOf u.current_thread = .RUNNABLE then u.current_thread else none

/-- `thread_schedule`, with the effect of `thread_switch` on the table. -/
def threadSchedule (u : ULib) : ULib :=
  match u.chooseNext with
  | none => { u with next_thread := none, exited := true }
  | some t =>
    if u.current_thread ≠ some t then
      { u with
        state := Function.update u.state t .RUNNING, current_thread := some t, next_thread := none }
    else { u with next_thread := none }

/-- The loop of `thread_create`: the first free slot. -/
def findFree (u : ULib) : Option (Fin MAX_THREAD) :=
  (List.finRange MAX_THREAD).find? fun t => u.state t = .FREE

/-- `current_thread->state = st`. -/
def markCurrent (u : ULib) (c : Fin MAX_THREAD) (st : ThreadState) : ULib :=
  { u with state := Function.update u.state c st }

end ULib

/-- The statements of the threads, and the timer. -/
inductive Act where
  | register
  | setCurrent
  | setRunning
  | createFind
  | createMark
  | markRunnable
  | markFree
  | schedule
  | timer
  deriving DecidableEq

namespace ULib

/-- The thread is inside `thread_create`, or has marked itself `FREE` and only calls
    `thread_schedule`: it runs no other statement. -/
def busy (u : ULib) (c : Fin MAX_THREAD) : Bool := (u.slot c).isSome || u.state c = .FREE

/-- One statement of the thread that is running, or a forced call; `none` if it cannot come next. -/
def next (u : ULib) (a : Act) : Option ULib :=
  if u.exited then none else
  match a, u.current_thread with
  -- thread_init
  | .register, none => some { u with registered := true }
  | .setCurrent, none => if u.registered then some { u with current_thread := some 0 } else none
  | .setRunning, some c =>
    if c = 0 ∧ u.state 0 = .FREE ∧ u.created 0 = false then some (u.markCurrent 0 .RUNNING)
    else none
  -- thread_create
  | .createFind, some c =>
    if u.busy c then none
    else u.findFree.map fun t => { u with slot := Function.update u.slot c (some t) }
  | .createMark, some c =>
    (u.slot c).map fun t =>
      { u with
        state := Function.update u.state t .RUNNABLE
        created := Function.update u.created t true
        slot := Function.update u.slot c none }
  -- the statements of mythread
  | .markRunnable, some c =>
    if u.created c ∧ ¬ u.busy c then some (u.markCurrent c .RUNNABLE) else none
  | .markFree, some c =>
    if u.created c ∧ ¬ u.busy c then
      some { u.markCurrent c .FREE with created := Function.update u.created c false }
    else none
  | .schedule, some c => if (u.slot c).isSome then none else some u.threadSchedule
  | .timer, _ => if u.registered then some u.threadSchedule else none
  | _, _ => none

/-- The library at the start of a program. -/
def init (low : ThreadState) : ULib where
  state := fun _ => .FREE
  current_thread := none
  next_thread := none
  low := low
  registered := false
  slot := fun _ => none
  created := fun _ => false
  exited := false

/-- The step relation of a program. -/
def Step (u : ULib) (a : Act) (v : ULib) : Prop := u.next a = some v

end ULib

end Xv6.Uthread
